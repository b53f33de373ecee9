import FrameLisp.Proofs.Store.Discovery
import FrameLisp.Proofs.Store.Similar

/-!
# Chains that end

The walk along a chain is cut off after as many steps as there are frames, so it always stops. Here
it is asked whether it would stop by itself: whether every chain ends in a frame without a parent.
In a *grounded* store it does. Then no frame is its own ancestor, and a walk that is not cut off,
going outwards for as long as nothing is found and there is a parent, comes to its end with what the
walk that is cut off gives.

Nothing but parents matters for this. If the frames of a grounded store keep their parents, and each
new frame has a parent that is older than itself, then the store stays grounded.

## Main definitions

* `Store.Ends`, `Store.Grounded` — chains that end
* `Store.Walk` — the steps of a walk that is not cut off

## Main results

* `Store.Grounded.of_outer` — new frames with older parents
* `Store.Ends.ancestor_ne_self` — no frame is its own ancestor
* `Store.Grounded.exists_walk` — walks come to their end, with what is found along the chain
-/

namespace FrameLisp

namespace Store

variable {s t : Store} {i j : FrameId}

/-- The chain that begins with a frame ends. -/
inductive Ends (s : Store) : FrameId → Prop where
  | root {i : FrameId} (houter : s.outer i = none) : Ends s i
  | child {i j : FrameId} (houter : s.outer i = some j) (hj : Ends s j) : Ends s i

/-- All chains end. -/
def Grounded (s : Store) : Prop := ∀ i, s.Ends i

/-! ### Ancestors -/

theorem Linked.lt_of_ancestor (hs : s.Linked) (hi : i < s.size) {k : ℕ}
    (h : s.ancestor k (some i) = some j) : j < s.size := by
  induction k generalizing i with
  | zero => exact Option.some.inj h ▸ hi
  | succ k ih =>
    rw [ancestor_succ] at h
    cases houter : s.outer i with
    | none =>
      rw [houter, ancestor_none] at h
      cases h
    | some l =>
      rw [houter] at h
      exact ih (hs i l (mem_links_of_outer houter)) h

theorem Linked.lt_of_mem_chain (hs : s.Linked) (hi : i < s.size) (hj : j ∈ s.chain i) :
    j < s.size := by
  obtain ⟨k, -, hk⟩ := mem_chainFrom_iff.mp hj
  exact hs.lt_of_ancestor hi hk

theorem Ends.exists_ancestor_eq_none (h : s.Ends i) : ∃ k, s.ancestor k (some i) = none := by
  induction h with
  | root houter => exact ⟨1, by rw [ancestor_succ, houter, ancestor_none]⟩
  | child houter _ ih =>
    obtain ⟨k, hk⟩ := ih
    exact ⟨k + 1, by rw [ancestor_succ, houter, hk]⟩

theorem ancestor_eq_none_of_le {k l : ℕ} {o : Option FrameId} (h : s.ancestor k o = none)
    (hkl : k ≤ l) : s.ancestor l o = none := by
  obtain ⟨n, rfl⟩ := Nat.exists_eq_add_of_le' hkl
  rw [ancestor_add, h, ancestor_none]

/-- **No frame on a chain that ends is its own ancestor.** -/
theorem Ends.ancestor_ne_self (h : s.Ends i) (k : ℕ) : s.ancestor (k + 1) (some i) ≠ some i := by
  intro hself
  -- going round and round would never end
  have hround : ∀ n, s.ancestor (n * (k + 1)) (some i) = some i := by
    intro n
    induction n with
    | zero => rw [Nat.zero_mul]; rfl
    | succ n ih => rw [Nat.succ_mul, ancestor_add, hself, ih]
  obtain ⟨l, hl⟩ := h.exists_ancestor_eq_none
  have hnone := ancestor_eq_none_of_le hl (Nat.le_mul_of_pos_right l (Nat.succ_pos k))
  rw [hround l] at hnone
  cases hnone

/-- In a linked store a chain that ends does so within as many steps as there are frames. -/
theorem Ends.ancestor_size_eq_none (h : s.Ends i) (hs : s.Linked) (hi : i < s.size) :
    s.ancestor s.size (some i) = none := by
  by_contra hlong
  obtain ⟨p, q, hpq, hq, heq⟩ := exists_ancestor_eq (fun k j => hs.lt_of_ancestor hi) hlong
  obtain ⟨l, hl⟩ := h.exists_ancestor_eq_none
  obtain ⟨k, hk, hkl⟩ := exists_ancestor_lt hpq heq l
  exact hlong (ancestor_eq_none_of_le (hkl.symm.trans hl) (hk.le.trans hq))

/-! ### Changes that keep a store grounded -/

/-- **New frames with older parents.** If frames keep their parents, and every other frame has only
parents before it, then the store stays grounded. -/
theorem Grounded.of_outer (h : s.Grounded) (hs : s.Linked)
    (hkept : ∀ i < s.size, t.outer i = s.outer i)
    (hnew : ∀ i, s.size ≤ i → ∀ j ∈ t.outer i, j < i) : t.Grounded := by
  have hold : ∀ i, s.Ends i → i < s.size → t.Ends i := by
    intro i hi
    induction hi with
    | root houter =>
      intro hlt
      exact .root ((hkept _ hlt).trans houter)
    | child houter _ ih =>
      intro hlt
      exact .child ((hkept _ hlt).trans houter) (ih (hs _ _ (mem_links_of_outer houter)))
  intro i
  induction i using Nat.strong_induction_on with
  | _ i ih =>
    by_cases hlt : i < s.size
    · exact hold i (h i) hlt
    · cases houter : t.outer i with
      | none => exact .root houter
      | some j => exact .child houter (ih j (hnew i (Nat.not_lt.mp hlt) j houter))

theorem Grounded.define (h : s.Grounded) (hs : s.Linked) (i : FrameId) (name : String) (v : Value) :
    (s.define i name v).Grounded :=
  h.of_outer hs (fun _ _ => outer_define ..) fun j hj k hk => by
    rw [outer_define, outer_of_le hj] at hk
    cases hk

theorem Grounded.assign (h : s.Grounded) (hs : s.Linked) (i : FrameId) (name : String) (v : Value) :
    (s.assign i name v).2.Grounded := by
  rw [Store.assign]
  split
  · exact h.define hs _ name v
  · exact h

theorem Grounded.push (h : s.Grounded) (hs : s.Linked) {f : Frame}
    (hf : ∀ i ∈ f.outer, i < s.size) : (s.push f).Grounded := by
  refine h.of_outer hs (fun i hi => ?_) fun i hi j hj => ?_
  · rw [outer_push, if_neg hi.ne]
  · rw [outer_push] at hj
    split at hj
    next heq => exact (hf j hj).trans_eq heq.symm
    next =>
      rw [outer_of_le hi] at hj
      cases hj

/-! ### Walks -/

theorem resolve?_eq_findSome? (s : Store) (i : FrameId) (name : String) :
    s.resolve? i name =
      (s.chain i).findSome? fun j => if (s.bindings j).contains name then some j else none :=
  List.find?_eq_findSome?_guard

theorem contains_eq_isSome_resolve? (s : Store) (i : FrameId) (name : String) :
    s.contains i name = (s.resolve? i name).isSome :=
  List.isSome_find?.symm

/-- A walk that is not cut off: from a frame it takes a number of steps outwards, for as long as
nothing is found, and stops with what is found, or without anything where there is no parent. -/
inductive Walk {α : Type} (s : Store) (f : FrameId → Option α) : FrameId → ℕ → Option α → Prop where
  | found {i : FrameId} {a : α} (hf : f i = some a) : Walk s f i 0 (some a)
  | ended {i : FrameId} (hf : f i = none) (houter : s.outer i = none) : Walk s f i 0 none
  | outward {i j : FrameId} {k : ℕ} {r : Option α} (hf : f i = none) (houter : s.outer i = some j)
    (hj : Walk s f j k r) : Walk s f i (k + 1) r

variable {α : Type} {f : FrameId → Option α}

theorem Ends.exists_walk (h : s.Ends i) (f : FrameId → Option α) : ∃ k r, s.Walk f i k r := by
  induction h with
  | @root i houter =>
    cases hf : f i with
    | none => exact ⟨0, none, .ended hf houter⟩
    | some a => exact ⟨0, some a, .found hf⟩
  | @child i j houter _ ih =>
    cases hf : f i with
    | none =>
      obtain ⟨k, r, hwalk⟩ := ih
      exact ⟨k + 1, r, .outward hf houter hwalk⟩
    | some a => exact ⟨0, some a, .found hf⟩

theorem Walk.findSome?_chainFrom {k : ℕ} {r : Option α} (h : s.Walk f i k r) {n : ℕ} (hn : k < n) :
    (s.chainFrom n (some i)).findSome? f = r := by
  induction h generalizing n with
  | found hf =>
    obtain ⟨n, rfl⟩ := Nat.exists_eq_succ_of_ne_zero (Nat.ne_zero_of_lt hn)
    rw [chainFrom, List.findSome?_cons, hf]
  | ended hf houter =>
    obtain ⟨n, rfl⟩ := Nat.exists_eq_succ_of_ne_zero (Nat.ne_zero_of_lt hn)
    rw [chainFrom, List.findSome?_cons, hf, houter, chainFrom_none]
    rfl
  | outward hf houter _ ih =>
    obtain ⟨n, rfl⟩ := Nat.exists_eq_succ_of_ne_zero (Nat.ne_zero_of_lt hn)
    rw [chainFrom, List.findSome?_cons, hf, houter]
    exact ih (Nat.lt_of_succ_lt_succ hn)

/-- A walk passes only through frames of the chain. -/
theorem Walk.ancestor_ne_none {k : ℕ} {r : Option α} (h : s.Walk f i k r) :
    s.ancestor k (some i) ≠ none := by
  induction h with
  | found => exact Option.some_ne_none _
  | ended => exact Option.some_ne_none _
  | outward _ houter _ ih => rwa [ancestor_succ, houter]

/-- **Walks come to their end,** after fewer steps than there are frames, and with what is found
along the chain. -/
theorem Grounded.exists_walk (h : s.Grounded) (hs : s.Linked) (hi : i < s.size)
    (f : FrameId → Option α) : ∃ k < s.size, s.Walk f i k ((s.chain i).findSome? f) := by
  obtain ⟨k, r, hwalk⟩ := (h i).exists_walk f
  have hk : k < s.size := by
    refine Nat.lt_of_not_le fun hle => hwalk.ancestor_ne_none ?_
    exact ancestor_eq_none_of_le ((h i).ancestor_size_eq_none hs hi) hle
  rw [chain, hwalk.findSome?_chainFrom hk]
  exact ⟨k, hk, hwalk⟩

/-- A walk on which nothing is ever found counts the members of the chain. -/
theorem Walk.length_chainFrom {k : ℕ} {r : Option α}
    (h : s.Walk (fun _ => none : FrameId → Option α) i k r) {n : ℕ} (hn : k < n) :
    (s.chainFrom n (some i)).length = k + 1 := by
  induction h generalizing n with
  | found hf => cases hf
  | ended _ houter =>
    obtain ⟨n, rfl⟩ := Nat.exists_eq_succ_of_ne_zero (Nat.ne_zero_of_lt hn)
    rw [chainFrom, houter, chainFrom_none, List.length_singleton]
  | outward _ houter _ ih =>
    obtain ⟨n, rfl⟩ := Nat.exists_eq_succ_of_ne_zero (Nat.ne_zero_of_lt hn)
    rw [chainFrom, houter, List.length_cons, ih (Nat.lt_of_succ_lt_succ hn)]

end Store

end FrameLisp
