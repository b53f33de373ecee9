import FrameLisp.Store
import Mathlib.Data.Finset.Card
import Mathlib.Data.Finset.Image
import Mathlib.Data.Finset.Range

/-!
# Chains

The walk along a chain is cut off after as many steps as there are frames. Nothing is lost by that:
among the first members of a longer chain one occurs twice, from there on the chain runs in a
circle, and every later member has occurred before. So the same is found with any larger bound, and
two stores of different sizes can be compared.

## Main definitions

* `Store.ancestor` — the member of a chain after a number of steps

## Main results

* `Store.mem_chain_of_mem_chainFrom` — a longer walk meets no new frame
* `Store.findSome?_chainFrom` — and finds nothing else
-/

namespace FrameLisp

namespace Store

variable {s : Store} {i j : FrameId} {o : Option FrameId}

/-- The member of a chain after `k` steps outwards. -/
def ancestor (s : Store) (k : ℕ) (o : Option FrameId) : Option FrameId :=
  (fun o => o.bind s.outer)^[k] o

theorem ancestor_none (k : ℕ) : s.ancestor k none = none :=
  Function.iterate_fixed rfl k

theorem ancestor_succ (k : ℕ) (i : FrameId) :
    s.ancestor (k + 1) (some i) = s.ancestor k (s.outer i) :=
  Function.iterate_succ_apply _ k _

theorem ancestor_add (k l : ℕ) : s.ancestor (k + l) o = s.ancestor k (s.ancestor l o) :=
  Function.iterate_add_apply _ k l o

theorem chainFrom_none (n : ℕ) : s.chainFrom n none = [] := by
  cases n <;> rfl

/-- A walk goes on from where a shorter one ends. -/
theorem chainFrom_add (n k : ℕ) (o : Option FrameId) :
    s.chainFrom (n + k) o = s.chainFrom n o ++ s.chainFrom k (s.ancestor n o) := by
  induction n generalizing o with
  | zero => rw [Nat.zero_add]; rfl
  | succ n ih =>
    cases o with
    | none => rw [ancestor_none, chainFrom_none, chainFrom_none, chainFrom_none, List.append_nil]
    | some i => rw [Nat.succ_add, chainFrom, ih, chainFrom, ancestor_succ, List.cons_append]

/-- A walk that comes to a frame goes on as the walk that begins there, in any store in which the
frames before have the same parents. -/
theorem chainFrom_eq_append {t : Store} {n : ℕ} {below rest : List FrameId}
    (h : s.chainFrom n o = below ++ i :: rest) (houter : ∀ j ∈ below, t.outer j = s.outer j)
    (k : ℕ) : t.chainFrom (below.length + k) o = below ++ t.chainFrom k (some i) := by
  induction below generalizing n o with
  | nil =>
    cases n with
    | zero => cases h
    | succ n =>
      cases o with
      | none => cases h
      | some j =>
        cases h
        rw [List.length_nil, Nat.zero_add, List.nil_append]
  | cons j below ih =>
    cases n with
    | zero => cases h
    | succ n =>
      cases o with
      | none => cases h
      | some j' =>
        obtain ⟨rfl, htail⟩ := List.cons.inj h
        rw [List.length_cons, Nat.succ_add, chainFrom, houter j' List.mem_cons_self,
          ih htail fun l hl => houter l (List.mem_cons_of_mem _ hl), List.cons_append]

theorem mem_chainFrom_iff {n : ℕ} :
    j ∈ s.chainFrom n o ↔ ∃ k < n, s.ancestor k o = some j := by
  induction n generalizing o with
  | zero => simp [chainFrom]
  | succ n ih =>
    cases o with
    | none => simp [chainFrom_none, ancestor_none]
    | some i =>
      rw [chainFrom, List.mem_cons, ih]
      constructor
      · rintro (rfl | ⟨k, hk, hj⟩)
        · exact ⟨0, Nat.succ_pos n, rfl⟩
        · exact ⟨k + 1, Nat.succ_lt_succ hk, (ancestor_succ k i).trans hj⟩
      · rintro ⟨_ | k, hk, hj⟩
        · exact .inl (Option.some.inj hj).symm
        · exact .inr ⟨k, Nat.lt_of_succ_lt_succ hk, (ancestor_succ k i).symm.trans hj⟩

/-- Once a member occurs again, all later ones have occurred before. -/
theorem exists_ancestor_lt {p q : ℕ} (hpq : p < q) (h : s.ancestor p o = s.ancestor q o) (k : ℕ) :
    ∃ k' < q, s.ancestor k o = s.ancestor k' o := by
  induction k using Nat.strong_induction_on with
  | _ k ih =>
    by_cases hk : k < q
    · exact ⟨k, hk, rfl⟩
    · obtain ⟨l, rfl⟩ := Nat.exists_eq_add_of_le' (Nat.not_lt.mp hk)
      obtain ⟨k', hk', heq⟩ := ih (l + p) (Nat.add_lt_add_left hpq l)
      exact ⟨k', hk', by rw [ancestor_add, ← h, ← ancestor_add, heq]⟩

/-- A chain that is longer than there are frames runs in a circle. -/
theorem exists_ancestor_eq (hrange : ∀ k j, s.ancestor k o = some j → j < s.size)
    (hlong : s.ancestor s.size o ≠ none) :
    ∃ p q, p < q ∧ q ≤ s.size ∧ s.ancestor p o = s.ancestor q o := by
  have hsome : ∀ k ≤ s.size, ∃ j < s.size, s.ancestor k o = some j := by
    intro k hk
    cases hj : s.ancestor k o with
    | none =>
      obtain ⟨l, hl⟩ := Nat.exists_eq_add_of_le' hk
      rw [hl, ancestor_add, hj, ancestor_none] at hlong
      exact absurd rfl hlong
    | some j => exact ⟨j, hrange k j hj, rfl⟩
  -- one more member than there are frames: two of them are the same
  have hmaps : Set.MapsTo (s.ancestor · o) (Finset.range (s.size + 1))
      ((Finset.range s.size).image some) := by
    intro k hk
    obtain ⟨j, hj, heq⟩ := hsome k (Nat.lt_succ_iff.mp (by simpa using hk))
    simpa [heq] using hj
  have hcard : ((Finset.range s.size).image some).card < (Finset.range (s.size + 1)).card := by
    rw [Finset.card_range]
    exact Nat.lt_succ_of_le (Finset.card_image_le.trans_eq (Finset.card_range _))
  obtain ⟨p, hp, q, hq, hne, heq⟩ := Finset.exists_ne_map_eq_of_card_lt_of_maps_to hcard hmaps
  rw [Finset.mem_range, Nat.lt_succ_iff] at hp hq
  rcases Nat.lt_or_gt_of_ne hne with hlt | hlt
  · exact ⟨p, q, hlt, hq, heq⟩
  · exact ⟨q, p, hlt, hp, heq.symm⟩

/-- **A longer walk meets no new frame.** -/
theorem mem_chain_of_mem_chainFrom (hrange : ∀ k j, s.ancestor k (some i) = some j → j < s.size)
    {n : ℕ} (hj : j ∈ s.chainFrom n (some i)) : j ∈ s.chain i := by
  obtain ⟨k, -, hk⟩ := mem_chainFrom_iff.mp hj
  rw [chain, mem_chainFrom_iff]
  by_cases hlong : s.ancestor s.size (some i) = none
  · refine ⟨k, Nat.lt_of_not_le fun hle => ?_, hk⟩
    obtain ⟨l, rfl⟩ := Nat.exists_eq_add_of_le' hle
    rw [ancestor_add, hlong, ancestor_none] at hk
    exact Option.some_ne_none j hk.symm
  · obtain ⟨p, q, hpq, hq, heq⟩ := exists_ancestor_eq hrange hlong
    obtain ⟨k', hk', hkk'⟩ := exists_ancestor_lt hpq heq k
    exact ⟨k', hk'.trans_le hq, hkk'.symm.trans hk⟩

/-- **A longer walk finds nothing else.** -/
theorem findSome?_chainFrom {α : Type} (f : FrameId → Option α)
    (hrange : ∀ k j, s.ancestor k (some i) = some j → j < s.size) {n : ℕ} (hn : s.size ≤ n) :
    (s.chainFrom n (some i)).findSome? f = (s.chain i).findSome? f := by
  obtain ⟨k, rfl⟩ := Nat.exists_eq_add_of_le hn
  have hsub : ∀ j ∈ s.chainFrom k (s.ancestor s.size (some i)), j ∈ s.chain i := fun j hj =>
    mem_chain_of_mem_chainFrom (n := s.size + k) hrange
      (by rw [chainFrom_add]; exact List.mem_append_right _ hj)
  rw [chainFrom_add, List.findSome?_append, ← chain]
  cases hfind : (s.chain i).findSome? f with
  | some a => rfl
  | none =>
    rw [Option.none_or, List.findSome?_eq_none_iff]
    exact fun j hj => List.findSome?_eq_none_iff.mp hfind j (hsub j hj)

/-- A name is visible if something is found under it. -/
theorem contains_eq_isSome_lookup (s : Store) (i : FrameId) (name : String) :
    s.contains i name = (s.lookup i name).isSome := by
  rw [contains, lookup, List.isSome_findSome?]
  rfl

end Store

end FrameLisp
