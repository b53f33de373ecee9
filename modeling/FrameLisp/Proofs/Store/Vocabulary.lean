import FrameLisp.Proofs.Store.Discovery
import FrameLisp.Proofs.Store.Similar

/-!
# Vocabularies

A *vocabulary* says what may be mentioned in values: which frames, primitives, names and external
functions. Values may only refer to frames that exist, so which values are allowed also depends on
how many frames there are. A vocabulary governs a store if the frames it speaks of bind allowed
values and have such frames as parents. Nothing outside can then be reached from them, and all their
links stay inside the store.

## Main definitions

* `Vocabulary`, `Vocabulary.Allows` — a vocabulary, and the values it allows
* `Vocabulary.Governs`, `Vocabulary.Binds` — stores in which it is kept to, in the values that are
  bound and in the names they are bound to
* `Vocabulary.correspondence` — everything it speaks of belongs to itself

## Main results

* `Vocabulary.related_self_iff_allows` — values that correspond to themselves
* `Vocabulary.Governs.frame_of_link` — what can be reached is spoken of
* `Vocabulary.Governs.lookup`, `Vocabulary.Governs.define`, `Vocabulary.Governs.extend` — the
  operations of a store keep to a vocabulary
-/

namespace FrameLisp

namespace Bindings

variable {α : Type} {b : Bindings α} {name : String} {a : α}

theorem mem_of_get? (h : b.get? name = some a) : (name, a) ∈ b.entries := by
  rw [get?] at h
  generalize b.entries = es at h
  induction es with
  | nil => simp [find?] at h
  | cons e es ih =>
    rw [find?] at h
    split at h
    next heq =>
      rw [heq, ← Option.some.inj h]
      exact List.mem_cons_self
    · exact List.mem_cons_of_mem e (ih h)

theorem mem_of_mem_insertAll {pairs : List (String × α)} {e : String × α}
    (h : e ∈ (b.insertAll pairs).entries) : e ∈ b.entries ∨ e ∈ pairs := by
  induction pairs generalizing b with
  | nil => exact .inl h
  | cons p pairs ih =>
    rcases ih h with h | h
    · rcases mem_insertEntry h with rfl | h
      · exact .inr List.mem_cons_self
      · exact .inl h
    · exact .inr (List.mem_cons_of_mem p h)

theorem mem_of_mem_ofList {pairs : List (String × α)} {e : String × α}
    (h : e ∈ (ofList pairs).entries) : e ∈ pairs :=
  (mem_of_mem_insertAll h).resolve_left List.not_mem_nil

end Bindings

/-- What may be mentioned in values. -/
structure Vocabulary where
  /-- Frames that may be referred to. -/
  frame : FrameId → Prop
  /-- Primitives that may occur. -/
  atom : Primitive → Prop
  /-- Names that may occur. -/
  name : String → Prop
  /-- External functions that may occur. -/
  external : HostRef → Prop

namespace Vocabulary

variable (d : Vocabulary)

/-- A part that may occur when there are `n` frames. -/
def Admits (n : ℕ) : Value → Prop
  | .atom p => d.atom p
  | .symbol _ name => d.name name
  | .closure _ frame params _ => (d.frame frame ∧ frame < n) ∧ ∀ p ∈ params, d.name p
  | .external r => d.external r
  | .number _ | .bool _ | .list _ _ => True

/-- A value all of whose parts may occur when there are `n` frames. -/
def Allows (n : ℕ) (v : Value) : Prop := ∀ p ∈ v.parts, d.Admits n p

variable {d} in
theorem Allows.mono {n n' : ℕ} {v : Value} (h : d.Allows n v) (hn : n ≤ n') : d.Allows n' v := by
  intro p hp
  have hadmits := h p hp
  cases p with
  | closure id frame params body =>
    exact ⟨⟨hadmits.1.1, hadmits.1.2.trans_le hn⟩, hadmits.2⟩
  | _ => exact hadmits

/-- The frames that may be referred to bind allowed values and have such frames as parents. -/
def Governs (s : Store) : Prop :=
  ∀ i, d.frame i → (∀ e ∈ (s.bindings i).entries, d.Allows s.size e.2) ∧
    ∀ j ∈ s.outer i, d.frame j ∧ j < s.size

/-- The frames that may be referred to bind names that may occur. -/
def Binds (s : Store) : Prop := ∀ i, d.frame i → ∀ e ∈ (s.bindings i).entries, d.name e.1

/-- Everything belongs to itself, as far as it may occur when there are `n` frames. -/
def correspondence (n : ℕ) : Correspondence where
  frame i j := i = j ∧ d.frame i ∧ i < n
  identity := Eq
  atom := d.atom
  name := d.name
  external r s := r = s ∧ d.external r

variable {d} {n : ℕ} {v v' : Value} {vs vs' : List Value} {s : Store} {i j : FrameId}

/-! ### Values that correspond to themselves -/

theorem admits_iff (p : Value) : (d.correspondence n).Admits p ↔ d.Admits n p := by
  cases p <;> simp [Correspondence.Admits, Admits, correspondence]

theorem related_self_iff_allows : Value.Related (d.correspondence n) v v ↔ d.Allows n v := by
  rw [Value.related_self_iff]
  exact forall₂_congr fun p _ => admits_iff p

theorem eq_of_related (h : Value.Related (d.correspondence n) v v') : v = v' := by
  refine h.eq ?_ ?_ ?_
  · exact fun i j hij => hij.1
  · exact fun i j hij => hij
  · exact fun r s hr => hr.1

theorem allows_of_related (h : Value.Related (d.correspondence n) v v') :
    v = v' ∧ d.Allows n v := by
  obtain rfl := eq_of_related h
  exact ⟨rfl, related_self_iff_allows.mp h⟩

theorem allows_of_forall₂ (h : List.Forall₂ (Value.Related (d.correspondence n)) vs vs') :
    vs = vs' ∧ ∀ v ∈ vs, d.Allows n v := by
  have heq : vs = vs' := by
    rw [← List.forall₂_eq_eq_eq]
    exact h.imp fun _ _ => eq_of_related
  subst heq
  exact ⟨rfl, fun v hv => related_self_iff_allows.mp (List.forall₂_same.mp h v hv)⟩

/-! ### Governed stores -/

/-- **What can be reached is spoken of,** and exists. -/
theorem Governs.frame_of_link (h : d.Governs s) (hi : d.frame i) (hj : j ∈ s.links i) :
    d.frame j ∧ j < s.size := by
  rcases List.mem_append.mp hj with hj | hj
  · obtain ⟨e, he, hj⟩ := List.mem_flatMap.mp hj
    obtain ⟨id, params, body, hpart⟩ := Value.mem_frames_iff.mp hj
    exact ((h i hi).1 e he _ hpart).1
  · exact (h i hi).2 j (Option.mem_toList.mp hj)

theorem Governs.frame_of_mem_chainFrom (h : d.Governs s) {k : ℕ} {o : Option FrameId}
    (ho : ∀ l ∈ o, d.frame l) (hj : j ∈ s.chainFrom k o) : d.frame j := by
  induction k generalizing o with
  | zero => simp [Store.chainFrom] at hj
  | succ k ih =>
    cases o with
    | none => simp [Store.chainFrom] at hj
    | some l =>
      have hl : d.frame l := ho l rfl
      rcases List.mem_cons.mp hj with rfl | hj
      · exact hl
      · exact ih (fun p hp => ((h l hl).2 p hp).1) hj

/-- What is found from a frame is bound in its chain. -/
theorem Governs.lookup (h : d.Governs s) (hi : d.frame i) {name : String}
    (hlookup : s.lookup i name = some v) :
    d.Allows s.size v := by
  obtain ⟨j, hj, hget⟩ := List.exists_of_findSome?_eq_some hlookup
  have hframe : d.frame j := h.frame_of_mem_chainFrom (fun l hl => Option.some.inj hl ▸ hi) hj
  exact (h j hframe).1 _ (Bindings.mem_of_get? hget)

theorem Governs.resolve? (h : d.Governs s) (hi : d.frame i) {name : String}
    (hresolve : s.resolve? i name = some j) : d.frame j :=
  h.frame_of_mem_chainFrom (fun _ hl => Option.some.inj hl ▸ hi)
    (List.mem_of_find?_eq_some hresolve)

theorem Governs.define (h : d.Governs s) (name : String) (hv : d.Allows s.size v) :
    d.Governs (s.define i name v) := by
  intro j hj
  rw [Store.size_define, Store.outer_define]
  refine ⟨fun e he => ?_, (h j hj).2⟩
  rw [Store.bindings_define] at he
  split at he
  · rcases Bindings.mem_insertEntry he with rfl | he
    · exact hv
    · exact (h j hj).1 e he
  · exact (h j hj).1 e he

theorem Governs.extend (h : d.Governs s) (hi : d.frame i) (hlt : i < s.size)
    (params : List String) (hvs : ∀ v ∈ vs, d.Allows s.size v) :
    d.Governs (s.extend i params vs) := by
  intro j hj
  rw [Store.extend, Store.size_push, Store.bindings_push, Store.outer_push]
  by_cases hsize : j = s.size
  · rw [if_pos hsize, if_pos hsize]
    refine ⟨fun e he => ?_, fun l hl => Option.some.inj hl ▸ ⟨hi, Nat.lt_succ_of_lt hlt⟩⟩
    exact (hvs _ (List.of_mem_zip (Bindings.mem_of_mem_ofList he)).2).mono (Nat.le_succ _)
  · rw [if_neg hsize, if_neg hsize]
    obtain ⟨hentries, houter⟩ := h j hj
    exact ⟨fun e he => (hentries e he).mono (Nat.le_succ _),
      fun l hl => ⟨(houter l hl).1, Nat.lt_succ_of_lt (houter l hl).2⟩⟩

theorem Binds.define (h : d.Binds s) {name : String} (hname : d.name name) (v : Value) :
    d.Binds (s.define i name v) := by
  intro j hj e he
  rw [Store.bindings_define] at he
  split at he
  · rcases Bindings.mem_insertEntry he with rfl | he
    · exact hname
    · exact h j hj e he
  · exact h j hj e he

theorem Binds.extend (h : d.Binds s) {params : List String} (hparams : ∀ p ∈ params, d.name p)
    (vs : List Value) : d.Binds (s.extend i params vs) := by
  intro j hj e he
  rw [Store.extend, Store.bindings_push] at he
  split at he
  · exact hparams _ (List.of_mem_zip (Bindings.mem_of_mem_ofList he)).1
  · exact h j hj e he

end Vocabulary

end FrameLisp
