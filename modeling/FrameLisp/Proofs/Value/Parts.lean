import FrameLisp.Value

/-!
# Parts of values

The parts of a value are the value itself and the parts of its elements or of its body. What a value
contains — functions of the host, symbols of a name, a certain primitive — is a question about its
parts.

## Main definitions

* `Value.parts`, `Datum.parts` — everything inside a value or a datum
* `Value.IsPlain` — free of functions other than primitives
* `Value.IsHostless` — free of external functions
* `Value.identity?` — what tells a value from others of the same contents

## Main results

* `Value.induction` — induction over elements and bodies
* `Value.mem_frames_iff` — the frames of a value are those of the closures in it
-/

namespace FrameLisp

/-! ### Induction -/

/-- Induction over values: a list after its elements, a closure after its body. -/
@[elab_as_elim]
theorem Value.induction {motive : Value → Prop} (atom : ∀ p, motive (.atom p))
    (symbol : ∀ id name, motive (.symbol id name)) (number : ∀ x, motive (.number x))
    (bool : ∀ b, motive (.bool b))
    (list : ∀ id items, (∀ v ∈ items, motive v) → motive (.list id items))
    (closure : ∀ id frame params body, motive body → motive (.closure id frame params body))
    (external : ∀ ref, motive (.external ref)) : ∀ v, motive v
  | .atom p => atom p
  | .symbol id name => symbol id name
  | .number x => number x
  | .bool b => bool b
  | .list id items =>
    list id items fun v _ => Value.induction atom symbol number bool list closure external v
  | .closure id frame params body =>
    closure id frame params body
      (Value.induction atom symbol number bool list closure external body)
  | .external ref => external ref

namespace Value

/-! ### Parts -/

mutual

/-- A value and everything inside it. -/
def parts : Value → List Value
  | .list id items => .list id items :: partsOf items
  | .closure id frame params body => .closure id frame params body :: parts body
  | v => [v]

/-- Everything inside several values. -/
def partsOf : List Value → List Value
  | [] => []
  | v :: vs => parts v ++ partsOf vs

end

@[simp] theorem partsOf_eq_flatMap (vs : List Value) : partsOf vs = vs.flatMap parts := by
  induction vs with
  | nil => rfl
  | cons v vs ih => simp [partsOf, ih]

theorem mem_parts_self (v : Value) : v ∈ v.parts := by
  cases v <;> exact List.mem_cons_self

@[simp] theorem mem_parts_list {id : Identity} {items : List Value} {p : Value} :
    p ∈ (Value.list id items).parts ↔ p = .list id items ∨ ∃ v ∈ items, p ∈ v.parts := by
  simp [parts]

@[simp] theorem mem_parts_closure {id : Identity} {frame : FrameId} {params : List String}
    {body p : Value} :
    p ∈ (Value.closure id frame params body).parts ↔
      p = .closure id frame params body ∨ p ∈ body.parts := by
  simp [parts]

/-- The frames of a value are those of the closures in it. -/
theorem mem_frames_iff {i : FrameId} {v : Value} :
    i ∈ v.frames ↔ ∃ id params body, Value.closure id i params body ∈ v.parts := by
  induction v using Value.induction with
  | list id items ih =>
    simp only [frames, framesOf_eq_flatMap, List.mem_flatMap, mem_parts_list, reduceCtorEq,
      false_or]
    constructor
    · rintro ⟨v, hv, hi⟩
      obtain ⟨id, params, body, hpart⟩ := (ih v hv).mp hi
      exact ⟨id, params, body, v, hv, hpart⟩
    · rintro ⟨id, params, body, v, hv, hpart⟩
      exact ⟨v, hv, (ih v hv).mpr ⟨id, params, body, hpart⟩⟩
  | closure id frame params body ih =>
    simp only [frames, List.mem_cons, ih, mem_parts_closure, Value.closure.injEq]
    constructor
    · rintro (rfl | ⟨id, params, body, hpart⟩)
      · exact ⟨id, params, body, .inl ⟨rfl, rfl, rfl, rfl⟩⟩
      · exact ⟨id, params, body, .inr hpart⟩
    · rintro ⟨id, params, body, ⟨-, rfl, -, -⟩ | hpart⟩
      · exact .inl rfl
      · exact .inr ⟨id, params, body, hpart⟩
  | atom => simp [frames, parts]
  | symbol => simp [frames, parts]
  | number => simp [frames, parts]
  | bool => simp [frames, parts]
  | external => simp [frames, parts]

/-- Free of functions other than primitives. -/
def IsPlain (v : Value) : Prop := ∀ p ∈ v.parts, p.kind ≠ .closure ∧ p.kind ≠ .external

instance (v : Value) : Decidable v.IsPlain :=
  inferInstanceAs (Decidable (∀ p ∈ v.parts, p.kind ≠ .closure ∧ p.kind ≠ .external))

/-- Free of external functions. -/
def IsHostless (v : Value) : Prop := ∀ p ∈ v.parts, p.kind ≠ .external

instance (v : Value) : Decidable v.IsHostless :=
  inferInstanceAs (Decidable (∀ p ∈ v.parts, p.kind ≠ .external))

/-- The identity of a value itself, if it has one. -/
def identity? : Value → Option Identity
  | .symbol id _ | .list id _ | .closure id _ _ _ => some id
  | .atom _ | .number _ | .bool _ | .external _ => none

theorem IsPlain.of_mem {id : Identity} {items : List Value} (h : (Value.list id items).IsPlain)
    {v : Value} (hv : v ∈ items) : v.IsPlain :=
  fun p hp => h p (mem_parts_list.mpr (.inr ⟨v, hv, hp⟩))

end Value

namespace Datum

mutual

/-- A datum and everything inside it. -/
def parts : Datum → List Datum
  | .list items => .list items :: partsOf items
  | d => [d]

/-- Everything inside several data. -/
def partsOf : List Datum → List Datum
  | [] => []
  | d :: ds => parts d ++ partsOf ds

end

@[simp] theorem partsOf_eq_flatMap (ds : List Datum) : partsOf ds = ds.flatMap parts := by
  induction ds with
  | nil => rfl
  | cons d ds ih => simp [partsOf, ih]

@[simp] theorem mem_parts_list {items : List Datum} {p : Datum} :
    p ∈ (Datum.list items).parts ↔ p = .list items ∨ ∃ d ∈ items, p ∈ d.parts := by
  simp [parts]

theorem mem_parts_self (d : Datum) : d ∈ d.parts := by
  cases d <;> exact List.mem_cons_self

end Datum

end FrameLisp
