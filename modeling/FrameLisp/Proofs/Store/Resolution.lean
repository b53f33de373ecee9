import FrameLisp.Proofs.Store.Ending
import FrameLisp.Proofs.Store.Overlay
import Mathlib.Data.List.TFAE
import Mathlib.Tactic.TFAE

/-!
# The frame that a name resolves to

Four operations walk along a chain in search of a name: to look it up, to ask whether it is there,
to rebind it, and to bind it unless it is there. They stop at the same frame, the first one that
binds the name, or all of them find nothing. What they change is then a single *slot*, that is, a
name in the scope of one frame. Whether a later look-up from some other frame sees the change
depends on where that frame's own walk stops.

The search is described by walks that are not cut off. In a grounded store each of them comes to an
end, and the frame where it stops is the one found along the chain.

## Main definitions

* `Store.First` — where the walk to the first frame with a property stops
* `Store.Resolves` — where the walk to the first frame that binds a name stops
* `Store.ChangedAt` — two stores that differ in one slot

## Main results

* `Store.first_iff` — walks stop where the chain says
* `Store.lookup_define` — what is found after a binding
* `Store.scope_operations_agree` — the operations agree on the frame that a name resolves to
-/

namespace FrameLisp

/-! ### Searching a list -/

/-- The first thing found is what is found at the first place that has something. -/
theorem findSome?_eq_bind_find? {α β : Type} (f : α → Option β) (l : List α) :
    l.findSome? f = (l.find? fun a => (f a).isSome).bind f := by
  induction l with
  | nil => rfl
  | cons a l ih =>
    rw [List.findSome?_cons, List.find?_cons]
    cases h : f a with
    | some b => exact h.symm
    | none => exact ih

/-- A change at one place is found if that place comes before all others that have something. -/
theorem findSome?_change {α β : Type} [DecidableEq α] (f : α → Option β) (a : α) (b : β)
    (l : List α) :
    l.findSome? (fun x => if x = a then some b else f x) =
      if l.find? (fun x => x = a || (f x).isSome) = some a then some b else l.findSome? f := by
  induction l with
  | nil => rfl
  | cons x l ih =>
    rw [List.findSome?_cons, List.find?_cons, List.findSome?_cons]
    by_cases hx : x = a
    · simp [hx]
    · cases hf : f x with
      | some c => simp [hx]
      | none => simpa [hx] using ih

namespace Store

variable {s : Store} {env i j : FrameId} {name : String} {v : Value} {p : FrameId → Bool}
  {r : Option FrameId}

/-! ### Where walks stop -/

/-- The walk that goes outwards from a frame to the first one with a property stops there, or
reaches the end of the chain without having met one. -/
def First (s : Store) (p : FrameId → Bool) (i : FrameId) (r : Option FrameId) : Prop :=
  ∃ k, s.Walk (fun j => if p j then some j else none) i k r

/-- The walk that goes outwards from a frame to the first one that binds a name stops there, or
reaches the end of the chain. -/
def Resolves (s : Store) (name : String) : FrameId → Option FrameId → Prop :=
  s.First fun j => (s.bindings j).contains name

/-- A walk that is not cut off finds what is found along the chain. -/
theorem Walk.findSome?_chain {α : Type} {f : FrameId → Option α} {k : ℕ} {o : Option α}
    (h : s.Walk f i k o) (hs : s.Linked) (hi : i < s.size) : (s.chain i).findSome? f = o := by
  rw [← Store.findSome?_chainFrom f (fun _ _ => hs.lt_of_ancestor hi)
    (Nat.le_add_right s.size (k + 1))]
  exact h.findSome?_chainFrom (by omega)

/-- **Walks stop where the chain says.** -/
theorem first_iff (hs : s.Linked) (hground : s.Grounded) (hi : i < s.size) :
    s.First p i r ↔ (s.chain i).find? p = r := by
  have hguard : (s.chain i).find? p = (s.chain i).findSome? fun j => if p j then some j else none :=
    List.find?_eq_findSome?_guard
  rw [hguard]
  constructor
  · rintro ⟨k, hwalk⟩
    exact hwalk.findSome?_chain hs hi
  · rintro rfl
    obtain ⟨k, -, hwalk⟩ := hground.exists_walk hs hi _
    exact ⟨k, hwalk⟩

theorem resolves_iff (hs : s.Linked) (hground : s.Grounded) (hi : i < s.size) :
    s.Resolves name i r ↔ s.resolve? i name = r :=
  first_iff hs hground hi

/-- A name is bound to what the frame that it resolves to binds it to. -/
theorem lookup_eq_bind_resolve? (s : Store) (i : FrameId) (name : String) :
    s.lookup i name = (s.resolve? i name).bind fun j => (s.bindings j).get? name :=
  findSome?_eq_bind_find? _ _

theorem contains_of_resolve? (h : s.resolve? i name = some j) : (s.bindings j).contains name :=
  List.find?_some (p := fun j => (s.bindings j).contains name) h

/-- A frame that binds something is in the store. -/
theorem lt_size_of_contains (h : (s.bindings i).contains name) : i < s.size := by
  by_contra hi
  rw [bindings_of_le (Nat.not_lt.mp hi)] at h
  cases h

/-! ### Changes of one slot -/

/-- The second store has the frames of the first one, with the same parents and the same bindings,
but for one name in one frame. -/
structure ChangedAt (s t : Store) (i : FrameId) (name : String) (v : Value) : Prop where
  size : t.size = s.size
  outer : ∀ j, t.outer j = s.outer j
  get? : ∀ j other, (t.bindings j).get? other =
    if j = i ∧ other = name then some v else (s.bindings j).get? other

theorem changedAt_define (hi : i < s.size) (name : String) (v : Value) :
    s.ChangedAt (s.define i name v) i name v where
  size := size_define ..
  outer _ := outer_define ..
  get? j other := by
    rw [bindings_define]
    by_cases hj : i = j
    · rw [if_pos ⟨hj, hi⟩, Bindings.get?_insert]
      simp [hj]
    · rw [if_neg fun h => hj h.1, if_neg fun h => hj h.1.symm]

/-- **What is found after a binding.** It is seen from the frames whose chain meets its frame before
any other frame that binds the name. -/
theorem lookup_define (hi : i < s.size) (name : String) (v : Value) (e : FrameId) (other : String) :
    (s.define i name v).lookup e other =
      if other = name ∧
          (s.chain e).find? (fun j => j = i || (s.bindings j).contains name) = some i then some v
      else s.lookup e other := by
  by_cases hother : other = name
  · subst hother
    have hfound : (fun j => ((s.define i other v).bindings j).get? other) =
        fun j => if j = i then some v else (s.bindings j).get? other := by
      funext j
      simp [(changedAt_define hi other v).get?]
    rw [lookup, chain_define, hfound, findSome?_change, lookup]
    simp [Bindings.contains]
  · rw [lookup_define_of_ne hother, if_neg fun h => hother h.1]

/-- After a name is rebound, the new value is found from the frames where the name resolves to the
same frame. -/
theorem lookup_define_of_resolve? (hj : s.resolve? env name = some j) (v : Value) (e : FrameId)
    (other : String) :
    (s.define j name v).lookup e other =
      if other = name ∧ s.resolve? e name = some j then some v else s.lookup e other := by
  have hbound := contains_of_resolve? hj
  -- the frame binds the name already, so it adds nothing to where a walk stops
  have hstop : (fun i => decide (i = j) || (s.bindings i).contains name) =
      fun i => (s.bindings i).contains name := by
    funext i
    by_cases hij : i = j
    · simp [hij, hbound]
    · simp [hij]
  rw [lookup_define (lt_size_of_contains hbound), hstop, resolve?]

/-! ### The operations -/

theorem fst_assign (s : Store) (i : FrameId) (name : String) (v : Value) :
    (s.assign i name v).1 = (s.resolve? i name).isSome := by
  rw [assign]
  cases s.resolve? i name <;> rfl

theorem fst_defineOnce (s : Store) (i : FrameId) (name : String) (v : Value) :
    (s.defineOnce i name v).1 = !(s.resolve? i name).isSome := by
  rw [defineOnce, contains_eq_isSome_resolve?]
  cases s.resolve? i name <;> rfl

theorem snd_assign_of_resolve? (h : s.resolve? i name = some j) (v : Value) :
    (s.assign i name v).2 = s.define j name v := by
  rw [assign, h]

theorem snd_assign_of_not (h : (s.assign i name v).1 = false) : (s.assign i name v).2 = s := by
  rw [fst_assign, Option.isSome_eq_false_iff, Option.isNone_iff_eq_none] at h
  rw [assign, h]

theorem snd_defineOnce (s : Store) (i : FrameId) (name : String) (v : Value) :
    (s.defineOnce i name v).2 =
      if (s.defineOnce i name v).1 then s.define i name v else s := by
  rw [defineOnce]
  split <;> rfl

/-- A name that is visible, in five ways. -/
theorem tfae_visible (hs : s.Linked) (hground : s.Grounded) (hi : i < s.size) (name : String)
    (v : Value) :
    [s.contains i name = true, (s.lookup i name).isSome = true, (s.assign i name v).1 = true,
      (s.defineOnce i name v).1 = false, ∃ j, s.Resolves name i (some j)].TFAE := by
  tfae_have 1 ↔ 2 := by rw [contains_eq_isSome_lookup]
  tfae_have 1 ↔ 3 := by rw [contains_eq_isSome_resolve?, fst_assign]
  tfae_have 1 ↔ 4 := by rw [contains_eq_isSome_resolve?, fst_defineOnce, Bool.not_eq_false']
  tfae_have 1 ↔ 5 := by
    simp only [resolves_iff hs hground hi, contains_eq_isSome_resolve?, Option.isSome_iff_exists]
  tfae_finish

/-- **The operations agree on the frame that a name resolves to.** Let all chains of a store end.

* A name is visible from a frame if and only if something is found under it, assignment succeeds, a
  definition that is made only once is refused, and the walk to the first frame that binds the name
  stops at one. Otherwise nothing is found, and the walk reaches the end of the chain.
* What is found is what that frame binds the name to. Assignment changes this slot and no other. A
  look-up then gives the new value if it is of the same name and from a frame where the name
  resolved to the same frame, and gives what it gave before otherwise.
* Assignment that fails and definitions that are refused change nothing.
* A definition, also one that is made only once and is not refused, changes a slot of the frame
  itself and no other. A look-up then gives the new value if it is of the same name and from a frame
  whose chain meets that frame before any other one that binds the name, and gives what it gave
  before otherwise. -/
theorem scope_operations_agree (hs : s.Linked) (hground : s.Grounded) (henv : env < s.size)
    (name : String) (v : Value) :
    [s.contains env name = true, (s.lookup env name).isSome = true, (s.assign env name v).1 = true,
      (s.defineOnce env name v).1 = false, ∃ j, s.Resolves name env (some j)].TFAE ∧
    (s.lookup env name = none ↔ s.Resolves name env none) ∧
    (∀ j, s.Resolves name env (some j) →
      s.lookup env name = (s.bindings j).get? name ∧
      s.ChangedAt (s.assign env name v).2 j name v ∧
      ∀ e < s.size, ∀ other,
        (other = name ∧ s.Resolves name e (some j) →
          (s.assign env name v).2.lookup e other = some v) ∧
        (¬ (other = name ∧ s.Resolves name e (some j)) →
          (s.assign env name v).2.lookup e other = s.lookup e other)) ∧
    ((s.assign env name v).1 = false → (s.assign env name v).2 = s) ∧
    ((s.defineOnce env name v).1 = false → (s.defineOnce env name v).2 = s) ∧
    ((s.defineOnce env name v).1 = true → (s.defineOnce env name v).2 = s.define env name v) ∧
    s.ChangedAt (s.define env name v) env name v ∧
    ∀ e < s.size, ∀ other,
      let met := s.First (fun j => j = env || (s.bindings j).contains name) e (some env)
      (other = name ∧ met → (s.define env name v).lookup e other = some v) ∧
      (¬ (other = name ∧ met) → (s.define env name v).lookup e other = s.lookup e other) := by
  have hiff : ∀ {r}, s.Resolves name env r ↔ s.resolve? env name = r :=
    resolves_iff hs hground henv
  have hlookup := s.lookup_eq_bind_resolve? env name
  refine ⟨tfae_visible hs hground henv name v, ?_, fun j hj => ?_, snd_assign_of_not, ?_, ?_,
    changedAt_define henv name v, fun e he other => ?_⟩
  · rw [hiff, ← Option.not_isSome_iff_eq_none, ← Option.not_isSome_iff_eq_none,
      ← contains_eq_isSome_lookup, contains_eq_isSome_resolve?]
  · rw [hiff] at hj
    rw [hj] at hlookup
    rw [snd_assign_of_resolve? hj]
    refine ⟨hlookup, changedAt_define (lt_size_of_contains (contains_of_resolve? hj)) name v,
      fun e he other => ?_⟩
    rw [resolves_iff hs hground he, lookup_define_of_resolve? hj]
    exact ⟨fun h => if_pos h, fun h => if_neg h⟩
  · intro h
    rw [snd_defineOnce, if_neg (by simp [h])]
  · intro h
    rw [snd_defineOnce, if_pos h]
  · rw [first_iff hs hground he, lookup_define henv]
    exact ⟨fun h => if_pos h, fun h => if_neg h⟩

/-- A name is bound in the outermost of three frames and again in the innermost one. Seen from the
one between them, it resolves to the outermost frame, and rebinding it is noticed from there but not
from the innermost frame. A definition in the frame between them is not noticed from either. -/
theorem scope_operations_agree_shadowed :
    let s : Store := ⟨#[⟨.ofList [("x", .bool true)], none⟩, ⟨.ofList [], some 0⟩,
      ⟨.ofList [("x", .bool false)], some 1⟩]⟩
    let v : Value := .list 0 []
    s.Linked ∧ s.Grounded ∧ s.Resolves "x" 1 (some 0) ∧ s.Resolves "x" 2 (some 2) ∧
    s.contains 1 "x" = true ∧ (s.assign 1 "x" v).1 = true ∧ (s.defineOnce 1 "x" v).1 = false ∧
    s.ChangedAt (s.assign 1 "x" v).2 0 "x" v ∧
    (s.assign 1 "x" v).2.lookup 0 "x" = some v ∧
    (s.assign 1 "x" v).2.lookup 2 "x" = some (.bool false) ∧
    (s.define 1 "x" v).lookup 1 "x" = some v ∧
    (s.define 1 "x" v).lookup 2 "x" = some (.bool false) ∧
    (s.define 1 "x" v).lookup 0 "x" = some (.bool true) := by
  intro s v
  have hlinked : s.Linked := by decide
  have hground : s.Grounded := by
    have h0 : s.Ends 0 := .root rfl
    have h1 : s.Ends 1 := .child rfl h0
    rintro (_ | _ | _ | i)
    · exact h0
    · exact h1
    · exact .child rfl h1
    · exact .root (outer_of_le (Nat.le_add_left 3 i))
  have hfirst : ∀ {p i r}, i < s.size → (s.chain i).find? p = r → s.First p i r := fun hi h =>
    (first_iff hlinked hground hi).mpr h
  have hone : s.Resolves "x" 1 (some 0) := hfirst (by decide) rfl
  have hzero : s.Resolves "x" 0 (some 0) := hfirst (by decide) rfl
  have htwo : s.Resolves "x" 2 (some 2) := hfirst (by decide) rfl
  have hother : ¬ ("x" = "x" ∧ s.Resolves "x" 2 (some 0)) := by
    rintro ⟨-, h⟩
    cases (resolves_iff hlinked hground (by decide)).mp h
  obtain ⟨htfae, -, hassign, -, -, -, -, hdefine⟩ :=
    scope_operations_agree hlinked hground (by decide : 1 < s.size) "x" v
  obtain ⟨-, hchanged, hfound⟩ := hassign 0 hone
  have hvisible : ∃ j, s.Resolves "x" 1 (some j) := ⟨0, hone⟩
  refine ⟨hlinked, hground, hone, htwo, (htfae.out 0 4).mpr hvisible, (htfae.out 2 4).mpr hvisible,
    (htfae.out 3 4).mpr hvisible, hchanged, (hfound 0 (by decide) "x").1 ⟨rfl, hzero⟩,
    (hfound 2 (by decide) "x").2 hother,
    (hdefine 1 (by decide) "x").1 ⟨rfl, hfirst (by decide) rfl⟩, (hdefine 2 (by decide) "x").2 ?_,
    (hdefine 0 (by decide) "x").2 ?_⟩
  · rintro ⟨-, h⟩
    cases (first_iff hlinked hground (by decide)).mp h
  · rintro ⟨-, h⟩
    cases (first_iff hlinked hground (by decide)).mp h

end Store

end FrameLisp
