import FrameLisp.Host.Registry
import FrameLisp.Proofs.Store.Chain

/-!
# Hidden bindings

Bindings of different names do not interfere: it does not matter which of two is made first, and
what is found under one name does not depend on the other. So a store to which bindings of certain
names are added can be used like the store without them, as long as these names are not used. The
added bindings could as well be added afterwards.

A change of stores with this property is an *overlay*. Binding a name is one, and overlays compose,
so installing the functions of a host is one, too.

## Main definitions

* `Store.IsOverlay` — changes that are not noticed by whoever does not use certain names

## Main results

* `Store.define_comm` — bindings of different names commute
* `Store.isOverlay_define`, `Store.IsOverlay.comp`, `Registry.isOverlay_install` — overlays
-/

namespace FrameLisp

/-! ### Bindings of different names -/

namespace Bindings

variable {α : Type} {name other : String}

theorem insertEntry_comm (hne : name ≠ other) (a b : α) (es : List (String × α)) :
    insertEntry name a (insertEntry other b es) = insertEntry other b (insertEntry name a es) := by
  have htotal : name < other ∨ other < name := by
    by_cases hlt : name < other
    · exact .inl hlt
    · exact .inr (lt_of_not_lt_of_ne hlt hne)
  induction es with
  | nil => grind [insertEntry, String.lt_asymm]
  | cons e es ih => grind [insertEntry, String.lt_asymm, String.lt_trans, lt_of_not_lt_of_ne]

theorem insert_comm (hne : name ≠ other) (b : Bindings α) (v w : α) :
    (b.insert name v).insert other w = (b.insert other w).insert name v :=
  Bindings.ext (insertEntry_comm hne.symm w v b.entries)

end Bindings

namespace Store

variable {s t : Store} {i f : FrameId} {name other : String}

theorem ext_frame? (h : ∀ i, s.frame? i = t.frame? i) : s = t := by
  cases s
  cases t
  exact congrArg Store.mk (Array.ext_getElem? h)

/-- Bindings of different names commute, in one frame or in two. -/
theorem define_comm (hne : name ≠ other) (s : Store) (i f : FrameId) (v w : Value) :
    (s.define i name v).define f other w = (s.define f other w).define i name v := by
  refine ext_frame? fun j => ?_
  simp only [define, frame?_modify]
  by_cases hi : i = j
  · by_cases hf : f = j
    · simp only [if_pos hi, if_pos hf, Option.map_map]
      refine congrArg (Option.map · (s.frame? j)) (funext fun frame => ?_)
      simp only [Function.comp_apply, Bindings.insert_comm hne]
    · simp only [if_pos hi, if_neg hf]
  · simp only [if_neg hi]

/-- A frame that is added later makes no difference to a binding. -/
theorem push_define (hf : f < s.size) (name : String) (v : Value) (frame : Frame) :
    (s.define f name v).push frame = (s.push frame).define f name v := by
  refine ext_frame? fun j => ?_
  rw [frame?_push, size_define, define, frame?_modify, define, frame?_modify, frame?_push]
  by_cases hj : j = s.size
  · rw [if_pos hj, if_pos hj, if_neg (hf.trans_eq hj.symm).ne]
  · rw [if_neg hj, if_neg hj]

theorem get?_bindings_define_of_ne (hne : name ≠ other) (s : Store) (i j : FrameId) (v : Value) :
    ((s.define i other v).bindings j).get? name = (s.bindings j).get? name := by
  rw [bindings_define]
  split
  · rw [Bindings.get?_insert, if_neg hne]
  · rfl

theorem lookup_define_of_ne (hne : name ≠ other) (s : Store) (i j : FrameId) (v : Value) :
    (s.define j other v).lookup i name = s.lookup i name := by
  simp only [lookup, chain_define, get?_bindings_define_of_ne hne]

theorem resolve?_define_of_ne (hne : name ≠ other) (s : Store) (i j : FrameId) (v : Value) :
    (s.define j other v).resolve? i name = s.resolve? i name := by
  simp only [resolve?, Bindings.contains, chain_define, get?_bindings_define_of_ne hne]

/-! ### Overlays -/

/-- A change of stores of at least `n` frames that is not noticed by operations on names that are
not hidden: it could as well be made after them. -/
structure IsOverlay (hidden : String → Prop) (n : ℕ) (change : Store → Store) : Prop where
  size : ∀ s, (change s).size = s.size
  lookup : ∀ s i {name}, ¬ hidden name → (change s).lookup i name = s.lookup i name
  resolve? : ∀ s i {name}, ¬ hidden name → (change s).resolve? i name = s.resolve? i name
  define : ∀ s i {name} v, ¬ hidden name →
    (change s).define i name v = change (s.define i name v)
  push : ∀ s f, n ≤ s.size → (change s).push f = change (s.push f)

variable {hidden : String → Prop} {n : ℕ} {change : Store → Store}

theorem ne_of_not_hidden (hname : hidden name) (hother : ¬ hidden other) : other ≠ name :=
  fun heq => hother (heq ▸ hname)

/-- Binding a hidden name is an overlay of all stores in which the frame exists. -/
theorem isOverlay_define (hname : hidden name) (f : FrameId) (v : Value) :
    IsOverlay hidden (f + 1) (·.define f name v) where
  size _ := size_define ..
  lookup s i _ h := lookup_define_of_ne (ne_of_not_hidden hname h) s i f v
  resolve? s i _ h := resolve?_define_of_ne (ne_of_not_hidden hname h) s i f v
  define s i _ w h := define_comm (ne_of_not_hidden hname h).symm s f i v w
  push _ frame hs := push_define hs name v frame

theorem isOverlay_id (hidden : String → Prop) (n : ℕ) : IsOverlay hidden n id where
  size _ := rfl
  lookup _ _ _ _ := rfl
  resolve? _ _ _ _ := rfl
  define _ _ _ _ _ := rfl
  push _ _ _ := rfl

namespace IsOverlay

/-- **Overlays compose.** -/
theorem comp {change' : Store → Store} (h' : IsOverlay hidden n change')
    (h : IsOverlay hidden n change) : IsOverlay hidden n (change' ∘ change) where
  size s := (h'.size _).trans (h.size s)
  lookup s i _ hname := (h'.lookup _ i hname).trans (h.lookup s i hname)
  resolve? s i _ hname := (h'.resolve? _ i hname).trans (h.resolve? s i hname)
  define s i _ v hname := (h'.define _ i v hname).trans (congrArg change' (h.define s i v hname))
  push s f hs :=
    (h'.push _ f (hs.trans_eq (h.size s).symm)).trans (congrArg change' (h.push s f hs))

/-- Assignment finds the same frame. -/
theorem assign (h : IsOverlay hidden n change) (s : Store) (i : FrameId) (hname : ¬ hidden name)
    (v : Value) :
    (change s).assign i name v = ((s.assign i name v).1, change (s.assign i name v).2) := by
  rw [Store.assign, Store.assign, h.resolve? s i hname]
  cases s.resolve? i name with
  | none => rfl
  | some j => exact congrArg (Prod.mk true) (h.define s j v hname)

end IsOverlay

end Store

/-- **Installing functions of the host is an overlay** that hides their names. -/
theorem Registry.isOverlay_install {hidden : String → Prop} (r : Registry)
    (h : ∀ name ∈ r.names, hidden name) (i : FrameId) :
    Store.IsOverlay hidden (i + 1) (r.install · i) := by
  rw [names, Bindings.names, List.forall_mem_map] at h
  unfold install
  generalize r.functions.entries = es at h
  induction es with
  | nil => exact Store.isOverlay_id ..
  | cons e es ih =>
    obtain ⟨he, hes⟩ := List.forall_mem_cons.mp h
    exact (ih hes).comp (Store.isOverlay_define he i (.external e.2))

end FrameLisp
