import FrameLisp.Bindings
import FrameLisp.Value
import FrameLisp.Text.Quoted

/-!
# Frames

A frame binds names to values and may have a parent, the frame around it. All frames live in a
store and are referred to by number, so closures and child frames share a frame by sharing its
number, and links may form cycles.

A name is looked up along the *chain*: the frame itself, its parent, the parent's parent, and so
on. In a store of `n` frames a chain without repetition has at most `n` members, so the walk stops
after `n` steps; in a chain that runs in a circle nothing new would come later.

## Main definitions

* `Frame`, `Store` — the types
* `Store.chain` — a frame and its ancestors
* `Store.lookup`, `Store.contains`, `Store.assign` — the three walks along a chain
* `Store.define`, `Store.defineOnce` — binding in a frame's own scope
* `Store.extend` — the frame of a call
-/

namespace FrameLisp

/-- A scope: its own bindings, and the scope around it. -/
structure Frame where
  bindings : Bindings Value
  outer : Option FrameId
deriving Inhabited

/-- All frames, by number. -/
structure Store where
  frames : Array Frame
deriving Inhabited

namespace Store

/-- No frames. -/
def empty : Store := ⟨#[]⟩

/-- How many frames there are. The next frame gets this number. -/
def size (s : Store) : Nat := s.frames.size

/-- A frame by number. -/
def frame? (s : Store) (i : FrameId) : Option Frame := s.frames[i]?

/-- Add a frame. Its number is the size of the store before. -/
def push (s : Store) (f : Frame) : Store := ⟨s.frames.push f⟩

/-- Change one frame. -/
def modify (s : Store) (i : FrameId) (f : Frame → Frame) : Store := ⟨s.frames.modify i f⟩

/-- A frame's own bindings; none if there is no such frame. -/
def bindings (s : Store) (i : FrameId) : Bindings Value :=
  match s.frame? i with
  | some f => f.bindings
  | none => ∅

/-- A frame's parent. -/
def outer (s : Store) (i : FrameId) : Option FrameId := (s.frame? i).bind Frame.outer

/-! ### Chains -/

/-- At most `n` members of the chain that begins with the given frame. -/
def chainFrom (s : Store) : Nat → Option FrameId → List FrameId
  | 0, _ => []
  | _, none => []
  | n + 1, some i => i :: chainFrom s n (s.outer i)

/-- A frame and its ancestors, from the inside out. -/
def chain (s : Store) (i : FrameId) : List FrameId := s.chainFrom s.size (some i)

/-- What a name is bound to, seen from a frame: the innermost binding counts. -/
def lookup (s : Store) (i : FrameId) (name : String) : Option Value :=
  (s.chain i).findSome? fun j => (s.bindings j).get? name

/-- Whether a name is bound, seen from a frame. -/
def contains (s : Store) (i : FrameId) (name : String) : Bool :=
  (s.chain i).any fun j => (s.bindings j).contains name

/-- The innermost frame of a chain that binds a name. -/
def resolve? (s : Store) (i : FrameId) (name : String) : Option FrameId :=
  (s.chain i).find? fun j => (s.bindings j).contains name

/-- How many frames there are from a frame to the outermost one. -/
def depth (s : Store) (i : FrameId) : Nat := (s.chain i).length

/-! ### Changes -/

/-- Bind a name in one frame's own scope. -/
def define (s : Store) (i : FrameId) (name : String) (v : Value) : Store :=
  s.modify i fun f => { f with bindings := f.bindings.insert name v }

/-- Bind a name in one frame's own scope, unless it is visible from there already. Also says
whether it was bound. -/
def defineOnce (s : Store) (i : FrameId) (name : String) (v : Value) : Bool × Store :=
  if s.contains i name then (false, s) else (true, s.define i name v)

/-- Rebind a name where it is bound, seen from a frame. Also says whether it is bound. -/
def assign (s : Store) (i : FrameId) (name : String) (v : Value) : Bool × Store :=
  match s.resolve? i name with
  | some j => (true, s.define j name v)
  | none => (false, s)

/-- The frame of a call: a child of `i` that binds parameters to arguments. The last binding of a
repeated parameter wins, and what has no partner is ignored. -/
def extend (s : Store) (i : FrameId) (params : List String) (args : List Value) : Store :=
  s.push ⟨.ofList (params.zip args), some i⟩

/-! ### What changes do to a frame

Every change is described by what `frame?`, `bindings` and `outer` show afterwards. A binding
touches one frame and no parent, so it leaves every chain as it was. -/

@[simp] theorem size_push (s : Store) (f : Frame) : (s.push f).size = s.size + 1 :=
  Array.size_push ..

@[simp] theorem size_modify (s : Store) (i : FrameId) (f : Frame → Frame) :
    (s.modify i f).size = s.size := Array.size_modify ..

@[simp] theorem size_define (s : Store) (i : FrameId) (name : String) (v : Value) :
    (s.define i name v).size = s.size := size_modify ..

theorem frame?_eq_none {s : Store} {i : FrameId} : s.frame? i = none ↔ s.size ≤ i :=
  Array.getElem?_eq_none_iff

theorem frame?_push (s : Store) (f : Frame) (i : FrameId) :
    (s.push f).frame? i = if i = s.size then some f else s.frame? i :=
  Array.getElem?_push

theorem frame?_modify (s : Store) (i : FrameId) (f : Frame → Frame) (j : FrameId) :
    (s.modify i f).frame? j = if i = j then (s.frame? j).map f else s.frame? j :=
  Array.getElem?_modify

/-- A binding is seen in its own frame, if there is such a frame, and nowhere else. -/
theorem bindings_define (s : Store) (i : FrameId) (name : String) (v : Value) (j : FrameId) :
    (s.define i name v).bindings j =
      if i = j ∧ i < s.size then (s.bindings j).insert name v else s.bindings j := by
  rw [bindings, define, frame?_modify, bindings]
  by_cases hij : i = j
  · subst hij
    cases hf : s.frame? i with
    | none => simp [Nat.not_lt.mpr (frame?_eq_none.mp hf)]
    | some f =>
      have hi : i < s.size := by
        refine Nat.lt_of_not_le fun hle => ?_
        simp [frame?_eq_none.mpr hle] at hf
      simp [hi]
  · simp [hij]

/-- A binding changes no parent. -/
@[simp] theorem outer_define (s : Store) (i : FrameId) (name : String) (v : Value) (j : FrameId) :
    (s.define i name v).outer j = s.outer j := by
  rw [outer, define, frame?_modify, outer]
  split
  · cases s.frame? j <;> rfl
  · rfl

theorem chainFrom_define (s : Store) (i : FrameId) (name : String) (v : Value) (n : Nat)
    (j : Option FrameId) : (s.define i name v).chainFrom n j = s.chainFrom n j := by
  induction n generalizing j with
  | zero => rfl
  | succ n ih =>
    cases j with
    | none => rfl
    | some j => rw [chainFrom, chainFrom, outer_define, ih]

/-- A binding changes no chain. -/
@[simp] theorem chain_define (s : Store) (i : FrameId) (name : String) (v : Value) (j : FrameId) :
    (s.define i name v).chain j = s.chain j := by
  rw [chain, chain, size_define, chainFrom_define]

/-! ### Links -/

/-- The frames that a frame refers to, in the order in which they are met: through its bindings in
name order, then its parent. -/
def links (s : Store) (i : FrameId) : List FrameId :=
  (s.bindings i).entries.flatMap (fun e => e.2.frames) ++ (s.outer i).toList

/-- A text that shows the names bound in a frame and whether it has a parent. -/
def inspect (s : Store) (i : FrameId) : String :=
  "Environment \x7b names: [" ++ ", ".intercalate ((s.bindings i).names.map Text.quoted) ++
    "], has_outer: " ++ (if (s.outer i).isSome then "true" else "false") ++ " \x7d"

end Store

end FrameLisp
