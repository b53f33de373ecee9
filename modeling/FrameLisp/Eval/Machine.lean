import FrameLisp.Error
import FrameLisp.Store

/-!
# The state of evaluation

Evaluation works on a *machine*: the store of frames, the supply of identities, and whatever state
the host keeps for its own functions. It may fail with an error, and it may run out of the depth it
was allowed; in both cases the changes made until then stay.

The host is a table of functions. A value refers to one of them by its place in the table, so a
machine does not contain functions and can be compared with another one.

## Main definitions

* `Machine`, `Halt`, `EvalM` — the state, the ways to stop, and computations
* `HostFunction`, `Host` — the functions a host provides
-/

namespace FrameLisp

/-- Everything that evaluation can change. -/
structure Machine (σ : Type) where
  /-- All frames. -/
  store : Store
  /-- The next identity to hand out. -/
  supply : Nat
  /-- What the host keeps for its functions. -/
  desk : σ
deriving Inhabited

/-- Why evaluation stopped without a value. -/
inductive Halt where
  /-- The program is at fault. -/
  | failed (e : Error)
  /-- The evaluation was deeper than allowed. -/
  | exhausted
deriving Inhabited

/-- The wording of a halt. -/
def Halt.message : Halt → String
  | .failed e => e.message
  | .exhausted => "evaluation is nested too deeply"

/-- A computation on a machine. -/
abbrev EvalM (σ : Type) := EStateM Halt (Machine σ)

namespace EvalM

variable {σ α : Type}

/-- Stop with an error. -/
def fail (e : Error) : EvalM σ α := throw (.failed e)

/-- A result that needs nothing of the machine. -/
def ofExcept : Except Error α → EvalM σ α
  | .ok a => pure a
  | .error e => fail e

/-- Take identities from the supply. -/
def draw (f : Nat → α × Nat) : EvalM σ α := fun ⟨store, supply, desk⟩ =>
  let (a, supply) := f supply
  .ok a ⟨store, supply, desk⟩

/-- Change the store. -/
def onStore (f : Store → α × Store) : EvalM σ α := fun ⟨store, supply, desk⟩ =>
  let (a, store) := f store
  .ok a ⟨store, supply, desk⟩

/-- Change what the host keeps. -/
def onDesk (f : σ → α × σ) : EvalM σ α := fun ⟨store, supply, desk⟩ =>
  let (a, desk) := f desk
  .ok a ⟨store, supply, desk⟩

/-- Look at the store. -/
def readStore (f : Store → α) : EvalM σ α := fun m => .ok (f m.store) m

/-- A list of its own identity. -/
def newList (items : List Value) : EvalM σ Value := draw fun n => (.list n items, n + 1)

/-- A closure of its own identity. -/
def newClosure (frame : FrameId) (params : List String) (body : Value) : EvalM σ Value :=
  draw fun n => (.closure n frame params body, n + 1)

/-- A datum with identities of its own. -/
def newValue (d : Datum) : EvalM σ Value := draw (Value.instantiate d)

/-- A new frame. -/
def newFrame (f : Frame) : EvalM σ FrameId := onStore fun s => (s.size, s.push f)

/-- The frame of a call. -/
def newScope (i : FrameId) (params : List String) (args : List Value) : EvalM σ FrameId :=
  onStore fun s => (s.size, s.extend i params args)

end EvalM

/-- A function that a host provides: it gets the values of its arguments. -/
abbrev HostFunction (σ : Type) := List Value → EvalM σ Value

/-- The functions that a host provides. -/
structure Host (σ : Type) where
  functions : Array (HostFunction σ)

namespace Host

variable {σ : Type}

/-- A host without functions. -/
def empty : Host σ := ⟨#[]⟩

/-- Add a function. Also gives its place in the table. -/
def register (h : Host σ) (f : HostFunction σ) : HostRef × Host σ :=
  (h.functions.size, ⟨h.functions.push f⟩)

/-- Call a function by its place in the table. -/
def call (h : Host σ) (ref : HostRef) (args : List Value) : EvalM σ Value :=
  match h.functions[ref]? with
  | some f => f args
  | none => .fail (.notCallable (Value.external ref).toDatum)

end Host

end FrameLisp
