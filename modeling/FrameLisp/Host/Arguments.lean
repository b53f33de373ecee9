import FrameLisp.Eval.Machine

/-!
# Arguments of host functions

A host function gets a list of values and has to make sure that they are what it needs. The checks
here fail with an error that begins with the function's name.

## Main definitions

* `Arguments` — a host function's name with the values it was given
* `Arguments.expectCount`, `Arguments.expectAtMost` — how many there are
* `Arguments.number`, `Arguments.boolean`, `Arguments.list`, `Arguments.vector` — what they are
-/

namespace FrameLisp

/-- The values a host function was given, with the name it reports faults under. -/
structure Arguments where
  name : String
  values : List Value

namespace Arguments

variable (a : Arguments)

/-- The error for a fault of the arguments. -/
def fault {α : Type} (f : ArgumentFault) : Except Error α :=
  .error (.invalidArguments (a.name ++ ":") f)

/-- How many arguments there are. -/
def size : Nat := a.values.length

/-- Insist on exactly `n` arguments. -/
def expectCount (n : Nat) : Except Error Unit :=
  if a.size = n then .ok () else a.fault (.hostCount n a.size)

/-- Insist on at most `n` arguments. -/
def expectAtMost (n : Nat) : Except Error Unit :=
  if a.size ≤ n then .ok () else a.fault (.hostAtMost n a.size)

/-- The argument at an index. -/
def get (i : Nat) : Except Error Value :=
  match a.values[i]? with
  | some v => .ok v
  | none => a.fault (.hostAtLeast (i + 1))

/-- The number at an index. -/
def number (i : Nat) : Except Error Float := do
  match ← a.get i with
  | .number x => .ok x
  | _ => a.fault .hostNumber

/-- The truth value at an index. -/
def boolean (i : Nat) : Except Error Bool := do
  match ← a.get i with
  | .bool b => .ok b
  | _ => a.fault .hostBool

/-- The elements of the list at an index. -/
def list (i : Nat) : Except Error (List Value) := do
  match ← a.get i with
  | .list _ items => .ok items
  | _ => a.fault .hostList

/-- The three numbers of the list at an index. -/
def vector (i : Nat) : Except Error (Float × Float × Float) := do
  match ← a.list i with
  | [.number x, .number y, .number z] => .ok (x, y, z)
  | [_, _, _] => a.fault .hostVector
  | _ => a.fault .hostTriple

end Arguments

end FrameLisp
