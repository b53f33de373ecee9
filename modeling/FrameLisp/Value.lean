import FrameLisp.Datum

/-!
# Values

A value is a datum at run time. Symbols, lists and closures have an *identity*, so that two lists
with the same elements can still be told apart; identities are natural numbers handed out by a
supply. A closure refers to the frame it was made in by number, and an external function to an
entry of the host's table.

Forgetting the identities gives a datum again: a closure becomes the `lambda` form that makes it.
The text of a value is the text of that datum, so there is one printer.

## Main definitions

* `Value` — data with identities, closures and external functions
* `Value.toDatum`, `Value.text` — forget identities; write
* `Value.instantiate` — a datum with fresh identities
* `Value.identical`, `Value.equals` — the same object; the same contents
* `Value.frames` — the frames a value refers to
-/

namespace FrameLisp

/-- What tells two objects with the same contents apart. -/
abbrev Identity := Nat

/-- The number of a frame in the store. -/
abbrev FrameId := Nat

/-- The number of a function in the host's table. It is the function's identity too. -/
abbrev HostRef := Nat

/-- What an expression evaluates to; expressions are values themselves. -/
inductive Value where
  | atom (p : Primitive)
  | symbol (id : Identity) (name : String)
  | number (x : Float)
  | bool (b : Bool)
  | list (id : Identity) (items : List Value)
  | closure (id : Identity) (frame : FrameId) (params : List String) (body : Value)
  | external (ref : HostRef)
deriving Inhabited

namespace Value

/-! ### Forgetting identities -/

mutual

/-- The value without its identities. An external function has no form, only a mark. -/
def toDatum : Value → Datum
  | .atom p => .atom p
  | .symbol _ name => .symbol name
  | .number x => .number x
  | .bool b => .bool b
  | .list _ items => .list (toData items)
  | .closure _ _ params body => .lambda params (toDatum body)
  | .external _ => .symbol "<ExternalFunc>"

/-- Several values without their identities. -/
def toData : List Value → List Datum
  | [] => []
  | v :: vs => toDatum v :: toData vs

end

@[simp] theorem toData_eq_map (vs : List Value) : toData vs = vs.map toDatum := by
  induction vs with
  | nil => rfl
  | cons v vs ih => simp [toData, ih]

/-- The text of a value. -/
def text (v : Value) : String := v.toDatum.text

/-! ### Fresh identities -/

mutual

/-- Give every symbol and list of a datum an identity of its own, taken from the supply that
starts at `n`. Returns the value and where the supply then stands. -/
def instantiate : Datum → Nat → Value × Nat
  | .atom p, n => (.atom p, n)
  | .symbol name, n => (.symbol n name, n + 1)
  | .number x, n => (.number x, n)
  | .bool b, n => (.bool b, n)
  | .list items, n =>
    let (vs, m) := instantiateAll items (n + 1)
    (.list n vs, m)

/-- Give the symbols and lists of several data identities of their own, from left to right. -/
def instantiateAll : List Datum → Nat → List Value × Nat
  | [], n => ([], n)
  | d :: ds, n =>
    let (v, m) := instantiate d n
    let (vs, k) := instantiateAll ds m
    (v :: vs, k)

end

mutual

/-- Forgetting the identities of an instance gives the datum back. -/
theorem toDatum_instantiate : ∀ (d : Datum) (n : Nat), (instantiate d n).1.toDatum = d
  | .atom _, _ => rfl
  | .symbol _, _ => rfl
  | .number _, _ => rfl
  | .bool _, _ => rfl
  | .list items, n => by
    rw [instantiate, toDatum]
    exact congrArg Datum.list (toData_instantiateAll items (n + 1))

/-- Forgetting the identities of several instances gives the data back. -/
theorem toData_instantiateAll : ∀ (ds : List Datum) (n : Nat),
    toData (instantiateAll ds n).1 = ds
  | [], _ => rfl
  | d :: ds, n => by
    rw [instantiateAll, toData]
    exact List.cons_eq_cons.mpr
      ⟨toDatum_instantiate d n, toData_instantiateAll ds (instantiate d n).2⟩

end

/-! ### Kinds and contents -/

/-- The kinds of values. -/
inductive Kind where
  | atom
  | symbol
  | number
  | bool
  | list
  | closure
  | external
deriving DecidableEq, Repr

/-- The name of a kind of value. -/
def Kind.name : Kind → String
  | .atom => "atom"
  | .symbol => "symbol"
  | .number => "number"
  | .bool => "bool"
  | .list => "list"
  | .closure => "closure"
  | .external => "external-function"

/-- The kind of a value. -/
def kind : Value → Kind
  | .atom _ => .atom
  | .symbol .. => .symbol
  | .number _ => .number
  | .bool _ => .bool
  | .list .. => .list
  | .closure .. => .closure
  | .external _ => .external

/-- Everything but `#f` counts as true. -/
def isTruthy : Value → Bool
  | .bool false => false
  | _ => true

/-- The empty list, whatever its identity. -/
def isNil : Value → Bool
  | .list _ [] => true
  | _ => false

/-- The name of a symbol. -/
def symbolName? : Value → Option String
  | .symbol _ name => some name
  | _ => none

/-! ### Comparison -/

/-- The same object. Primitives, numbers and truth values have no identity and compare by
contents. -/
def identical : Value → Value → Bool
  | .atom p, .atom q => p == q
  | .symbol i _, .symbol j _ => i == j
  | .number x, .number y => x == y
  | .bool a, .bool b => a == b
  | .list i _, .list j _ => i == j
  | .closure i .., .closure j .. => i == j
  | .external r, .external s => r == s
  | _, _ => false

mutual

/-- The same contents. Functions have none to compare and count by identity. -/
def equals : Value → Value → Bool
  | .atom p, .atom q => p == q
  | .symbol _ a, .symbol _ b => a == b
  | .number x, .number y => x == y
  | .bool a, .bool b => a == b
  | .list _ xs, .list _ ys => allEqual xs ys
  | .closure i .., .closure j .. => i == j
  | .external r, .external s => r == s
  | _, _ => false

/-- The same contents, element by element. -/
def allEqual : List Value → List Value → Bool
  | [], [] => true
  | x :: xs, y :: ys => equals x y && allEqual xs ys
  | _, _ => false

end

/-! ### Links to frames -/

mutual

/-- The frames a value refers to, in the order in which they are met: the frame of a closure comes
before those of its body. -/
def frames : Value → List FrameId
  | .list _ items => framesOf items
  | .closure _ frame _ body => frame :: frames body
  | _ => []

/-- The frames that several values refer to. -/
def framesOf : List Value → List FrameId
  | [] => []
  | v :: vs => frames v ++ framesOf vs

end

@[simp] theorem framesOf_eq_flatMap (vs : List Value) : framesOf vs = vs.flatMap frames := by
  induction vs with
  | nil => rfl
  | cons v vs ih => simp [framesOf, ih]

/-! ### Structure made visible -/

mutual

/-- A text that shows the kind of every part of a value. -/
def inspect : Value → String
  | .atom p => "Atom(" ++ p.name ++ ")"
  | .symbol _ name => "Symbol(" ++ name ++ ")"
  | .number x => "Number(" ++ Number.text x ++ ")"
  | .bool b => "Bool(" ++ (if b then "true" else "false") ++ ")"
  | .list _ items => "[" ++ ", ".intercalate (inspectAll items) ++ "]"
  | .closure _ _ params body => "Closure" ++ (Datum.lambda params body.toDatum).text
  | .external _ => "External"

/-- The texts that show the kinds of every part of several values. -/
def inspectAll : List Value → List String
  | [] => []
  | v :: vs => inspect v :: inspectAll vs

end

end Value

end FrameLisp
