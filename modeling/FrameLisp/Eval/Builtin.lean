import FrameLisp.Eval.Machine
import FrameLisp.Number.Arithmetic

/-!
# Builtins

What the builtins make of the values of their arguments. A builtin neither reads nor changes a
frame: its outcome is a value that exists already, or the elements of a new list, or an error. Only
the identity of a new list comes from the machine.

## Main definitions

* `Value.asNumber`, `Value.asBool`, `Value.asList` — insist on a kind of value
* `Builtin.outcome` — the pure part of every builtin
* `Builtin.call` — the same, with an identity for a new list
-/

namespace FrameLisp

namespace Value

/-- Insist on a number. -/
def asNumber (op : String) : Value → Except Error Float
  | .number x => .ok x
  | v => .error (.wrongType op .number v.toDatum)

/-- Insist on a truth value. -/
def asBool (op : String) : Value → Except Error Bool
  | .bool b => .ok b
  | v => .error (.wrongType op .bool v.toDatum)

/-- Insist on a list. -/
def asList (op : String) : Value → Except Error (List Value)
  | .list _ items => .ok items
  | v => .error (.wrongType op .list v.toDatum)

/-- Insist on numbers, from left to right. -/
def asNumbers (op : String) : List Value → Except Error (List Float)
  | [] => .ok []
  | v :: vs => do
    let x ← v.asNumber op
    let xs ← asNumbers op vs
    .ok (x :: xs)

end Value

namespace Builtin

/-- What a builtin makes of its arguments. -/
inductive Outcome where
  /-- A value that needs no new identity. -/
  | value (v : Value)
  /-- A new list of these elements. -/
  | elements (items : List Value)

variable (op : String)

/-- A function of two or more numbers, given the first and the others. -/
def ofNumbers (f : Float → List Float → Float) (args : List Value) : Except Error Outcome :=
  if args.length < 2 then .error (.invalidArguments op .fewerThanTwo)
  else do
    match ← Value.asNumbers op args with
    | x :: xs => .ok (.value (.number (f x xs)))
    | [] => .error (.invalidArguments op .fewerThanTwo)

/-- A function of one number. -/
def ofNumber (f : Float → Float) : List Value → Except Error Outcome
  | [a] => do .ok (.value (.number (f (← a.asNumber op))))
  | _ => .error (.invalidArguments op (.count 1))

/-- A function of two numbers. -/
def ofTwoNumbers (f : Float → Float → Value) : List Value → Except Error Outcome
  | [a, b] => do
    let x ← a.asNumber op
    let y ← b.asNumber op
    .ok (.value (f x y))
  | _ => .error (.invalidArguments op (.count 2))

/-- A function of two truth values. Both are looked at, whatever the first one is. -/
def ofTwoBools (f : Bool → Bool → Bool) : List Value → Except Error Outcome
  | [a, b] => do
    let x ← a.asBool op
    let y ← b.asBool op
    .ok (.value (.bool (f x y)))
  | _ => .error (.invalidArguments op (.count 2))

/-- A function of one value. -/
def ofOne (f : Value → Except Error Outcome) : List Value → Except Error Outcome
  | [a] => f a
  | _ => .error (.invalidArguments op (.count 1))

/-- A function of two values. -/
def ofTwo (f : Value → Value → Except Error Outcome) : List Value → Except Error Outcome
  | [a, b] => f a b
  | _ => .error (.invalidArguments op (.count 2))

/-- A question about one value. -/
def ofTest (f : Value → Bool) : List Value → Except Error Outcome :=
  ofOne op fun a => .ok (.value (.bool (f a)))

/-- Equality of contents, as far as it is defined: numbers by value, symbols by name. Values of
different kinds differ. -/
def compareContents : Value → Value → Except Error Outcome
  | .number x, .number y => .ok (.value (.bool (x == y)))
  | .symbol _ a, .symbol _ b => .ok (.value (.bool (a == b)))
  | a, b =>
    if a.kind = b.kind then .error (.incomparable op) else .ok (.value (.bool false))

/-- What a builtin makes of its arguments. -/
def outcome (b : Builtin) (args : List Value) : Except Error Outcome :=
  match b with
  | .add => ofNumbers b.name (fun x xs => Number.sum (x :: xs)) args
  | .sub => ofNumbers b.name (fun x xs => xs.foldl (· - ·) x) args
  | .mul => ofNumbers b.name (fun x xs => xs.foldl (· * ·) x) args
  | .div => ofNumbers b.name Number.quotient args
  | .min => ofNumbers b.name (fun x xs => xs.foldl Number.lesser x) args
  | .max => ofNumbers b.name (fun x xs => xs.foldl Number.greater x) args
  | .modulo => ofTwoNumbers b.name (fun x y => .number (Number.remainder x y)) args
  | .pow => ofTwoNumbers b.name (fun x y => .number (Float.pow x y)) args
  | .atan2 => ofTwoNumbers b.name (fun x y => .number (Float.atan2 x y)) args
  | .abs => ofNumber b.name Float.abs args
  | .floor => ofNumber b.name Float.floor args
  | .ceiling => ofNumber b.name Float.ceil args
  | .sqrt => ofNumber b.name Float.sqrt args
  | .ln => ofNumber b.name Float.log args
  | .sin => ofNumber b.name Float.sin args
  | .cos => ofNumber b.name Float.cos args
  | .tan => ofNumber b.name Float.tan args
  | .asin => ofNumber b.name Float.asin args
  | .acos => ofNumber b.name Float.acos args
  | .greater => ofTwoNumbers b.name (fun x y => .bool (y < x)) args
  | .less => ofTwoNumbers b.name (fun x y => .bool (x < y)) args
  | .greaterEq => ofTwoNumbers b.name (fun x y => .bool (y ≤ x)) args
  | .lessEq => ofTwoNumbers b.name (fun x y => .bool (x ≤ y)) args
  | .numberEq => ofTwoNumbers b.name (fun x y => .bool (x == y)) args
  | .and => ofTwoBools b.name (· && ·) args
  | .or => ofTwoBools b.name (· || ·) args
  | .not => ofTest b.name (fun a => !a.isTruthy) args
  | .equal => ofTwo b.name (compareContents b.name) args
  | .identical => ofTwo b.name (fun x y => .ok (.value (.bool (x.identical y)))) args
  | .length =>
    ofOne b.name (fun a => do .ok (.value (.number (Float.ofNat (← a.asList b.name).length)))) args
  | .cons =>
    ofTwo b.name
      (fun a d =>
        match d with
        | .list _ tail => .ok (.elements (a :: tail))
        | d => .ok (.elements [a, d]))
      args
  | .car =>
    ofOne b.name
      (fun a =>
        match a with
        | .list _ (x :: _) => .ok (.value x)
        | .list _ [] => .ok (.elements [])
        | a => .ok (.value a))
      args
  | .cdr =>
    ofOne b.name
      (fun a =>
        match a with
        | .list _ items => .ok (.elements items.tail)
        | _ => .ok (.elements []))
      args
  | .append =>
    ofTwo b.name
      (fun x y => do
        let xs ← x.asList b.name
        let ys ← y.asList b.name
        .ok (.elements (xs ++ ys)))
      args
  | .list => .ok (.elements args)
  | .isList => ofTest b.name (fun a => a.kind = .list) args
  | .isNull => ofTest b.name Value.isNil args
  | .isSymbol => ofTest b.name (fun a => a.kind = .symbol) args

/-- Apply a builtin to the values of its arguments. -/
def call {σ : Type} (b : Builtin) (args : List Value) : EvalM σ Value :=
  match b.outcome args with
  | .ok (.value v) => pure v
  | .ok (.elements items) => .newList items
  | .error e => .fail e

end Builtin

end FrameLisp
