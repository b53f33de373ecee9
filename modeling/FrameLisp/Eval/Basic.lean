import FrameLisp.Eval.Builtin
import FrameLisp.Eval.Derived

/-!
# Evaluation

An expression is evaluated in a frame. A symbol stands for what it is bound to, a list that is not
empty is an application, and everything else stands for itself. In an application the head is
evaluated first. If it is a primitive, the primitive gets the operands as they are written: a
special form decides what to do with them, a builtin has them evaluated from left to right. Any
other head is applied to the values of the operands.

The definitions come in two layers. Everything that one application does is written over an
arbitrary evaluator `recur` for the expressions inside it; `eval` then ties the knot, with a number
that bounds how deep evaluations may be nested. A property that one layer keeps is thus shown once,
for any `recur` that has it.

## Main definitions

* `Eval.applyValue` — apply a function to values
* `Eval.special` — the special forms
* `Eval.step` — one expression, given an evaluator for its parts
* `eval`, `apply` — evaluation and application up to a depth
-/

namespace FrameLisp

namespace Eval

variable {σ : Type} (host : Host σ) (recur : Value → FrameId → EvalM σ Value)

/-- Evaluate expressions from left to right. -/
def evalAll (env : FrameId) : List Value → EvalM σ (List Value)
  | [] => pure []
  | e :: es => do
    let v ← recur e env
    let vs ← evalAll env es
    pure (v :: vs)

/-- Evaluate expressions from left to right and keep the last value. Nothing gives a new empty
list. -/
def evalSequence (env : FrameId) : List Value → EvalM σ Value
  | [] => .newList []
  | [e] => recur e env
  | e :: es => do
    let _ ← recur e env
    evalSequence env es

/-- Apply a function to values. The body of a closure is evaluated in a new frame inside the one
the closure was made in. -/
def applyValue : Value → List Value → EvalM σ Value
  | .closure _ frame params body, args =>
    if params.length ≠ args.length then
      .fail (.arityMismatch params.length args.length (.lambda params body.toDatum))
    else do
      let scope ← .newScope frame params args
      recur body scope
  | .external ref, args => host.call ref args
  | .atom (.builtin b), args => b.call args
  | v, _ => .fail (.notCallable v.toDatum)

/-- The names of a list of parameters. -/
def paramNames : List Value → Except Error (List String)
  | [] => .ok []
  | .symbol _ name :: vs => do
    let names ← paramNames vs
    .ok (name :: names)
  | v :: _ => .error (.invalidArguments SpecialForm.lambda.name (.parameter v.toDatum))

/-- A definition, or a definition unless the name is visible already. The definition of a function
is evaluated as the definition of a name, and that form is its value. -/
def define (once : Bool) (op : String) (target : Value) (body : List Value) (env : FrameId) :
    EvalM σ Value :=
  match target with
  | .symbol _ name => do
    let expr ← .draw (Derived.sequence body)
    let v ← recur expr env
    if once then
      let bound ← .onStore fun s => s.defineOnce env name v
      pure (.bool bound)
    else
      .onStore fun s => ((), s.define env name v)
      pure (.bool true)
  | .list _ (.symbol i name :: params) => do
    let expr ← .draw (Derived.sequence body)
    let form ← .draw (Derived.functionDefinition (.symbol i name) params expr)
    let _ ← recur form env
    pure form
  | .list _ (.atom p :: _) => .fail (.redefined p)
  | .list _ (v :: _) => .fail (.invalidArguments op (.functionName v.toDatum))
  | .list _ [] => .fail (.invalidArguments op .unnamedFunction)
  | v => .fail (.invalidArguments op (.definitionTarget v.toDatum))

/-- Evaluate a special form, given the whole form and its operands as they are written. -/
def special (f : SpecialForm) (form : Value) (operands : List Value) (env : FrameId) :
    EvalM σ Value :=
  match f, operands with
  | .quote, [x] => pure x
  | .ifForm, [test, yes, no] => do
    let v ← recur test env
    if v.isTruthy then recur yes env else recur no env
  | .set, [target, expr] =>
    match target with
    | .symbol _ name => do
      let v ← recur expr env
      let found ← .onStore fun s => s.assign env name v
      if found then pure form else .fail (.unknownSymbol name)
    | _ => .fail (.invalidArguments f.name .assignmentTarget)
  | .define, target :: b :: bs => define recur false f.name target (b :: bs) env
  | .defineOnce, target :: b :: bs => define recur true f.name target (b :: bs) env
  | .lambda, [params, body] =>
    match params with
    | .list _ items => do
      let names ← .ofExcept (paramNames items)
      .newClosure env names body
    | _ => .fail (.invalidArguments f.name .parameterList)
  | .begin, es => evalSequence recur env es
  | .letForm, [bindings, body] =>
    match bindings with
    | .list _ items =>
      match Derived.bindingPairs? items with
      | some pairs => do
        let call ← .draw (Derived.localCall pairs body)
        recur call env
      | none => .fail (.invalidArguments f.name .bindingPair)
    | _ => .fail (.invalidArguments f.name .bindingList)
  | .apply, [function, arguments] => do
    let list ← recur arguments env
    let args ← .ofExcept (list.asList f.name)
    let g ← recur function env
    let call ← .newList (g :: args)
    recur call env
  | .id, [x] => recur x env
  | .isDefined, [x] =>
    match x with
    | .symbol _ name => do
      let found ← .readStore fun s => s.contains env name
      pure (.bool found)
    | v => .fail (.invalidArguments f.name (.queryTarget v.toDatum))
  | .define, _ | .defineOnce, _ => .fail (.invalidArguments f.name .fewerThanTwo)
  | .quote, _ | .id, _ | .isDefined, _ => .fail (.invalidArguments f.name (.count 1))
  | .set, _ | .lambda, _ | .letForm, _ | .apply, _ => .fail (.invalidArguments f.name (.count 2))
  | .ifForm, _ => .fail (.invalidArguments f.name (.count 3))

/-- Evaluate an application whose head has the value `function`. -/
def application (function form : Value) (operands : List Value) (env : FrameId) :
    EvalM σ Value :=
  match function with
  | .atom (.form f) => special recur f form operands env
  | function => do
    let args ← evalAll recur env operands
    applyValue host recur function args

/-- Evaluate one expression, given an evaluator for its parts. -/
def step (expr : Value) (env : FrameId) : EvalM σ Value :=
  match expr with
  | .symbol _ name => do
    match ← .readStore fun s => s.lookup env name with
    | some v => pure v
    | none => .fail (.unknownSymbol name)
  | .list _ (head :: operands) => do
    let function ← recur head env
    application host recur function expr operands env
  | v => pure v

end Eval

/-- Evaluate an expression in a frame, with evaluations nested at most `depth` deep. -/
def eval {σ : Type} (host : Host σ) : Nat → Value → FrameId → EvalM σ Value
  | 0, _, _ => throw .exhausted
  | depth + 1, expr, env => Eval.step host (eval host depth) expr env

/-- Apply a function to values, with evaluations nested at most `depth` deep. -/
def apply {σ : Type} (host : Host σ) (depth : Nat) (function : Value) (args : List Value) :
    EvalM σ Value :=
  Eval.applyValue host (eval host depth) function args

end FrameLisp
