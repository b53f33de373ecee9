import FrameLisp.Value

/-!
# Derived forms

Two special forms mean what another form means. Local bindings are the call of a function made on
the spot, and the definition of a function is the definition of a name by a `lambda` form. These
functions build the other form; the parts that are lists of their own get their identities from the
supply that starts at `n`, and the second component is where it then stands.

## Main definitions

* `Derived.localCall` — `((lambda (s ...) body) e ...)` for `(let ((s e) ...) body)`
* `Derived.sequence` — the body of a definition with several expressions
* `Derived.functionDefinition` — `(define f (lambda (p ...) body))` for `(define (f p ...) body)`
-/

namespace FrameLisp

namespace Derived

/-- A symbol with an expression, as a list of two. -/
def bindingPair? : Value → Option (Value × Value)
  | .list _ [.symbol i name, e] => some (.symbol i name, e)
  | _ => none

/-- Symbols with expressions, if that is what all the elements are. -/
def bindingPairs? : List Value → Option (List (Value × Value))
  | [] => some []
  | v :: vs =>
    match bindingPair? v, bindingPairs? vs with
    | some p, some ps => some (p :: ps)
    | _, _ => none

/-- The call of a function of the bound symbols with the values of their expressions. -/
def localCall (pairs : List (Value × Value)) (body : Value) (n : Nat) : Value × Nat :=
  let function := .list (n + 1) [.atom (.form .lambda), .list (n + 2) (pairs.map (·.1)), body]
  (.list n (function :: pairs.map (·.2)), n + 3)

/-- One expression stands for itself, several for their sequence. -/
def sequence (exprs : List Value) (n : Nat) : Value × Nat :=
  match exprs with
  | [e] => (e, n)
  | es => (.list n (.atom (.form .begin) :: es), n + 1)

/-- The definition of the symbol `name` by a function of the given parameters and body. -/
def functionDefinition (name : Value) (params : List Value) (body : Value) (n : Nat) :
    Value × Nat :=
  let function := .list (n + 1) [.atom (.form .lambda), .list (n + 2) params, body]
  (.list n [.atom (.form .define), name, function], n + 3)

end Derived

end FrameLisp
