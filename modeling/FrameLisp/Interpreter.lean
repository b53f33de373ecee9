import FrameLisp.Eval.Basic
import FrameLisp.Snapshot.Graph

/-!
# The interpreter

What a user of the language works with: texts are read and evaluated in a root frame, the graph
below that frame is saved and restored, and host functions are bound in it. Any number of
evaluators may share a machine, and with it frames and values.

## Main definitions

* `Evaluator` — a root frame with its settings
* `execute` — read a text and evaluate the form in it
* `readEvalPrint` — the same, with everything that can happen described as a text
* `Evaluator.save`, `Evaluator.load` — the graph below the root as a text
-/

namespace FrameLisp

/-- A root frame to evaluate in. -/
structure Evaluator where
  /-- The frame that texts are evaluated in. -/
  root : FrameId
  /-- Whether applications are to be reported to the host's log. -/
  traceApplications : Bool
deriving DecidableEq, Repr

/-- How deep evaluations may be nested unless a limit is given: far more than any sensible
program needs. -/
def defaultDepth : Nat := 1000000

section

variable {σ : Type} (host : Host σ) (depth : Nat) (root : FrameId)

/-- Read a text and evaluate the form in it. -/
def execute (text : String) : EvalM σ Value :=
  match (Reading.ofText text).toExcept with
  | .error errors => .fail (.unreadable errors)
  | .ok d => do
    let form ← .newValue d
    eval host depth form root

/-- Read a text, evaluate the form in it, and describe what happened. -/
def readEvalPrint (text : String) (m : Machine σ) : String × Machine σ :=
  match (Reading.ofText text).toExcept with
  | .error errors => (readErrorsMessage errors, m)
  | .ok d =>
    match execute host depth root text m with
    | .ok v m => ("parsed: " ++ d.text ++ "\nresult: " ++ v.text, m)
    | .error halt m => ("error: " ++ halt.message, m)

end

namespace Evaluator

variable {σ : Type}

/-- An evaluator with a new, empty root. -/
def new (traceApplications : Bool) : EvalM σ Evaluator := do
  let root ← .newFrame ⟨∅, none⟩
  pure ⟨root, traceApplications⟩

/-- The text of the graph below the root. -/
def save (e : Evaluator) : EvalM σ String := do
  .ofExcept (← .readStore fun s => s.save e.root)

/-- The same evaluator with a new root, restored from a text. -/
def load (e : Evaluator) (text : String) : EvalM σ Evaluator := do
  let root ← .load text
  pure { e with root }

/-- Bind a host function in the root. -/
def bind (e : Evaluator) (name : String) (ref : HostRef) : EvalM σ Unit :=
  .onStore fun s => ((), s.define e.root name (.external ref))

end Evaluator

end FrameLisp
