import FrameLisp.Host.Stock
import FrameLisp.Interpreter
import FrameLisp.Proofs.Eval.Congruence
import FrameLisp.Proofs.Reading.Printing
import FrameLisp.Proofs.Snapshot.Positions

/-!
# Errors belong to their stage

Each part of the interpreter fails with errors of its own. Evaluation and application fail in
evaluation, wherever the error arises, if the functions of the host do. A text is executed in two
stages: if it cannot be read, the errors of reading are all there is, and nothing has changed;
otherwise only evaluation can fail. Saving fails because of a name, and loading because of a fault
in the text, even if that fault is that the text cannot be read.

Failing in one stage only passes to sequences, so this is a relation that evaluation builds up.

## Main definitions

* `EvalM.FailsAt` — computations that fail at one stage only
* `Host.FailsInEvaluation` — hosts whose functions fail in evaluation only

## Main results

* `failsAt_eval`, `failsAt_apply` — evaluation and application
* `execute_of_errors`, `failsAt_execute` — the two stages of executing a text
* `failures_match_stages` — errors belong to their stage
-/

namespace FrameLisp

variable {σ : Type}

/-- If the computation fails, the error belongs to the given stage. -/
def EvalM.FailsAt {α : Type} (stage : Stage) (x : EvalM σ α) : Prop :=
  ∀ m e m', x m = .error (.failed e) m' → e.stage = stage

/-- The functions of a host fail in evaluation only. -/
def Host.FailsInEvaluation (host : Host σ) : Prop :=
  ∀ f ∈ host.functions, ∀ args, (f args).FailsAt .evaluation

/-! ### Evaluation -/

theorem EvalM.FailsAt.bind {α β : Type} {stage : Stage} {x : EvalM σ α} {f : α → EvalM σ β}
    (hx : x.FailsAt stage) (hf : ∀ a, (f a).FailsAt stage) : (x >>= f).FailsAt stage := by
  intro m e m' h
  cases hfirst : x m with
  | ok a m₁ =>
    rw [EvalM.bind_of_ok hfirst] at h
    exact hf a m₁ e m' h
  | error halt m₁ =>
    rw [EvalM.bind_of_error hfirst] at h
    cases h
    exact hx m e m' hfirst

theorem Host.FailsInEvaluation.call {host : Host σ} (h : host.FailsInEvaluation) (ref : HostRef)
    (args : List Value) : (host.call ref args).FailsAt .evaluation := by
  rw [Host.call]
  split
  next f hf => exact h f (Array.mem_of_getElem? hf) args
  next =>
    intro m e m' h
    cases h
    rfl

/-- Failing in evaluation only is a relation that evaluation builds up. -/
theorem EvalM.congruence_failsAt {host : Host σ} (hhost : host.FailsInEvaluation) :
    Congruence host fun x _ => x.FailsAt .evaluation where
  total htotal m e m' h := by
    obtain ⟨a, m'', hok⟩ := htotal m
    rw [hok] at h
    cases h
  fail hstage m e m' h := by
    cases h
    exact hstage
  bind := FailsAt.bind
  call := hhost.call

section

variable {host : Host σ}

/-- **Evaluation fails in evaluation only.** -/
theorem failsAt_eval (hhost : host.FailsInEvaluation) (depth : ℕ) (expr : Value) (env : FrameId) :
    (eval host depth expr env).FailsAt .evaluation :=
  (EvalM.congruence_failsAt hhost).eval (fun _ _ _ h => nomatch h) depth expr env

/-- **So does application.** -/
theorem failsAt_apply (hhost : host.FailsInEvaluation) (depth : ℕ) (function : Value)
    (args : List Value) : (apply host depth function args).FailsAt .evaluation :=
  (EvalM.congruence_failsAt hhost).apply (fun _ _ _ h => nomatch h) depth function args

/-! ### Texts -/

theorem Reading.toExcept_of_errors_eq_nil {r : Reading} (h : r.errors = []) :
    r.toExcept = .ok r.value := by
  rw [toExcept, isOk, h]
  rfl

theorem Reading.toExcept_of_errors_ne_nil {r : Reading} (h : r.errors ≠ []) :
    r.toExcept = .error r.errors := by
  rw [toExcept, isOk, if_neg (mt List.isEmpty_iff.mp h)]

/-- A text that cannot be read is not executed. -/
theorem execute_of_errors (host : Host σ) (depth : ℕ) (root : FrameId) {text : String}
    (h : (Reading.ofText text).errors ≠ []) (m : Machine σ) :
    execute host depth root text m =
      .error (.failed (.unreadable (Reading.ofText text).errors)) m := by
  rw [execute, Reading.toExcept_of_errors_ne_nil h]
  rfl

/-- A text that can be read fails in evaluation only. -/
theorem failsAt_execute (hhost : host.FailsInEvaluation) (depth : ℕ) (root : FrameId)
    {text : String} (h : (Reading.ofText text).errors = []) :
    (execute host depth root text).FailsAt .evaluation := by
  rw [execute, Reading.toExcept_of_errors_eq_nil h]
  refine EvalM.FailsAt.bind ?_ fun form => failsAt_eval hhost depth form root
  exact fun _ _ _ h => nomatch h

/-! ### Snapshots -/

theorem Evaluator.save_eq_error {e : Evaluator} {m m' : Machine σ} {halt : Halt}
    (h : e.save m = .error halt m') :
    m' = m ∧ ∃ name, halt = .failed (.unsavableName name) := by
  change (EvalM.ofExcept (m.store.save e.root) : EvalM σ String) m = _ at h
  rw [Store.save] at h
  split at h
  next name _ =>
    cases h
    exact ⟨rfl, name, rfl⟩
  next => cases h

theorem Evaluator.load_of_fault {text : String} {fault : LoadFault}
    (h : Snapshot.ofText text = .error fault) (e : Evaluator) (m : Machine σ) :
    e.load text m = .error (.failed (.invalidSnapshot fault)) m :=
  EvalM.bind_of_error (EvalM.load_of_ofText_error h)

theorem Evaluator.load_eq_error {e : Evaluator} {text : String} {m m' : Machine σ} {halt : Halt}
    (h : e.load text m = .error halt m') :
    m' = m ∧ ∃ fault, halt = .failed (.invalidSnapshot fault) := by
  cases hread : Snapshot.ofText text with
  | error fault =>
    rw [load_of_fault hread] at h
    cases h
    exact ⟨rfl, fault, rfl⟩
  | ok snapshot =>
    rw [load, EvalM.load, hread] at h
    cases h

/-! ### The main result -/

/-- **Errors belong to their stage,** if the functions of the host fail in evaluation only. So do
evaluation in any frame and application. Executing a text fails in reading exactly if the text
cannot be read; then the machine is as before, and the error holds the errors of reading. Otherwise
it fails in evaluation only. Saving fails with a name that cannot be saved, and loading with a fault
of the snapshot; if the text cannot be read, then the fault holds the errors of reading. -/
theorem failures_match_stages (hhost : host.FailsInEvaluation) (depth : ℕ) :
    (∀ expr env, (eval host depth expr env).FailsAt .evaluation) ∧
    (∀ function args, (apply host depth function args).FailsAt .evaluation) ∧
    (∀ root text (m : Machine σ),
      ((∃ e m', execute host depth root text m = .error (.failed e) m' ∧ e.stage = .reading) ↔
        (Reading.ofText text).errors ≠ []) ∧
      ((Reading.ofText text).errors ≠ [] → execute host depth root text m =
        .error (.failed (.unreadable (Reading.ofText text).errors)) m) ∧
      ((Reading.ofText text).errors = [] →
        (execute host depth root text).FailsAt .evaluation)) ∧
    (∀ (e : Evaluator) (m m' : Machine σ) halt, e.save m = .error halt m' →
      ∃ name, halt = .failed (.unsavableName name)) ∧
    ∀ (e : Evaluator) text (m : Machine σ),
      (∀ halt m', e.load text m = .error halt m' →
        ∃ fault, halt = .failed (.invalidSnapshot fault)) ∧
      ((Reading.ofText text).errors ≠ [] → e.load text m =
        .error (.failed (.invalidSnapshot (.unreadable (Reading.ofText text).errors))) m) := by
  refine ⟨failsAt_eval hhost depth, failsAt_apply hhost depth, fun root text m =>
    ⟨⟨?_, fun h => ?_⟩, fun h => execute_of_errors host depth root h m,
      failsAt_execute hhost depth root⟩, fun e m m' halt h => (e.save_eq_error h).2,
    fun e text m => ⟨fun halt m' h => (e.load_eq_error h).2, fun h => ?_⟩⟩
  · rintro ⟨e, m', hexecute, hstage⟩ hread
    have hevaluation := failsAt_execute hhost depth root hread m e m' hexecute
    rw [hstage] at hevaluation
    cases hevaluation
  · exact ⟨_, m, execute_of_errors host depth root h m, rfl⟩
  · refine Evaluator.load_of_fault ?_ e m
    rw [Snapshot.ofText, Reading.toExcept_of_errors_ne_nil h]

end

/-- A function of the host that fails, and a text that cannot be read: calling the function fails in
evaluation, executing the text in reading, and loading it with a fault of the snapshot. -/
theorem failures_match_stages_open :
    let host : Host Unit := ⟨#[Stock.failing "no signal"]⟩
    let m : Machine Unit := ⟨⟨#[⟨.ofList [("probe", .external 0)], none⟩]⟩, 0, ()⟩
    let errors := [ReadError.unmatchedOpen none]
    host.FailsInEvaluation ∧
    (∃ e m', execute host 9 0 "(probe)" m = .error (.failed e) m' ∧ e.message = "no signal" ∧
      e.stage = .evaluation) ∧
    (Reading.ofText "(").errors = errors ∧
    execute host 9 0 "(" m = .error (.failed (.unreadable errors)) m ∧
    Evaluator.load ⟨0, false⟩ "(" m =
      .error (.failed (.invalidSnapshot (.unreadable errors))) m := by
  intro host m errors
  have hhost : host.FailsInEvaluation := by
    intro f hf args m e m' h
    obtain rfl : f = Stock.failing "no signal" := by simpa [host] using hf
    cases h
    rfl
  obtain ⟨-, -, hexecute, -, hload⟩ := failures_match_stages hhost 9
  have hread : (Reading.ofText "(probe)").toExcept = .ok (.list [.symbol "probe"]) := by
    have hreadable : Datum.Readable (.list [.symbol "probe"]) := by decide
    exact hreadable.toExcept_text
  have hprobe : execute host 9 0 "(probe)" m =
      .error (.failed (.raised "no signal")) { m with supply := 2 } := by
    rw [execute, hread]
    rfl
  have hopen : (Reading.ofText "(").errors = errors := by
    have hscan : Token.scan "(" = [⟨.leftParen, "(", ⟨1, 1⟩⟩, ⟨.eof, "", ⟨1, 2⟩⟩] := by
      rw [Token.scan, show "(".toList = ['('] from rfl, Token.scanFrom, if_neg (by decide),
        if_neg (by decide), if_pos rfl, Token.scanFrom]
      rfl
    rw [Reading.ofText, hscan]
    rfl
  have hne : (Reading.ofText "(").errors ≠ [] := by
    rw [hopen]
    exact List.cons_ne_nil _ _
  refine ⟨hhost, ⟨_, _, hprobe, rfl, ?_⟩, hopen, ?_, ?_⟩
  · exact (hexecute 0 "(probe)" m).2.2 (Reading.of_toExcept hread).1 m _ _ hprobe
  · rw [← hopen]
    exact (hexecute 0 "(" m).2.1 hne
  · rw [← hopen]
    exact (hload ⟨0, false⟩ "(" m).2 hne

end FrameLisp
