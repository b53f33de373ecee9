import FrameLisp.Proofs.Eval.ApplyForm
import FrameLisp.Proofs.Eval.Order
import FrameLisp.Proofs.Store.Resolution

/-!
# Definitions of functions

`(define (f p ...) b ...)` is evaluated as `(define f (lambda (p ...) body))`, where the body is the
expression if there is one, and a sequence of the expressions if there are several. So it binds a
name to a closure. A call of the closure evaluates its arguments where it stands, and then the
expressions, one after the other, in a new frame inside the one of the definition.

The closure has been found before the arguments are evaluated. Whatever they do to the name, or to
the frame of the definition, is noticed by the expressions of the body but does not change what is
called.

## Main definitions

* `Value.StandsFor` — an expression in place of a sequence of expressions

## Main results

* `Value.StandsFor.evaluates_iff` — such an expression comes to what the sequence comes to
* `eval_functionDefinition` — a definition at a given depth
* `function_definition_runs_body` — what a definition does, and what calls come to
-/

namespace FrameLisp

variable {σ : Type} {host : Host σ} {env : FrameId} {m : Machine σ}
  {r : EStateM.Result Halt (Machine σ) Value}

/-! ### Bodies -/

/-- An expression in place of several: the only one itself, or a `begin` form of them all. -/
inductive Value.StandsFor : Value → List Value → Prop where
  | single (e : Value) : StandsFor e [e]
  | sequence (id : Identity) (e e' : Value) (es : List Value) :
    StandsFor (.list id (.atom (.form .begin) :: e :: e' :: es)) (e :: e' :: es)

theorem Derived.standsFor_sequence (e : Value) (es : List Value) (n : ℕ) :
    (sequence (e :: es) n).1.StandsFor (e :: es) := by
  cases es with
  | nil => exact .single e
  | cons e' es => exact .sequence n e e' es

/-- **An expression in place of several** comes to what they come to in sequence. -/
theorem Value.StandsFor.evaluates_iff {expr : Value} {body : List Value} (h : expr.StandsFor body) :
    Evaluates host env expr m r ↔ EvaluatesLast host env body m r := by
  cases h with
  | single => exact evaluatesLast_singleton.symm
  | sequence id e e' es =>
    rw [← yields_evalSequence_iff]
    refine (deepening_eval host _ env).yields_congr (deepening_evalSequence host env _)
      (n := 1) (k := 1) fun d hd => ?_
    obtain ⟨d, rfl⟩ := Nat.exists_eq_add_of_le' hd
    rfl

/-! ### Definitions and calls -/

/-- The definition of a name at a given depth. -/
theorem eval_nameDefinition {expr v : Value} {depth : ℕ} {m₁ : Machine σ}
    (h : eval host (depth + 1) expr env m = .ok v m₁) (id j : Identity) (name : String) :
    eval host (depth + 2) (.list id [.atom (.form .define), .symbol j name, expr]) env m =
      .ok (.bool true) { m₁ with store := m₁.store.define env name v } := by
  rw [eval_special, Eval.special]
  change (eval host (depth + 1) expr env >>= _) m = _
  rw [EvalM.bind_of_ok h]
  rfl

/-- The definition of a function at a given depth. -/
theorem eval_functionDefinition {params : List Value} {names : List String}
    (hparams : Eval.paramNames params = .ok names) (id i j : Identity) (f : String) (e : Value)
    (es : List Value) (depth : ℕ) :
    let body := Derived.sequence (e :: es) m.supply
    eval host (depth + 4)
      (.list id (.atom (.form .define) :: .list i (.symbol j f :: params) :: e :: es)) env m =
      .ok (Derived.functionDefinition (.symbol j f) params body.1 body.2).1
        ⟨m.store.define env f (.closure (body.2 + 3) env names body.1), body.2 + 4, m.desk⟩ := by
  intro body
  let drawn : Machine σ := { m with supply := body.2 + 3 }
  have hlambda : eval host (depth + 2)
      (.list (body.2 + 1) [.atom (.form .lambda), .list (body.2 + 2) params, body.1]) env drawn =
      .ok (.closure (body.2 + 3) env names body.1) { drawn with supply := body.2 + 4 } :=
    eval_lambda hparams _ _ body.1 depth
  rw [eval_special, Eval.special]
  -- both forms have been made, and the inner one is evaluated for its effect
  let form : Value := (Derived.functionDefinition (.symbol j f) params body.1 body.2).1
  exact EvalM.bind_of_ok (f := fun _ => pure form) (eval_nameDefinition hlambda body.2 j f)

/-- A symbol stands for what it is bound to. -/
theorem eval_symbol {name : String} {v : Value} (h : m.store.lookup env name = some v)
    (id : Identity) (depth : ℕ) : eval host (depth + 1) (.symbol id name) env m = .ok v m := by
  have hread : EvalM.readStore (fun s => s.lookup env name) m = .ok (some v) m :=
    congrArg (EStateM.Result.ok · m) h
  rw [eval, Eval.step, EvalM.bind_of_ok hread]
  rfl

/-- The call of a function by its name. -/
theorem evaluates_call_iff {f : String} {g : Value} (h : m.store.lookup env f = some g)
    (hg : g.isFunction) (id j : Identity) (args : List Value) :
    Evaluates host env (.list id (.symbol j f :: args)) m r ↔
      Yields (fun depth => Eval.evalAll (eval host depth) env args >>= apply host depth g) m r := by
  refine (deepening_eval host _ env).yields_congr (deepening_call host env args g)
    (n := 1) (k := 1) fun d hd => ?_
  obtain ⟨d, rfl⟩ := Nat.exists_eq_add_of_le' hd
  exact eval_application (eval_symbol h j d) hg id args

/-- **Definitions of functions.** Consider the definition of a function with any parameters and a
body of one expression or more, in a frame of the store.

* It comes to the definition of the name by a `lambda` form, and binds the name to a closure in the
  frame itself. No other slot changes.
* From then on, consider a call of the function by its name, from any frame in which the name stands
  for that closure; so it does in every frame where it resolves to the frame of the definition. If
  there are as many arguments as parameters, the call comes to what one gets by evaluating the
  arguments from left to right where the call stands, and then the expressions of the body, one
  after the other, in a new frame inside the one of the definition that has the parameters as names
  for the values. The last of several parameters of one name wins.
* With any other number of arguments, they are evaluated all the same, and then the call fails. -/
theorem function_definition_runs_body (host : Host σ) {env : FrameId} {m : Machine σ}
    (henv : env < m.store.size) (id i j : Identity) (f : String) (params : List (Identity × String))
    (e : Value) (es : List Value) :
    let symbols : List Value := params.map fun p => .symbol p.1 p.2
    let names : List String := params.map Prod.snd
    ∃ (body : Value) (i₁ i₂ i₃ i₄ : Identity) (supply : ℕ), body.StandsFor (e :: es) ∧
    let function : Value := .list i₂ [.atom (.form .lambda), .list i₃ symbols, body]
    let closure : Value := .closure i₄ env names body
    let after : Machine σ := ⟨m.store.define env f closure, supply, m.desk⟩
    (∀ r, Evaluates host env
        (.list id (.atom (.form .define) :: .list i (.symbol j f :: symbols) :: e :: es)) m r ↔
      r = .ok (.list i₁ [.atom (.form .define), .symbol j f, function]) after) ∧
    m.store.ChangedAt after.store env f closure ∧
    (∀ env', after.store.resolve? env' f = some env → after.store.lookup env' f = some closure) ∧
    ∀ (m' : Machine σ) (env' : FrameId), m'.store.lookup env' f = some closure →
      ∀ (id' j' : Identity) (args : List Value) (r : EStateM.Result Halt (Machine σ) Value),
        (args.length = params.length →
          (Evaluates host env' (.list id' (.symbol j' f :: args)) m' r ↔
            AndThen (EvaluatesAll host env' args)
              (InScope env names fun scope => EvaluatesLast host scope (e :: es)) m' r)) ∧
        (args.length ≠ params.length →
          (Evaluates host env' (.list id' (.symbol j' f :: args)) m' r ↔
            AndThen (EvaluatesAll host env' args)
              (fun _ m₁ r => r = .error (.failed (.arityMismatch params.length args.length
                (.lambda names body.toDatum))) m₁) m' r)) := by
  intro symbols names
  have hnames : Eval.paramNames symbols = .ok names := paramNames_map_symbol _ _ params
  let body := Derived.sequence (e :: es) m.supply
  let closure : Value := .closure (body.2 + 3) env names body.1
  let after : Machine σ := ⟨m.store.define env f closure, body.2 + 4, m.desk⟩
  have hbody : body.1.StandsFor (e :: es) := Derived.standsFor_sequence e es m.supply
  have hchanged : m.store.ChangedAt after.store env f closure :=
    Store.changedAt_define henv f closure
  have hlength : names.length = params.length := List.length_map _
  refine ⟨body.1, body.2, body.2 + 1, body.2 + 2, body.2 + 3, body.2 + 4, hbody, fun r => ?_,
    hchanged, fun env' henv' => ?_, fun m' env' hlookup id' j' args r => ?_⟩
  · have hdefined : Evaluates host env
        (.list id (.atom (.form .define) :: .list i (.symbol j f :: symbols) :: e :: es)) m
        (.ok (Derived.functionDefinition (.symbol j f) symbols body.1 body.2).1 after) :=
      ⟨finished_ok _ _, 4, eval_functionDefinition hnames id i j f e es 0⟩
    refine ⟨fun hr => (deepening_eval host _ env).yields_unique hr hdefined, ?_⟩
    rintro rfl
    exact hdefined
  · rw [Store.lookup_eq_bind_resolve?, henv', Option.bind_some, hchanged.get?, if_pos ⟨rfl, rfl⟩]
  · rw [evaluates_call_iff hlookup rfl, ← hlength]
    refine ⟨fun hargs => ?_, fun hargs => ?_⟩
    · refine (yields_call_closure_iff hargs.symm _ _).trans
        (andThen_congr (fun _ => Iff.rfl) fun vs m₁ _ => ?_)
      exact exists_congr fun frame => and_congr_right fun _ => hbody.evaluates_iff
    · exact yields_call_closure_iff_of_ne (Ne.symm hargs) _ _

/-- The function `(define (f x) (define y x) y)` is called from a frame inside the one of its
definition, with an argument that gives its name another meaning there: `(f (define f #t))`. The
call goes on with the function that was found. Called without an argument, the function fails. -/
theorem function_definition_runs_body_rebound :
    let m : Machine Unit := ⟨⟨#[⟨.ofList [], none⟩, ⟨.ofList [], some 0⟩]⟩, 20, ()⟩
    let first : Value := .list 5 [.atom (.form .define), .symbol 6 "y", .symbol 7 "x"]
    let form : Value :=
      .list 1 [.atom (.form .define), .list 2 [.symbol 3 "f", .symbol 4 "x"], first, .symbol 8 "y"]
    let arg : Value := .list 9 [.atom (.form .define), .symbol 10 "f", .bool true]
    0 < m.store.size ∧
    ∃ (definition : Value) (after final : Machine Unit) (text : Datum),
      Evaluates .empty 0 form m (.ok definition after) ∧
      Evaluates .empty 1 (.list 11 [.symbol 12 "f", arg]) after (.ok (.bool true) final) ∧
      final.store.lookup 1 "f" = some (.bool true) ∧
      Evaluates .empty 1 (.list 11 [.symbol 12 "f"]) after
        (.error (.failed (.arityMismatch 1 0 text)) after) := by
  intro m first form arg
  have henv : 0 < m.store.size := by decide
  obtain ⟨body, i₁, i₂, i₃, i₄, supply, -, hdefine, -, hfound, hcall⟩ :=
    function_definition_runs_body .empty henv 1 2 3 "f" [(4, "x")] first [.symbol 8 "y"]
  let after : Machine Unit := ⟨m.store.define 0 "f" (.closure i₄ 0 ["x"] body), supply, ()⟩
  let rebound : Machine Unit := { after with store := after.store.define 1 "f" (.bool true) }
  let inner : Machine Unit := { rebound with store := rebound.store.extend 0 ["x"] [.bool true] }
  let final : Machine Unit := { inner with store := inner.store.define 2 "y" (.bool true) }
  have hlookup := hfound 1 rfl
  have harg : Evaluates .empty 1 arg after (.ok (.bool true) rebound) := ⟨finished_ok _ _, 3, rfl⟩
  have hfirst : Evaluates .empty 2 first inner (.ok (.bool true) final) := ⟨finished_ok _ _, 3, rfl⟩
  have hlast : Evaluates .empty 2 (.symbol 8 "y") final (.ok (.bool true) final) :=
    ⟨finished_ok _ _, 1, rfl⟩
  have hbody : EvaluatesLast .empty 2 [first, .symbol 8 "y"] inner (.ok (.bool true) final) :=
    .ok (.cons hfirst (.cons hlast (.nil _))) ⟨.bool true, rfl, rfl⟩
  refine ⟨henv, _, after, final, .lambda ["x"] body.toDatum, (hdefine _).mpr rfl, ?_, rfl, ?_⟩
  · exact ((hcall after 1 hlookup 11 12 [arg] _).1 rfl).mpr
      (.ok (.cons harg (.nil _)) ⟨_, Frame.names_iff.mpr rfl, hbody⟩)
  · exact ((hcall after 1 hlookup 11 12 [] _).2 (by decide)).mpr (.ok (.nil _) rfl)

end FrameLisp
