import FrameLisp.Eval.Basic

/-!
# Relations that evaluation builds up

An evaluation is put together from few kinds of computations: some that always give a result, some
that fail in one way, calls of the host's functions, and sequences of these. A relation between
computations that holds of the former and passes to sequences therefore holds between evaluations of
the same expression, if it holds between the evaluations of the parts.

In contrast to evaluation in lockstep, both sides work on the same values and frames, and nothing
needs to be known about the machines. What can be stated this way is how computations halt.

Every failure of evaluation belongs to the stage of evaluation. This is seen on the way, because the
relation is only required to hold of such failures.

## Main definitions

* `FailsInEvaluation` — results whose errors belong to evaluation
* `EvalM.Congruence` — a relation that evaluation builds up

## Main results

* `Builtin.failsInEvaluation_outcome` — builtins fail in evaluation only
* `EvalM.Congruence.applyValue`, `EvalM.Congruence.special` — application and the special forms
* `EvalM.Congruence.step` — one expression, given a relation between the evaluators of its parts
* `EvalM.Congruence.eval`, `EvalM.Congruence.apply` — evaluation and application
-/

namespace FrameLisp

/-! ### Results that need no machine -/

/-- If the result is an error, the error belongs to evaluation. -/
def FailsInEvaluation {α : Type} (x : Except Error α) : Prop :=
  ∀ e, x = .error e → e.stage = .evaluation

namespace FailsInEvaluation

variable {α β : Type}

theorem ok (a : α) : FailsInEvaluation (.ok a) := fun _ h => nomatch h

theorem error {e : Error} (h : e.stage = .evaluation) :
    FailsInEvaluation (.error e : Except Error α) := by
  intro e' he
  cases he
  exact h

theorem bind {x : Except Error α} {f : α → Except Error β} (hx : FailsInEvaluation x)
    (hf : ∀ a, FailsInEvaluation (f a)) : FailsInEvaluation (x >>= f) := by
  cases x with
  | ok a => exact hf a
  | error e => exact .error (hx e rfl)

end FailsInEvaluation

namespace Value

variable (op : String)

theorem failsInEvaluation_asNumber (v : Value) : FailsInEvaluation (v.asNumber op) := by
  cases v with
  | number x => exact .ok x
  | _ => exact .error rfl

theorem failsInEvaluation_asBool (v : Value) : FailsInEvaluation (v.asBool op) := by
  cases v with
  | bool b => exact .ok b
  | _ => exact .error rfl

theorem failsInEvaluation_asList (v : Value) : FailsInEvaluation (v.asList op) := by
  cases v with
  | list id items => exact .ok items
  | _ => exact .error rfl

theorem failsInEvaluation_asNumbers (vs : List Value) : FailsInEvaluation (asNumbers op vs) := by
  induction vs with
  | nil => exact .ok []
  | cons v vs ih =>
    exact (failsInEvaluation_asNumber op v).bind fun x => ih.bind fun xs => .ok (x :: xs)

end Value

namespace Builtin

open Value

variable (op : String)

theorem failsInEvaluation_ofNumbers (f : Float → List Float → Float) (args : List Value) :
    FailsInEvaluation (ofNumbers op f args) := by
  rw [ofNumbers]
  split
  · exact .error rfl
  · refine (failsInEvaluation_asNumbers op args).bind fun xs => ?_
    cases xs with
    | nil => exact .error rfl
    | cons x xs => exact .ok _

theorem failsInEvaluation_ofOne {f : Value → Except Error Outcome}
    (hf : ∀ v, FailsInEvaluation (f v)) (args : List Value) :
    FailsInEvaluation (ofOne op f args) := by
  rcases args with _ | ⟨v, _ | _⟩
  · exact .error rfl
  · exact hf v
  · exact .error rfl

theorem failsInEvaluation_ofTwo {f : Value → Value → Except Error Outcome}
    (hf : ∀ v w, FailsInEvaluation (f v w)) (args : List Value) :
    FailsInEvaluation (ofTwo op f args) := by
  rcases args with _ | ⟨v, _ | ⟨w, _ | _⟩⟩
  · exact .error rfl
  · exact .error rfl
  · exact hf v w
  · exact .error rfl

theorem failsInEvaluation_ofNumber (f : Float → Float) (args : List Value) :
    FailsInEvaluation (ofNumber op f args) := by
  rcases args with _ | ⟨v, _ | _⟩
  · exact .error rfl
  · exact (failsInEvaluation_asNumber op v).bind fun x => .ok _
  · exact .error rfl

theorem failsInEvaluation_ofTwoNumbers (f : Float → Float → Value) (args : List Value) :
    FailsInEvaluation (ofTwoNumbers op f args) := by
  rcases args with _ | ⟨v, _ | ⟨w, _ | _⟩⟩
  · exact .error rfl
  · exact .error rfl
  · exact (failsInEvaluation_asNumber op v).bind fun x =>
      (failsInEvaluation_asNumber op w).bind fun y => .ok _
  · exact .error rfl

theorem failsInEvaluation_ofTwoBools (f : Bool → Bool → Bool) (args : List Value) :
    FailsInEvaluation (ofTwoBools op f args) := by
  rcases args with _ | ⟨v, _ | ⟨w, _ | _⟩⟩
  · exact .error rfl
  · exact .error rfl
  · exact (failsInEvaluation_asBool op v).bind fun x =>
      (failsInEvaluation_asBool op w).bind fun y => .ok _
  · exact .error rfl

theorem failsInEvaluation_compareContents (v w : Value) :
    FailsInEvaluation (compareContents op v w) := by
  fun_cases compareContents op v w with
  | case1 | case2 | case4 => exact .ok _
  | case3 => exact .error rfl

/-- **Builtins fail in evaluation only.** -/
theorem failsInEvaluation_outcome (b : Builtin) (args : List Value) :
    FailsInEvaluation (b.outcome args) := by
  cases b with
  | add | sub | mul | div | min | max => exact failsInEvaluation_ofNumbers _ _ args
  | modulo | pow | atan2 => exact failsInEvaluation_ofTwoNumbers _ _ args
  | abs | floor | ceiling | sqrt | ln | sin | cos | tan | asin | acos =>
    exact failsInEvaluation_ofNumber _ _ args
  | greater | less | greaterEq | lessEq | numberEq => exact failsInEvaluation_ofTwoNumbers _ _ args
  | and | or => exact failsInEvaluation_ofTwoBools _ _ args
  | not | isList | isSymbol | isNull => exact failsInEvaluation_ofOne _ (fun v => .ok _) args
  | equal => exact failsInEvaluation_ofTwo _ (failsInEvaluation_compareContents _) args
  | identical => exact failsInEvaluation_ofTwo _ (fun v w => .ok _) args
  | length =>
    exact failsInEvaluation_ofOne _ (fun v => (failsInEvaluation_asList _ v).bind fun _ => .ok _)
      args
  | cons =>
    refine failsInEvaluation_ofTwo _ (fun v w => ?_) args
    cases w <;> exact .ok _
  | car =>
    refine failsInEvaluation_ofOne _ (fun v => ?_) args
    split <;> exact .ok _
  | cdr =>
    refine failsInEvaluation_ofOne _ (fun v => ?_) args
    cases v <;> exact .ok _
  | append =>
    exact failsInEvaluation_ofTwo _ (fun v w => (failsInEvaluation_asList _ v).bind fun _ =>
      (failsInEvaluation_asList _ w).bind fun _ => .ok _) args
  | list => exact .ok _

end Builtin

theorem Eval.failsInEvaluation_paramNames (vs : List Value) :
    FailsInEvaluation (paramNames vs) := by
  induction vs with
  | nil => exact .ok []
  | cons v vs ih =>
    cases v with
    | symbol id name => exact ih.bind fun names => .ok (name :: names)
    | _ => exact .error rfl

/-! ### Computations -/

namespace EvalM

variable {σ : Type}

section

variable {α β : Type} {x : EvalM σ α} {f : α → EvalM σ β} {m m' : Machine σ}

theorem bind_of_ok {a : α} (h : x m = .ok a m') : (x >>= f) m = f a m' := by
  change EStateM.bind x f m = _
  rw [EStateM.bind, h]

theorem bind_of_error {halt : Halt} (h : x m = .error halt m') :
    (x >>= f) m = .error halt m' := by
  change EStateM.bind x f m = _
  rw [EStateM.bind, h]

end

/-- A relation that evaluation builds up: what always gives a result is related to itself, so are
failures that belong to evaluation and calls of the host's functions, and sequences of related
computations are related. -/
structure Congruence (host : Host σ) (R : ∀ {α : Type}, EvalM σ α → EvalM σ α → Prop) : Prop where
  total : ∀ {α : Type} {x : EvalM σ α}, (∀ m, ∃ a m', x m = .ok a m') → R x x
  fail : ∀ {α : Type} {e : Error}, e.stage = .evaluation →
    R (EvalM.fail e : EvalM σ α) (EvalM.fail e)
  bind : ∀ {α β : Type} {x y : EvalM σ α} {f g : α → EvalM σ β}, R x y → (∀ a, R (f a) (g a)) →
    R (x >>= f) (y >>= g)
  call : ∀ ref args, R (host.call ref args) (host.call ref args)

namespace Congruence

variable {host : Host σ} {R : ∀ {α : Type}, EvalM σ α → EvalM σ α → Prop}
  {recur recur' : Value → FrameId → EvalM σ Value}

theorem pure (C : Congruence host R) {α : Type} (a : α) : R (Pure.pure a) (Pure.pure a) :=
  C.total fun m => ⟨a, m, rfl⟩

theorem draw (C : Congruence host R) {α : Type} (f : Nat → α × Nat) :
    R (EvalM.draw f) (EvalM.draw f) :=
  C.total fun _ => ⟨_, _, rfl⟩

theorem newList (C : Congruence host R) (items : List Value) :
    R (EvalM.newList items) (EvalM.newList items) :=
  C.draw _

theorem onStore (C : Congruence host R) {α : Type} (f : Store → α × Store) :
    R (EvalM.onStore f) (EvalM.onStore f) :=
  C.total fun _ => ⟨_, _, rfl⟩

theorem readStore (C : Congruence host R) {α : Type} (f : Store → α) :
    R (EvalM.readStore f) (EvalM.readStore f) :=
  C.total fun _ => ⟨_, _, rfl⟩

theorem ofExcept (C : Congruence host R) {α : Type} {x : Except Error α}
    (hx : FailsInEvaluation x) : R (EvalM.ofExcept x) (EvalM.ofExcept x) := by
  cases x with
  | ok a => exact C.pure a
  | error e => exact C.fail (hx e rfl)

theorem evalAll (C : Congruence host R) (hrecur : ∀ v i, R (recur v i) (recur' v i))
    (env : FrameId) (es : List Value) :
    R (Eval.evalAll recur env es) (Eval.evalAll recur' env es) := by
  induction es with
  | nil => exact C.pure []
  | cons e es ih =>
    exact C.bind (hrecur e env) fun v => C.bind ih fun vs => C.pure (v :: vs)

theorem evalSequence (C : Congruence host R) (hrecur : ∀ v i, R (recur v i) (recur' v i))
    (env : FrameId) (es : List Value) :
    R (Eval.evalSequence recur env es) (Eval.evalSequence recur' env es) := by
  induction es with
  | nil => exact C.newList []
  | cons e es ih =>
    cases es with
    | nil => exact hrecur e env
    | cons e' es => exact C.bind (hrecur e env) fun _ => ih

theorem callBuiltin (C : Congruence host R) (b : Builtin) (args : List Value) :
    R (b.call args) (b.call args) := by
  have houtcome := b.failsInEvaluation_outcome args
  rw [Builtin.call]
  split
  · exact C.pure _
  · exact C.draw _
  next e he => exact C.fail (houtcome e he)

/-- **Application.** -/
theorem applyValue (C : Congruence host R) (hrecur : ∀ v i, R (recur v i) (recur' v i))
    (function : Value) (args : List Value) :
    R (Eval.applyValue host recur function args) (Eval.applyValue host recur' function args) := by
  cases function with
  | closure id frame params body =>
    rw [Eval.applyValue, Eval.applyValue]
    split
    · exact C.fail rfl
    · exact C.bind (C.onStore _) fun scope => hrecur body scope
  | external ref => exact C.call ref args
  | atom p =>
    cases p with
    | builtin b => exact C.callBuiltin b args
    | form f => exact C.fail rfl
  | _ => exact C.fail rfl

theorem define (C : Congruence host R) (hrecur : ∀ v i, R (recur v i) (recur' v i)) (once : Bool)
    (op : String) (target : Value) (body : List Value) (env : FrameId) :
    R (Eval.define recur once op target body env) (Eval.define recur' once op target body env) := by
  cases target with
  | symbol id name =>
    refine C.bind (C.draw _) fun expr => C.bind (hrecur expr env) fun v => ?_
    cases once with
    | true => exact C.bind (C.onStore _) fun bound => C.pure _
    | false => exact C.bind (C.onStore _) fun _ => C.pure _
  | list id items =>
    rcases items with _ | ⟨head, params⟩
    · exact C.fail rfl
    · cases head with
      | symbol i name =>
        exact C.bind (C.draw _) fun expr => C.bind (C.draw _) fun form =>
          C.bind (hrecur form env) fun _ => C.pure form
      | _ => exact C.fail rfl
  | _ => exact C.fail rfl

theorem assignment (C : Congruence host R) (hrecur : ∀ v i, R (recur v i) (recur' v i))
    (form target expr : Value) (env : FrameId) :
    R (Eval.special recur .set form [target, expr] env)
      (Eval.special recur' .set form [target, expr] env) := by
  cases target with
  | symbol id name =>
    refine C.bind (hrecur expr env) fun v => C.bind (C.onStore _) fun found => ?_
    cases found with
    | true => exact C.pure form
    | false => exact C.fail rfl
  | _ => exact C.fail rfl

theorem function (C : Congruence host R) (form params body : Value) (env : FrameId) :
    R (Eval.special recur .lambda form [params, body] env)
      (Eval.special recur' .lambda form [params, body] env) := by
  cases params with
  | list id items =>
    exact C.bind (C.ofExcept (Eval.failsInEvaluation_paramNames items)) fun names => C.draw _
  | _ => exact C.fail rfl

theorem localBindings (C : Congruence host R) (hrecur : ∀ v i, R (recur v i) (recur' v i))
    (form bindings body : Value) (env : FrameId) :
    R (Eval.special recur .letForm form [bindings, body] env)
      (Eval.special recur' .letForm form [bindings, body] env) := by
  cases bindings with
  | list id items =>
    rw [Eval.special, Eval.special]
    cases Derived.bindingPairs? items with
    | some pairs => exact C.bind (C.draw _) fun call => hrecur call env
    | none => exact C.fail rfl
  | _ => exact C.fail rfl

theorem applyForm (C : Congruence host R) (hrecur : ∀ v i, R (recur v i) (recur' v i))
    (form function arguments : Value) (env : FrameId) :
    R (Eval.special recur .apply form [function, arguments] env)
      (Eval.special recur' .apply form [function, arguments] env) :=
  C.bind (hrecur arguments env) fun list =>
    C.bind (C.ofExcept (Value.failsInEvaluation_asList _ list)) fun _ =>
      C.bind (hrecur function env) fun _ => C.bind (C.draw _) fun call => hrecur call env

theorem query (C : Congruence host R) (form x : Value) (env : FrameId) :
    R (Eval.special recur .isDefined form [x] env)
      (Eval.special recur' .isDefined form [x] env) := by
  cases x with
  | symbol id name => exact C.bind (C.readStore _) fun found => C.pure _
  | _ => exact C.fail rfl

/-- **The special forms.** A wrong number of operands is a failure on both sides. -/
theorem special (C : Congruence host R) (hrecur : ∀ v i, R (recur v i) (recur' v i))
    (f : SpecialForm) (form : Value) (operands : List Value) (env : FrameId) :
    R (Eval.special recur f form operands env) (Eval.special recur' f form operands env) := by
  cases f with
  | quote =>
    rcases operands with _ | ⟨x, _ | _⟩
    · exact C.fail rfl
    · exact C.pure x
    · exact C.fail rfl
  | ifForm =>
    rcases operands with _ | ⟨test, _ | ⟨yes, _ | ⟨no, _ | _⟩⟩⟩
    · exact C.fail rfl
    · exact C.fail rfl
    · exact C.fail rfl
    · refine C.bind (hrecur test env) fun v => ?_
      cases v.isTruthy with
      | true => exact hrecur yes env
      | false => exact hrecur no env
    · exact C.fail rfl
  | set =>
    rcases operands with _ | ⟨target, _ | ⟨expr, _ | _⟩⟩
    · exact C.fail rfl
    · exact C.fail rfl
    · exact C.assignment hrecur form target expr env
    · exact C.fail rfl
  | define =>
    rcases operands with _ | ⟨target, _ | ⟨b, bs⟩⟩
    · exact C.fail rfl
    · exact C.fail rfl
    · exact C.define hrecur false _ target (b :: bs) env
  | defineOnce =>
    rcases operands with _ | ⟨target, _ | ⟨b, bs⟩⟩
    · exact C.fail rfl
    · exact C.fail rfl
    · exact C.define hrecur true _ target (b :: bs) env
  | lambda =>
    rcases operands with _ | ⟨params, _ | ⟨body, _ | _⟩⟩
    · exact C.fail rfl
    · exact C.fail rfl
    · exact C.function form params body env
    · exact C.fail rfl
  | begin => exact C.evalSequence hrecur env operands
  | letForm =>
    rcases operands with _ | ⟨bindings, _ | ⟨body, _ | _⟩⟩
    · exact C.fail rfl
    · exact C.fail rfl
    · exact C.localBindings hrecur form bindings body env
    · exact C.fail rfl
  | apply =>
    rcases operands with _ | ⟨function, _ | ⟨arguments, _ | _⟩⟩
    · exact C.fail rfl
    · exact C.fail rfl
    · exact C.applyForm hrecur form function arguments env
    · exact C.fail rfl
  | id =>
    rcases operands with _ | ⟨x, _ | _⟩
    · exact C.fail rfl
    · exact hrecur x env
    · exact C.fail rfl
  | isDefined =>
    rcases operands with _ | ⟨x, _ | _⟩
    · exact C.fail rfl
    · exact C.query form x env
    · exact C.fail rfl

theorem application (C : Congruence host R) (hrecur : ∀ v i, R (recur v i) (recur' v i))
    (function form : Value) (operands : List Value) (env : FrameId) :
    R (Eval.application host recur function form operands env)
      (Eval.application host recur' function form operands env) := by
  have hcall : R (Eval.evalAll recur env operands >>= Eval.applyValue host recur function)
      (Eval.evalAll recur' env operands >>= Eval.applyValue host recur' function) :=
    C.bind (C.evalAll hrecur env operands) fun args => C.applyValue hrecur function args
  cases function with
  | atom p =>
    cases p with
    | form f => exact C.special hrecur f form operands env
    | builtin b => exact hcall
  | _ => exact hcall

/-- **One expression,** given a relation between the evaluators of its parts. -/
theorem step (C : Congruence host R) (hrecur : ∀ v i, R (recur v i) (recur' v i)) (expr : Value)
    (env : FrameId) : R (Eval.step host recur expr env) (Eval.step host recur' expr env) := by
  cases expr with
  | symbol id name =>
    refine C.bind (C.readStore _) fun found => ?_
    cases found with
    | some v => exact C.pure v
    | none => exact C.fail rfl
  | list id items =>
    rcases items with _ | ⟨head, operands⟩
    · exact C.pure _
    · exact C.bind (hrecur head env) fun function =>
        C.application hrecur function _ operands env
  | _ => exact C.pure _

/-- **Evaluation is related to itself,** if being exhausted is. -/
theorem eval (C : Congruence host R)
    (hexhausted : R (throw .exhausted : EvalM σ Value) (throw .exhausted)) (depth : Nat)
    (expr : Value) (env : FrameId) :
    R (FrameLisp.eval host depth expr env) (FrameLisp.eval host depth expr env) := by
  induction depth generalizing expr env with
  | zero => exact hexhausted
  | succ depth ih => exact C.step ih expr env

/-- **So is application.** -/
theorem apply (C : Congruence host R)
    (hexhausted : R (throw .exhausted : EvalM σ Value) (throw .exhausted)) (depth : Nat)
    (function : Value) (args : List Value) :
    R (FrameLisp.apply host depth function args) (FrameLisp.apply host depth function args) :=
  C.applyValue (C.eval hexhausted depth) function args

end Congruence

end EvalM

end FrameLisp
