import FrameLisp.Interpreter
import FrameLisp.Proofs.Eval.Coupling

/-!
# Evaluation in lockstep

Evaluation respects every coupling that fulfils the clauses of `Lockstep`: corresponding
expressions, evaluated in corresponding frames on machines that agree, give corresponding values or
the same error, on machines that agree again. The proof goes through the evaluator once, layer by
layer: sequences of expressions, application, definitions, the special forms, one step, and then the
depth.

## Main definitions

* `replies` — the answers to a sequence of requests

## Main results

* `Lockstep.applyValue` — applying corresponding functions to corresponding values
* `Lockstep.special` — the special forms
* `Lockstep.eval` — evaluation
* `Lockstep.execute` — reading and evaluating a text
* `Lockstep.readEvalPrint`, `Lockstep.replies_eq` — answers to texts
-/

namespace FrameLisp

namespace Lockstep

variable {σ τ W : Type} [Preorder W] {K : Coupling σ τ W} {host : Host σ} {host' : Host τ}
  {recur : Value → FrameId → EvalM σ Value} {recur' : Value → FrameId → EvalM τ Value}
  {w : W} {v v' : Value} {vs vs' : List Value} {i j : FrameId}

/-! ### Sequences of expressions -/

theorem evalAll (L : Lockstep K host host') (hrecur : K.Respects recur recur')
    (h : List.Forall₂ (K.Values w) vs vs') (hij : K.scope w i j) :
    K.Sync w (fun w => List.Forall₂ (K.Values w)) (Eval.evalAll recur i vs)
      (Eval.evalAll recur' j vs') := by
  induction vs generalizing w vs' with
  | nil =>
    cases h
    exact .pure .nil
  | cons v vs ih =>
    cases h with
    | cons hv hvs =>
      refine (hrecur hv hij).bind fun w₁ hw₁ x x' hx => ?_
      refine (ih (L.mono_all hw₁ hvs) (L.scope_mono hw₁ hij)).bind fun w₂ hw₂ xs xs' hxs => ?_
      exact .pure (.cons (L.mono hw₂ hx) hxs)

theorem evalSequence (L : Lockstep K host host') (hrecur : K.Respects recur recur')
    (h : List.Forall₂ (K.Values w) vs vs') (hij : K.scope w i j) :
    K.Sync w K.Values (Eval.evalSequence recur i vs) (Eval.evalSequence recur' j vs') := by
  induction vs generalizing w vs' with
  | nil =>
    cases h
    exact L.newList .nil
  | cons v vs ih =>
    cases h with
    | cons hv hvs =>
      cases hvs with
      | nil => exact hrecur hv hij
      | cons hu hus =>
        exact (hrecur hv hij).bind fun w₁ hw₁ _ _ _ =>
          ih (L.mono_all hw₁ (.cons hu hus)) (L.scope_mono hw₁ hij)

/-! ### Application -/

theorem callBuiltin (L : Lockstep K host host') {b : Builtin}
    (hb : (K.corr w).atom (.builtin b)) (h : List.Forall₂ (K.Values w) vs vs') :
    K.Sync w K.Values (b.call vs) (b.call vs') := by
  intro m m' hm
  have hunique : b = .identical → Relator.BiUnique (K.corr w).identity ∧
      Relator.BiUnique (K.corr w).external := fun hid => L.unique hm (hid ▸ hb)
  have houtcome := Builtin.related_outcome b hunique h
  rw [Builtin.call, Builtin.call]
  generalize b.outcome vs = x, b.outcome vs' = y at houtcome
  cases houtcome with
  | ok hxy =>
    cases hxy with
    | value hv => exact .ok le_rfl hm hv
    | elements hvs => exact L.newList hvs m m' hm
  | error e => exact .error le_rfl hm

theorem newScope (L : Lockstep K host host') (hij : (K.corr w).frame i j) {params : List String}
    (hparams : ∀ p ∈ params, (K.corr w).name p) (h : List.Forall₂ (K.Values w) vs vs') :
    K.Sync w K.scope (EvalM.newScope i params vs) (EvalM.newScope j params vs') :=
  .onStore fun _ _ hm => L.extend hm hij hparams h

/-- **Application stays in step.** -/
theorem applyValue (L : Lockstep K host host') (hrecur : K.Respects recur recur')
    (hv : K.Values w v v') (h : List.Forall₂ (K.Values w) vs vs') :
    K.Sync w K.Values (Eval.applyValue host recur v vs) (Eval.applyValue host' recur' v' vs') := by
  have hdatum := hv.toDatum_eq
  have hfail : K.Sync w K.Values (EvalM.fail (.notCallable v.toDatum))
      (EvalM.fail (.notCallable v'.toDatum)) := by
    rw [hdatum]
    exact .fail _
  cases hv with
  | closure hid hframe hparams hbody =>
    rw [Eval.applyValue, Eval.applyValue, h.length_eq, hbody.toDatum_eq]
    split
    · exact .fail _
    · exact (L.newScope hframe hparams h).bind fun w₁ hw₁ _ _ hscope =>
        hrecur (L.mono hw₁ hbody) hscope
  | external hr => exact L.call hr h
  | @atom p hp =>
    cases p with
    | builtin b => exact L.callBuiltin hp h
    | form f => exact hfail
  | _ => exact hfail

/-! ### Derived forms -/

theorem sequence (L : Lockstep K host host') (h : List.Forall₂ (K.Values w) vs vs') :
    K.Sync w K.Values (EvalM.draw (Derived.sequence vs)) (EvalM.draw (Derived.sequence vs')) := by
  have hbegin : ∀ {us us'}, List.Forall₂ (K.Values w) us us' → ∀ w', w ≤ w' → ∀ n n' : ℕ,
      (∀ l < 1, (K.corr w').identity (n + l) (n' + l)) →
      K.Values w' (.list n (.atom (.form .begin) :: us)) (.list n' (.atom (.form .begin) :: us')) :=
    fun hus w' hw n n' hids => Value.related_list_iff.mpr
      ⟨hids 0 Nat.one_pos, .cons (.atom (L.begin w')) (L.mono_all hw hus)⟩
  cases h with
  | nil => exact L.draw 1 (fun _ => rfl) (fun _ => rfl) (hbegin .nil)
  | cons hv hvs =>
    cases hvs with
    | nil => exact L.draw 0 (fun _ => rfl) (fun _ => rfl) fun _ hw _ _ _ => L.mono hw hv
    | cons hu hus =>
      exact L.draw 1 (fun _ => rfl) (fun _ => rfl) (hbegin (.cons hv (.cons hu hus)))

/-- The form that makes a function. -/
theorem lambdaForm (L : Lockstep K host host') {n n' k k' : ℕ} (hn : (K.corr w).identity n n')
    (hk : (K.corr w).identity k k') (hparams : List.Forall₂ (K.Values w) vs vs')
    (hbody : K.Values w v v') :
    K.Values w (.list n [.atom (.form .lambda), .list k vs, v])
      (.list n' [.atom (.form .lambda), .list k' vs', v']) :=
  Value.related_list_iff.mpr ⟨hn, .cons (.atom (L.lambda w))
    (.cons (Value.related_list_iff.mpr ⟨hk, hparams⟩) (.cons hbody .nil))⟩

theorem functionDefinition (L : Lockstep K host host') (hdefine : (K.corr w).atom (.form .define))
    {name name' : Value} (hname : K.Values w name name')
    (hparams : List.Forall₂ (K.Values w) vs vs') (hbody : K.Values w v v') :
    K.Sync w K.Values (EvalM.draw (Derived.functionDefinition name vs v))
      (EvalM.draw (Derived.functionDefinition name' vs' v')) := by
  refine L.draw 3 (fun _ => rfl) (fun _ => rfl) fun w' hw n n' hids => ?_
  obtain ⟨-, -, hatom, -, -⟩ := L.corr_mono hw
  exact Value.related_list_iff.mpr ⟨hids 0 (by decide), .cons (.atom (hatom _ hdefine))
    (.cons (L.mono hw hname) (.cons (L.lambdaForm (hids 1 (by decide)) (hids 2 (by decide))
      (L.mono_all hw hparams) (L.mono hw hbody)) .nil))⟩

theorem localCall (L : Lockstep K host host') {pairs pairs' : List (Value × Value)}
    (hpairs : List.Forall₂ (fun p p' => K.Values w p.1 p'.1 ∧ K.Values w p.2 p'.2) pairs pairs')
    (hbody : K.Values w v v') :
    K.Sync w K.Values (EvalM.draw (Derived.localCall pairs v))
      (EvalM.draw (Derived.localCall pairs' v')) := by
  have hsymbols : List.Forall₂ (K.Values w) (pairs.map (·.1)) (pairs'.map (·.1)) :=
    List.rel_map (fun _ _ hp => hp.1) hpairs
  have hexprs : List.Forall₂ (K.Values w) (pairs.map (·.2)) (pairs'.map (·.2)) :=
    List.rel_map (fun _ _ hp => hp.2) hpairs
  refine L.draw 3 (fun _ => rfl) (fun _ => rfl) fun w' hw n n' hids => ?_
  exact Value.related_list_iff.mpr ⟨hids 0 (by decide), .cons (L.lambdaForm (hids 1 (by decide))
    (hids 2 (by decide)) (L.mono_all hw hsymbols) (L.mono hw hbody)) (L.mono_all hw hexprs)⟩

end Lockstep

namespace Derived

variable {c : Correspondence} {v v' : Value} {vs vs' : List Value}

theorem related_bindingPair? (h : Value.Related c v v') :
    Option.Rel (fun p p' => Value.Related c p.1 p'.1 ∧ Value.Related c p.2 p'.2)
      (bindingPair? v) (bindingPair? v') := by
  cases h with
  | list hid hlength hitems =>
    -- a pair is a list of two whose head is a symbol; every other list is none on both sides
    cases (Value.related_list_iff.mp (.list hid hlength hitems)).2 with
    | nil => exact .none
    | cons hx hxs =>
      cases hxs with
      | nil => cases hx <;> exact .none
      | cons hy hys =>
        cases hys with
        | nil =>
          have hsymbol := hx
          cases hx with
          | symbol _ _ => exact .some ⟨hsymbol, hy⟩
          | _ => exact .none
        | cons _ _ => cases hx <;> exact .none
  | _ => exact .none

theorem related_bindingPairs? (h : List.Forall₂ (Value.Related c) vs vs') :
    Option.Rel (List.Forall₂ fun p p' => Value.Related c p.1 p'.1 ∧ Value.Related c p.2 p'.2)
      (bindingPairs? vs) (bindingPairs? vs') := by
  induction h with
  | nil => exact .some .nil
  | @cons u u' us us' hu _ ih =>
    have hpair := related_bindingPair? hu
    rw [bindingPairs?, bindingPairs?]
    generalize bindingPair? u = p, bindingPair? u' = p' at hpair
    generalize bindingPairs? us = ps, bindingPairs? us' = ps' at ih
    cases hpair with
    | none => exact .none
    | some hp =>
      cases ih with
      | none => exact .none
      | some hps => exact .some (.cons hp hps)

end Derived

namespace Eval

theorem related_paramNames {c : Correspondence} {vs vs' : List Value}
    (h : List.Forall₂ (Value.Related c) vs vs') :
    SameFate (fun ns ns' => ns = ns' ∧ ∀ n ∈ ns, c.name n) (paramNames vs) (paramNames vs') := by
  induction h with
  | nil => exact .ok ⟨rfl, List.forall_mem_nil _⟩
  | cons hv _ ih =>
    have hdatum := hv.toDatum_eq
    cases hv with
    | symbol _ hname =>
      refine ih.bind fun ns ns' hns => .ok ⟨congrArg _ hns.1, ?_⟩
      exact List.forall_mem_cons.mpr ⟨hname, hns.2⟩
    | _ =>
      exact .of_eq (congrArg (fun d => Error.invalidArguments SpecialForm.lambda.name
        (.parameter d)) hdatum)

end Eval

namespace Lockstep

variable {σ τ W : Type} [Preorder W] {K : Coupling σ τ W} {host : Host σ} {host' : Host τ}
  {recur : Value → FrameId → EvalM σ Value} {recur' : Value → FrameId → EvalM τ Value}
  {w : W} {v v' : Value} {vs vs' : List Value} {i j : FrameId}

/-! ### Definitions and assignments -/

/-- Binding a name, whether or not it may be visible already. -/
theorem bindName (L : Lockstep K host host') (once : Bool)
    (hdefine : (K.corr w).atom (.form .define)) (hij : K.scope w i j) {name : String}
    (hname : (K.corr w).name name) (hv : K.Values w v v') :
    K.Sync w K.Values
      (if once then do
        let bound ← EvalM.onStore fun s => s.defineOnce i name v
        pure (.bool bound)
      else do
        EvalM.onStore fun s => ((), s.define i name v)
        pure (.bool true))
      (if once then do
        let bound ← EvalM.onStore fun s => s.defineOnce j name v'
        pure (.bool bound)
      else do
        EvalM.onStore fun s => ((), s.define j name v')
        pure (.bool true)) := by
  cases once with
  | false =>
    refine Coupling.Sync.bind (Q := fun _ _ _ => True) (.onStore fun m m' hm => ?_)
      fun _ _ _ _ _ => .pure (.bool true)
    exact ⟨w, le_rfl, trivial, L.define hdefine hm hij hname hv⟩
  | true =>
    refine Coupling.Sync.bind (Q := fun _ b b' => b = b') (.onStore fun m m' hm => ?_)
      fun _ _ b b' hb => hb ▸ .pure (.bool b)
    rw [Store.defineOnce, Store.defineOnce, L.contains_eq hm hij hname]
    split
    · exact ⟨w, le_rfl, rfl, hm⟩
    · exact ⟨w, le_rfl, rfl, L.define hdefine hm hij hname hv⟩

theorem definition (L : Lockstep K host host') (hrecur : K.Respects recur recur') (once : Bool)
    (op : String) (hdefine : (K.corr w).atom (.form .define)) (hv : K.Values w v v')
    (hbody : List.Forall₂ (K.Values w) vs vs') (hij : K.scope w i j) :
    K.Sync w K.Values (Eval.define recur once op v vs i) (Eval.define recur' once op v' vs' j) := by
  have hdatum := hv.toDatum_eq
  cases hv with
  | symbol _ hname =>
    refine (L.sequence hbody).bind fun w₁ hw₁ e e' he => ?_
    refine (hrecur he (L.scope_mono hw₁ hij)).bind fun w₂ hw₂ x x' hx => ?_
    have hw := hw₁.trans hw₂
    obtain ⟨-, -, hatom, hnames, -⟩ := L.corr_mono hw
    exact L.bindName once (hatom _ hdefine) (L.scope_mono hw hij) (hnames _ hname) hx
  | list hid hlength hitems =>
    cases (Value.related_list_iff.mp (.list hid hlength hitems)).2 with
    | nil => exact .fail _
    | cons hhead hparams =>
      have hfunction := hhead
      have hdatum := hhead.toDatum_eq
      cases hhead with
      | symbol _ _ =>
        refine (L.sequence hbody).bind fun w₁ hw₁ e e' he => ?_
        obtain ⟨-, -, hatom, -, -⟩ := L.corr_mono hw₁
        refine (L.functionDefinition (hatom _ hdefine) (L.mono hw₁ hfunction)
          (L.mono_all hw₁ hparams) he).bind fun w₂ hw₂ form form' hform => ?_
        have hscope := L.scope_mono (hw₁.trans hw₂) hij
        exact (hrecur hform hscope).bind fun w₃ hw₃ _ _ _ => .pure (L.mono hw₃ hform)
      | atom _ => exact .fail _
      | _ =>
        exact .fail_of_eq (congrArg (fun d => Error.invalidArguments op (.functionName d)) hdatum)
  | _ =>
    exact .fail_of_eq (congrArg (fun d => Error.invalidArguments op (.definitionTarget d)) hdatum)

theorem assignment (L : Lockstep K host host') (hrecur : K.Respects recur recur')
    (hset : (K.corr w).atom (.form .set)) {form form' : Value} (hform : K.Values w form form')
    {target target' : Value} (htarget : K.Values w target target') (hv : K.Values w v v')
    (hij : K.scope w i j) :
    K.Sync w K.Values (Eval.special recur .set form [target, v] i)
      (Eval.special recur' .set form' [target', v'] j) := by
  cases htarget with
  | @symbol _ _ name _ hname =>
    refine (hrecur hv hij).bind fun w₁ hw₁ x x' hx => ?_
    obtain ⟨-, -, hatom, hnames, -⟩ := L.corr_mono hw₁
    refine Coupling.Sync.bind (Q := fun _ b b' => b = b') (.onStore fun m m' hm => ?_)
      fun w₂ hw₂ b b' hb => ?_
    · obtain ⟨hfound, hm'⟩ :=
        L.assign (hatom _ hset) hm (L.scope_mono hw₁ hij) (hnames _ hname) hx
      exact ⟨w₁, le_rfl, hfound, hm'⟩
    · subst hb
      cases b with
      | true => exact .pure (L.mono (hw₁.trans hw₂) hform)
      | false => exact .fail _
  | _ => exact .fail _

/-! ### Special forms -/

theorem conditional (L : Lockstep K host host') (hrecur : K.Respects recur recur')
    {test test' yes yes' no no' : Value} (htest : K.Values w test test')
    (hyes : K.Values w yes yes') (hno : K.Values w no no') (hij : K.scope w i j)
    {form form' : Value} :
    K.Sync w K.Values (Eval.special recur .ifForm form [test, yes, no] i)
      (Eval.special recur' .ifForm form' [test', yes', no'] j) := by
  refine (hrecur htest hij).bind fun w₁ hw₁ x x' hx => ?_
  rw [hx.isTruthy_eq]
  split
  · exact hrecur (L.mono hw₁ hyes) (L.scope_mono hw₁ hij)
  · exact hrecur (L.mono hw₁ hno) (L.scope_mono hw₁ hij)

theorem function (L : Lockstep K host host') {params params' : Value}
    (hparams : K.Values w params params') (hv : K.Values w v v') (hij : K.scope w i j)
    {form form' : Value} :
    K.Sync w K.Values (Eval.special recur .lambda form [params, v] i)
      (Eval.special recur' .lambda form' [params', v'] j) := by
  cases hparams with
  | list hid hlength hitems =>
    have hitems := (Value.related_list_iff.mp (.list hid hlength hitems)).2
    refine .ofExcept (Eval.related_paramNames hitems) fun ns ns' hns => ?_
    rw [← hns.1]
    exact L.newClosure (L.frame_of_scope hij) hns.2 hv
  | _ => exact .fail _

theorem localBindings (L : Lockstep K host host') (hrecur : K.Respects recur recur')
    {bindings bindings' : Value} (hbindings : K.Values w bindings bindings')
    (hv : K.Values w v v') (hij : K.scope w i j) {form form' : Value} :
    K.Sync w K.Values (Eval.special recur .letForm form [bindings, v] i)
      (Eval.special recur' .letForm form' [bindings', v'] j) := by
  cases hbindings with
  | @list _ _ items items' hid hlength hitems =>
    have hpairs := Derived.related_bindingPairs?
      (Value.related_list_iff.mp (.list hid hlength hitems)).2
    rw [Eval.special, Eval.special]
    generalize Derived.bindingPairs? items = ps, Derived.bindingPairs? items' = ps' at hpairs
    cases hpairs with
    | none => exact .fail _
    | some hpairs =>
      exact (L.localCall hpairs hv).bind fun w₁ hw₁ _ _ hcall =>
        hrecur hcall (L.scope_mono hw₁ hij)
  | _ => exact .fail _

theorem applyForm (L : Lockstep K host host') (hrecur : K.Respects recur recur')
    {arguments arguments' : Value} (harguments : K.Values w arguments arguments')
    (hv : K.Values w v v') (hij : K.scope w i j) {form form' : Value} :
    K.Sync w K.Values (Eval.special recur .apply form [v, arguments] i)
      (Eval.special recur' .apply form' [v', arguments'] j) := by
  refine (hrecur harguments hij).bind fun w₁ hw₁ list list' hlist => ?_
  refine .ofExcept (Value.related_asList hlist _) fun args args' hargs => ?_
  refine (hrecur (L.mono hw₁ hv) (L.scope_mono hw₁ hij)).bind fun w₂ hw₂ g g' hg => ?_
  refine (L.newList (.cons hg (L.mono_all hw₂ hargs))).bind fun w₃ hw₃ _ _ hcall => ?_
  exact hrecur hcall (L.scope_mono ((hw₁.trans hw₂).trans hw₃) hij)

theorem query (L : Lockstep K host host') (hv : K.Values w v v') (hij : K.scope w i j)
    {form form' : Value} :
    K.Sync w K.Values (Eval.special recur .isDefined form [v] i)
      (Eval.special recur' .isDefined form' [v'] j) := by
  have hdatum := hv.toDatum_eq
  cases hv with
  | symbol _ hname =>
    refine Coupling.Sync.bind (Q := fun _ b b' => b = b')
      (.readStore fun m m' hm => L.contains_eq hm hij hname) fun _ _ b b' hb => ?_
    exact hb ▸ .pure (.bool b)
  | _ =>
    exact .fail_of_eq (congrArg (fun d => Error.invalidArguments SpecialForm.isDefined.name
      (.queryTarget d)) hdatum)

/-- **The special forms stay in step.** In each case the operands have the same number on both
sides, and a wrong number is the same error. -/
theorem special (L : Lockstep K host host') (hrecur : K.Respects recur recur') {f : SpecialForm}
    (hf : (K.corr w).atom (.form f)) {form form' : Value} (hform : K.Values w form form')
    (h : List.Forall₂ (K.Values w) vs vs') (hij : K.scope w i j) :
    K.Sync w K.Values (Eval.special recur f form vs i) (Eval.special recur' f form' vs' j) := by
  cases f with
  | quote =>
    rcases h with _ | ⟨hx, _ | _⟩
    · exact .fail _
    · exact .pure hx
    · exact .fail _
  | ifForm =>
    rcases h with _ | ⟨htest, _ | ⟨hyes, _ | ⟨hno, _ | _⟩⟩⟩
    · exact .fail _
    · exact .fail _
    · exact .fail _
    · exact L.conditional hrecur htest hyes hno hij
    · exact .fail _
  | set =>
    rcases h with _ | ⟨htarget, _ | ⟨hx, _ | _⟩⟩
    · exact .fail _
    · exact .fail _
    · exact L.assignment hrecur hf hform htarget hx hij
    · exact .fail _
  | define =>
    rcases h with _ | ⟨htarget, _ | ⟨hx, hxs⟩⟩
    · exact .fail _
    · exact .fail _
    · exact L.definition hrecur false _ hf htarget (.cons hx hxs) hij
  | defineOnce =>
    rcases h with _ | ⟨htarget, _ | ⟨hx, hxs⟩⟩
    · exact .fail _
    · exact .fail _
    · exact L.definition hrecur true _ (L.define_of_once hf) htarget (.cons hx hxs) hij
  | lambda =>
    rcases h with _ | ⟨hparams, _ | ⟨hbody, _ | _⟩⟩
    · exact .fail _
    · exact .fail _
    · exact L.function hparams hbody hij
    · exact .fail _
  | begin => exact L.evalSequence hrecur h hij
  | letForm =>
    rcases h with _ | ⟨hbindings, _ | ⟨hbody, _ | _⟩⟩
    · exact .fail _
    · exact .fail _
    · exact L.localBindings hrecur hbindings hbody hij
    · exact .fail _
  | apply =>
    rcases h with _ | ⟨hfunction, _ | ⟨harguments, _ | _⟩⟩
    · exact .fail _
    · exact .fail _
    · exact L.applyForm hrecur harguments hfunction hij
    · exact .fail _
  | id =>
    rcases h with _ | ⟨hx, _ | _⟩
    · exact .fail _
    · exact hrecur hx hij
    · exact .fail _
  | isDefined =>
    rcases h with _ | ⟨hx, _ | _⟩
    · exact .fail _
    · exact L.query hx hij
    · exact .fail _

/-! ### Evaluation -/

theorem application (L : Lockstep K host host') (hrecur : K.Respects recur recur')
    (hv : K.Values w v v') {form form' : Value} (hform : K.Values w form form')
    (h : List.Forall₂ (K.Values w) vs vs') (hij : K.scope w i j) :
    K.Sync w K.Values (Eval.application host recur v form vs i)
      (Eval.application host' recur' v' form' vs' j) := by
  have hcall : K.Sync w K.Values
      (Eval.evalAll recur i vs >>= fun args => Eval.applyValue host recur v args)
      (Eval.evalAll recur' j vs' >>= fun args => Eval.applyValue host' recur' v' args) :=
    (L.evalAll hrecur h hij).bind fun w₁ hw₁ _ _ hargs => L.applyValue hrecur (L.mono hw₁ hv) hargs
  cases hv with
  | @atom p hp =>
    cases p with
    | form f => exact L.special hrecur hp hform h hij
    | builtin b => exact hcall
  | _ => exact hcall

/-- One expression stays in step, given an evaluator for its parts that does. -/
theorem step (L : Lockstep K host host') (hrecur : K.Respects recur recur') :
    K.Respects (Eval.step host recur) (Eval.step host' recur') := by
  intro w v v' i j hv hij
  have hself := hv
  cases hv with
  | symbol _ hname =>
    refine Coupling.Sync.bind (Q := fun w => Option.Rel (K.Values w))
      (.readStore fun m m' hm => L.lookup hm hij hname) fun w₁ hw₁ o o' ho => ?_
    cases ho with
    | none => exact .fail _
    | some hx => exact .pure hx
  | list hid hlength hitems =>
    cases (Value.related_list_iff.mp (.list hid hlength hitems)).2 with
    | nil => exact .pure hself
    | cons hhead hoperands =>
      exact (hrecur hhead hij).bind fun w₁ hw₁ g g' hg => L.application hrecur hg
        (L.mono hw₁ hself) (L.mono_all hw₁ hoperands) (L.scope_mono hw₁ hij)
  | _ => exact .pure hself

/-- **Evaluation stays in step.** -/
theorem eval (L : Lockstep K host host') (depth : ℕ) :
    K.Respects (FrameLisp.eval host depth) (FrameLisp.eval host' depth) := by
  induction depth with
  | zero => exact fun _ _ => .throw _
  | succ depth ih => exact L.step ih

theorem newValue (L : Lockstep K host host') {d : Datum}
    (h : ∀ p ∈ d.parts, (K.corr w).AdmitsDatum p) :
    K.Sync w K.Values (EvalM.newValue d) (EvalM.newValue d) :=
  L.draw (Value.instantiate d 0).2 (Value.instantiate_snd d) (Value.instantiate_snd d)
    fun _ hw _ _ hids =>
      Value.related_instances (fun p hp => (h p hp).mono (L.corr_mono hw)) hids

/-- **Reading and evaluating a text stays in step,** if what the text says may occur. -/
theorem execute (L : Lockstep K host host') (depth : ℕ) (hij : K.scope w i j) {text : String}
    (htext : ∀ d, (Reading.ofText text).toExcept = .ok d →
      ∀ p ∈ d.parts, (K.corr w).AdmitsDatum p) :
    K.Sync w K.Values (FrameLisp.execute host depth i text)
      (FrameLisp.execute host' depth j text) := by
  rw [FrameLisp.execute, FrameLisp.execute]
  split
  · exact .fail _
  next d hd =>
    exact (L.newValue (htext d hd)).bind fun w₁ hw₁ _ _ hform =>
      L.eval depth hform (L.scope_mono hw₁ hij)

/-- **Answers are the same** on machines that agree, and afterwards the machines agree again. -/
theorem readEvalPrint (L : Lockstep K host host') (depth : ℕ) (hij : K.scope w i j) {text : String}
    (htext : ∀ d, (Reading.ofText text).toExcept = .ok d →
      ∀ p ∈ d.parts, (K.corr w).AdmitsDatum p)
    {m : Machine σ} {m' : Machine τ} (hm : K.machine w m m') :
    (FrameLisp.readEvalPrint host depth i text m).1 =
      (FrameLisp.readEvalPrint host' depth j text m').1 ∧
    ∃ w', w ≤ w' ∧ K.machine w' (FrameLisp.readEvalPrint host depth i text m).2
      (FrameLisp.readEvalPrint host' depth j text m').2 := by
  have hagree := L.execute depth hij htext m m' hm
  rw [FrameLisp.readEvalPrint, FrameLisp.readEvalPrint]
  split
  · exact ⟨rfl, w, le_rfl, hm⟩
  · generalize FrameLisp.execute host depth i text m = r,
      FrameLisp.execute host' depth j text m' = r' at hagree
    cases hagree with
    | ok hw hm' hv =>
      refine ⟨?_, _, hw, hm'⟩
      dsimp only
      rw [Value.text, Value.text, hv.toDatum_eq]
    | error hw hm' => exact ⟨rfl, _, hw, hm'⟩

end Lockstep

/-- The answers to a sequence of requests, each a text together with the root to evaluate it in. -/
def replies {σ : Type} (host : Host σ) (depth : ℕ) :
    List (FrameId × String) → Machine σ → List (FrameId × String)
  | [], _ => []
  | (root, text) :: requests, m =>
    (root, (readEvalPrint host depth root text m).1) ::
      replies host depth requests (readEvalPrint host depth root text m).2

/-- **A sequence of texts gets the same answers** on machines that agree. -/
theorem Lockstep.replies_eq {σ τ W : Type} [Preorder W] {K : Coupling σ τ W} {host : Host σ}
    {host' : Host τ} (L : Lockstep K host host') (depth : ℕ) {w : W} {i j : FrameId}
    (hij : K.scope w i j) {texts : List String}
    (htexts : ∀ text ∈ texts, ∀ d, (Reading.ofText text).toExcept = .ok d →
      ∀ p ∈ d.parts, (K.corr w).AdmitsDatum p)
    {m : Machine σ} {m' : Machine τ} (hm : K.machine w m m') :
    (replies host depth (texts.map (i, ·)) m).map Prod.snd =
      (replies host' depth (texts.map (j, ·)) m').map Prod.snd := by
  induction texts generalizing w m m' with
  | nil => rfl
  | cons text texts ih =>
    obtain ⟨hanswer, w', hw, hm'⟩ :=
      L.readEvalPrint depth hij (htexts text List.mem_cons_self) hm
    have hrest := ih (L.scope_mono hw hij) (fun t ht d hd p hp =>
      (htexts t (List.mem_cons_of_mem _ ht) d hd p hp).mono (L.corr_mono hw)) hm'
    simp only [List.map_cons, replies, hanswer, hrest]

end FrameLisp
