import FrameLisp.Proofs.Eval.Depth

/-!
# Evaluation in order

What an expression comes to is said here without a depth, and so is what comes of several
expressions, one evaluated after the other. The rules are those that one would give first:
expressions are evaluated from left to right, each on the machine that the one before left behind,
and the first one that halts ends it all, with its effects kept. What is then done with the values
takes place in the frame given for it, which may be a new one with names for the values.

The forms that introduce names can be described in these terms, without the forms that they are
rewritten to.

## Main definitions

* `Evaluates`, `EvaluatesAll`, `EvaluatesLast` — what one expression, or several, come to
* `AndThen` — one thing after another, unless the first one halts
* `Frame.Names`, `InScope` — a new frame with names for values, and what takes place in it

## Main results

* `Deepening.yields_bind_iff` — computations in sequence
* `yields_evalAll_iff`, `yields_evalSequence_iff` — expressions in sequence
* `yields_newScope_iff` — a computation in a new frame
* `yields_call_closure_iff`, `yields_call_closure_iff_of_ne` — the call of a closure
-/

namespace FrameLisp

variable {σ α β : Type} {host : Host σ} {env : FrameId}

/-! ### Outcomes -/

/-- One thing is done after another, and gets its value. If the first one halts, nothing follows. -/
inductive AndThen (first : Machine σ → EStateM.Result Halt (Machine σ) α → Prop)
    (next : α → Machine σ → EStateM.Result Halt (Machine σ) β → Prop) :
    Machine σ → EStateM.Result Halt (Machine σ) β → Prop where
  | ok {m m₁ : Machine σ} {a : α} {r : EStateM.Result Halt (Machine σ) β}
    (hfirst : first m (.ok a m₁)) (hnext : next a m₁ r) : AndThen first next m r
  | halted {m m₁ : Machine σ} {halt : Halt} (hfirst : first m (.error halt m₁)) :
    AndThen first next m (.error halt m₁)

/-- What an expression, evaluated in a frame, comes to. -/
def Evaluates (host : Host σ) (env : FrameId) (expr : Value) (m : Machine σ)
    (r : EStateM.Result Halt (Machine σ) Value) : Prop :=
  Yields (fun depth => eval host depth expr env) m r

/-- What expressions, evaluated in a frame from left to right, come to: all their values, or the
first halt. -/
inductive EvaluatesAll (host : Host σ) (env : FrameId) :
    List Value → Machine σ → EStateM.Result Halt (Machine σ) (List Value) → Prop where
  | nil (m : Machine σ) : EvaluatesAll host env [] m (.ok [] m)
  | cons {e v : Value} {es vs : List Value} {m m₁ m₂ : Machine σ}
    (he : Evaluates host env e m (.ok v m₁)) (hes : EvaluatesAll host env es m₁ (.ok vs m₂)) :
    EvaluatesAll host env (e :: es) m (.ok (v :: vs) m₂)
  | halted {e : Value} {m m₁ : Machine σ} {halt : Halt} (es : List Value)
    (he : Evaluates host env e m (.error halt m₁)) :
    EvaluatesAll host env (e :: es) m (.error halt m₁)
  | later {e v : Value} {es : List Value} {m m₁ m₂ : Machine σ} {halt : Halt}
    (he : Evaluates host env e m (.ok v m₁)) (hes : EvaluatesAll host env es m₁ (.error halt m₂)) :
    EvaluatesAll host env (e :: es) m (.error halt m₂)

/-- What expressions, evaluated in a frame from left to right, come to if only the last value is
kept. -/
def EvaluatesLast (host : Host σ) (env : FrameId) (exprs : List Value) :
    Machine σ → EStateM.Result Halt (Machine σ) Value → Prop :=
  AndThen (EvaluatesAll host env exprs) fun vs m r => ∃ v, vs.getLast? = some v ∧ r = .ok v m

/-- A frame inside another one that has names for values and nothing else. If a name is repeated,
the last one counts. -/
structure Frame.Names (f : Frame) (env : FrameId) (names : List String) (vs : List Value) :
    Prop where
  outer : f.outer = some env
  get? : ∀ name, f.bindings.get? name = ((names.zip vs).reverse.find? (·.1 = name)).map Prod.snd

/-- What takes place in a new frame inside another one that has names for values. -/
def InScope (env : FrameId) (names : List String)
    (P : FrameId → Machine σ → EStateM.Result Halt (Machine σ) α → Prop) (vs : List Value)
    (m : Machine σ) (r : EStateM.Result Halt (Machine σ) α) : Prop :=
  ∃ f : Frame, f.Names env names vs ∧ P m.store.size { m with store := m.store.push f } r

/-! ### Computations in sequence -/

variable {m : Machine σ}

section

variable {first first' : Machine σ → EStateM.Result Halt (Machine σ) α → Prop}
  {next next' : α → Machine σ → EStateM.Result Halt (Machine σ) β → Prop}
  {r : EStateM.Result Halt (Machine σ) β}

theorem AndThen.imp (hfirst : ∀ r, first m r → first' m r)
    (hnext : ∀ a m₁, first m (.ok a m₁) → next a m₁ r → next' a m₁ r) (h : AndThen first next m r) :
    AndThen first' next' m r := by
  cases h with
  | ok ha hr => exact .ok (hfirst _ ha) (hnext _ _ ha hr)
  | halted hhalt => exact .halted (hfirst _ hhalt)

theorem andThen_congr (hfirst : ∀ r, first m r ↔ first' m r)
    (hnext : ∀ a m₁, first' m (.ok a m₁) → (next a m₁ r ↔ next' a m₁ r)) :
    AndThen first next m r ↔ AndThen first' next' m r :=
  ⟨.imp (fun r => (hfirst r).mp) fun a m₁ ha => (hnext a m₁ ((hfirst _).mp ha)).mp,
    .imp (fun r => (hfirst r).mpr) fun a m₁ ha => (hnext a m₁ ha).mpr⟩

end

theorem yields_pure_iff {a : α} {r : EStateM.Result Halt (Machine σ) α} :
    Yields (fun _ => (pure a : EvalM σ α)) m r ↔ r = .ok a m := by
  constructor
  · rintro ⟨-, depth, h⟩
    exact h.symm
  · rintro rfl
    exact ⟨finished_ok a m, 0, rfl⟩

theorem yields_fail_iff {e : Error} {r : EStateM.Result Halt (Machine σ) α} :
    Yields (fun _ => (EvalM.fail e : EvalM σ α)) m r ↔ r = .error (.failed e) m := by
  constructor
  · rintro ⟨-, depth, h⟩
    exact h.symm
  · rintro rfl
    exact ⟨finished_failed e m, 0, rfl⟩

/-- **Computations in sequence** come to what the second one comes to after the first one. -/
theorem Deepening.yields_bind_iff {x : ℕ → EvalM σ α} {f : α → ℕ → EvalM σ β} (hx : Deepening x)
    (hf : ∀ a, Deepening (f a)) {r : EStateM.Result Halt (Machine σ) β} :
    Yields (fun depth => x depth >>= fun a => f a depth) m r ↔
      AndThen (Yields x) (fun a => Yields (f a)) m r := by
  constructor
  · rintro ⟨hfinished, depth, h⟩
    change (x depth >>= fun a => f a depth) m = r at h
    cases hfirst : x depth m with
    | ok a m₁ =>
      rw [EvalM.bind_of_ok hfirst] at h
      exact .ok ⟨finished_ok a m₁, depth, hfirst⟩ ⟨hfinished, depth, h⟩
    | error halt m₁ =>
      rw [EvalM.bind_of_error hfirst] at h
      subst h
      exact .halted ⟨fun m' h => hfinished m' (by cases h; rfl), depth, hfirst⟩
  · rintro (⟨hfirst, hnext⟩ | hfirst)
    · -- both parts come to their outcomes at the larger of the two depths
      obtain ⟨n, hn⟩ := hx.exists_forall_ge hfirst
      obtain ⟨n', hn'⟩ := (hf _).exists_forall_ge hnext
      refine ⟨hnext.1, max n n', ?_⟩
      change (x _ >>= _) m = r
      rw [EvalM.bind_of_ok (hn _ (Nat.le_max_left n n'))]
      exact hn' _ (Nat.le_max_right n n')
    · obtain ⟨hfinished, depth, h⟩ := hfirst
      exact ⟨fun m' h => hfinished m' (by cases h; rfl), depth, EvalM.bind_of_error h⟩

theorem deepening_const (x : EvalM σ α) : Deepening fun _ => x := fun _ _ _ _ _ => rfl

/-- Every expression has a value. -/
theorem EvaluatesAll.length_eq {exprs vs : List Value} {m₁ : Machine σ}
    (h : EvaluatesAll host env exprs m (.ok vs m₁)) : vs.length = exprs.length := by
  induction exprs generalizing m vs with
  | nil => cases h; rfl
  | cons e es ih =>
    obtain _ | ⟨_, hes⟩ := h
    rw [List.length_cons, List.length_cons, ih hes]

/-- A halt is that of one of the expressions. -/
theorem EvaluatesAll.exists_of_halted {exprs : List Value} {halt : Halt} {m₁ : Machine σ}
    (h : EvaluatesAll host env exprs m (.error halt m₁)) :
    ∃ e ∈ exprs, ∃ m', Evaluates host env e m' (.error halt m₁) := by
  induction exprs generalizing m with
  | nil => cases h
  | cons e es ih =>
    obtain _ | _ | ⟨_, he⟩ | ⟨_, hes⟩ := h
    · exact ⟨e, List.mem_cons_self, m, he⟩
    · obtain ⟨e', he', hhalt⟩ := ih hes
      exact ⟨e', List.mem_cons_of_mem e he', hhalt⟩

/-- **Expressions in sequence,** with all their values. -/
theorem yields_evalAll_iff {exprs : List Value}
    {r : EStateM.Result Halt (Machine σ) (List Value)} :
    Yields (fun depth => Eval.evalAll (eval host depth) env exprs) m r ↔
      EvaluatesAll host env exprs m r := by
  induction exprs generalizing m r with
  | nil =>
    refine yields_pure_iff.trans ⟨?_, ?_⟩
    · rintro rfl
      exact .nil m
    · rintro ⟨⟩
      rfl
  | cons e es ih =>
    have hrest : ∀ v, Deepening fun depth =>
        Eval.evalAll (eval host depth) env es >>= fun vs => pure (v :: vs) := fun v =>
      (deepening_evalAll host env es).bind fun _ => deepening_const _
    refine ((deepening_eval host e env).yields_bind_iff hrest).trans ?_
    have hyields : ∀ v m r, Yields (fun depth =>
        Eval.evalAll (eval host depth) env es >>= fun vs => pure (v :: vs)) m r ↔
        AndThen (EvaluatesAll host env es) (fun vs m r => r = .ok (v :: vs) m) m r := fun v m r =>
      ((deepening_evalAll host env es).yields_bind_iff fun _ => deepening_const _).trans
        (andThen_congr (fun _ => ih) fun _ _ _ => yields_pure_iff)
    refine (andThen_congr (fun _ => Iff.rfl) fun v m₁ _ => hyields v m₁ r).trans ⟨?_, ?_⟩
    · rintro (⟨he, hes, rfl⟩ | he)
      · exact .cons he hes
      · exact .later he ‹_›
      · exact .halted es he
    · rintro (_ | ⟨he, hes⟩ | ⟨_, he⟩ | ⟨he, hes⟩)
      · exact .ok he (.ok hes rfl)
      · exact .halted he
      · exact .ok he (.halted hes)

theorem evaluatesLast_singleton {e : Value} {r : EStateM.Result Halt (Machine σ) Value} :
    EvaluatesLast host env [e] m r ↔ Evaluates host env e m r := by
  constructor
  · rintro (⟨hall, v, hlast, rfl⟩ | hall)
    · obtain _ | ⟨he, ⟨⟩⟩ := hall
      cases hlast
      exact he
    · obtain _ | _ | ⟨_, he⟩ | ⟨_, ⟨⟩⟩ := hall
      exact he
  · intro he
    cases r with
    | ok v m₁ => exact .ok (.cons he (.nil m₁)) ⟨v, rfl, rfl⟩
    | error halt m₁ => exact .halted (.halted [] he)

/-- Of several expressions in sequence, the first one is evaluated only for its effects. -/
theorem evaluatesLast_cons {e e' : Value} {es : List Value}
    {r : EStateM.Result Halt (Machine σ) Value} :
    EvaluatesLast host env (e :: e' :: es) m r ↔
      AndThen (Evaluates host env e) (fun _ => EvaluatesLast host env (e' :: es)) m r := by
  constructor
  · rintro (⟨hall, v, hlast, rfl⟩ | hall)
    · obtain _ | ⟨he, hes⟩ := hall
      refine .ok he (.ok hes ⟨v, ?_, rfl⟩)
      cases hes with
      | cons => exact hlast
    · obtain _ | _ | ⟨_, he⟩ | ⟨he, hes⟩ := hall
      · exact .halted he
      · exact .ok he (.halted hes)
  · rintro (⟨he, hes⟩ | he)
    · obtain ⟨hes, v, hlast, rfl⟩ | hes := hes
      · refine .ok (.cons he hes) ⟨v, ?_, rfl⟩
        cases hes with
        | cons => exact hlast
      · exact .halted (.later he hes)
    · exact .halted (.halted _ he)

theorem deepening_evalSequence (host : Host σ) (env : FrameId) (exprs : List Value) :
    Deepening fun depth => Eval.evalSequence (eval host depth) env exprs :=
  fun d d' hd => (EvalM.congruence_extends host).evalSequence
    (fun v i => deepening_eval host v i d d' hd) env exprs

/-- **Expressions in sequence,** with the last value. -/
theorem yields_evalSequence_iff (e : Value) (es : List Value)
    {r : EStateM.Result Halt (Machine σ) Value} :
    Yields (fun depth => Eval.evalSequence (eval host depth) env (e :: es)) m r ↔
      EvaluatesLast host env (e :: es) m r := by
  induction es generalizing e m r with
  | nil => exact evaluatesLast_singleton.symm
  | cons e' es ih =>
    rw [evaluatesLast_cons]
    exact ((deepening_eval host e env).yields_bind_iff fun _ =>
      deepening_evalSequence host env (e' :: es)).trans
        (andThen_congr (fun _ => Iff.rfl) fun _ _ _ => ih e')

/-! ### New frames -/

/-- The names and values determine the frame. -/
theorem Frame.names_iff {f : Frame} {names : List String} {vs : List Value} :
    f.Names env names vs ↔ f = ⟨.ofList (names.zip vs), some env⟩ := by
  constructor
  · rintro ⟨houter, hget⟩
    obtain ⟨bindings, outer⟩ := f
    obtain rfl : outer = some env := houter
    obtain rfl : bindings = .ofList (names.zip vs) :=
      Bindings.ext_get? fun name => (hget name).trans (Bindings.get?_ofList _ _).symm
    rfl
  · rintro rfl
    exact ⟨rfl, Bindings.get?_ofList _⟩

/-- **A computation in a new frame.** -/
theorem yields_newScope_iff {names : List String} {vs : List Value} {f : FrameId → ℕ → EvalM σ α}
    {r : EStateM.Result Halt (Machine σ) α} :
    Yields (fun depth => EvalM.newScope env names vs >>= fun scope => f scope depth) m r ↔
      InScope env names (fun scope => Yields (f scope)) vs m r := by
  simp only [InScope, Frame.names_iff, exists_eq_left]
  rfl

/-! ### Special forms and functions -/

/-- A special form gets its operands as they are written. -/
theorem eval_special (f : SpecialForm) (id : Identity) (operands : List Value) (depth : ℕ) :
    eval host (depth + 2) (.list id (.atom (.form f) :: operands)) env m =
      Eval.special (eval host (depth + 1)) f (.list id (.atom (.form f) :: operands)) operands env
        m := rfl

section

variable {frame : FrameId} {params : List String} {exprs vs : List Value}
  {r : EStateM.Result Halt (Machine σ) Value}

/-- A closure that is applied to as many values as it has parameters. -/
theorem yields_apply_closure_iff (h : params.length = vs.length) (id : Identity) (body : Value) :
    Yields (fun depth => apply host depth (.closure id frame params body) vs) m r ↔
      InScope frame params (fun scope => Evaluates host scope body) vs m r := by
  simp only [apply, Eval.applyValue, h, ne_eq, not_true_eq_false, if_false]
  exact yields_newScope_iff

/-- A closure that is applied to more values, or fewer. -/
theorem yields_apply_closure_iff_of_ne (h : params.length ≠ vs.length) (id : Identity)
    (body : Value) :
    Yields (fun depth => apply host depth (.closure id frame params body) vs) m r ↔
      r = .error (.failed (.arityMismatch params.length vs.length (.lambda params body.toDatum)))
        m := by
  simp only [apply, Eval.applyValue, h, ne_eq, not_false_eq_true, if_true]
  exact yields_fail_iff

theorem deepening_call (host : Host σ) (env : FrameId) (exprs : List Value) (function : Value) :
    Deepening fun depth => Eval.evalAll (eval host depth) env exprs >>= apply host depth function :=
  (deepening_evalAll host env exprs).bind (deepening_apply host function)

theorem yields_call_iff (function : Value) :
    Yields (fun depth => Eval.evalAll (eval host depth) env exprs >>= apply host depth function)
      m r ↔
      AndThen (EvaluatesAll host env exprs)
        (fun vs => Yields fun depth => apply host depth function vs) m r :=
  ((deepening_evalAll host env exprs).yields_bind_iff (deepening_apply host function)).trans
    (andThen_congr (fun _ => yields_evalAll_iff) fun _ _ _ => Iff.rfl)

/-- **The call of a closure** with as many expressions as it has parameters. -/
theorem yields_call_closure_iff (h : params.length = exprs.length) (id : Identity) (body : Value) :
    Yields (fun depth => Eval.evalAll (eval host depth) env exprs >>=
        apply host depth (.closure id frame params body)) m r ↔
      AndThen (EvaluatesAll host env exprs)
        (InScope frame params fun scope => Evaluates host scope body) m r :=
  (yields_call_iff _).trans <| andThen_congr (fun _ => Iff.rfl) fun _ _ hall =>
    yields_apply_closure_iff (h.trans hall.length_eq.symm) id body

/-- **The call of a closure** with more expressions, or fewer. They are all evaluated. -/
theorem yields_call_closure_iff_of_ne (h : params.length ≠ exprs.length) (id : Identity)
    (body : Value) :
    Yields (fun depth => Eval.evalAll (eval host depth) env exprs >>=
        apply host depth (.closure id frame params body)) m r ↔
      AndThen (EvaluatesAll host env exprs) (fun _ m₁ r => r = .error (.failed
        (.arityMismatch params.length exprs.length (.lambda params body.toDatum))) m₁) m r := by
  refine (yields_call_iff _).trans (andThen_congr (fun _ => Iff.rfl) fun vs m₁ hall => ?_)
  rw [← hall.length_eq] at h ⊢
  exact yields_apply_closure_iff_of_ne h id body

end

theorem paramNames_map_symbol {ι : Type} (id : ι → Identity) (name : ι → String) (l : List ι) :
    Eval.paramNames (l.map fun a => .symbol (id a) (name a)) = .ok (l.map name) := by
  induction l with
  | nil => rfl
  | cons a l ih => rw [List.map_cons, Eval.paramNames, ih]; rfl

/-- A `lambda` form makes a closure in the frame where it is evaluated. -/
theorem eval_lambda {params : List Value} {names : List String}
    (h : Eval.paramNames params = .ok names) (i j : Identity) (body : Value) (depth : ℕ) :
    eval host (depth + 2) (.list i [.atom (.form .lambda), .list j params, body]) env m =
      .ok (.closure m.supply env names body) { m with supply := m.supply + 1 } := by
  rw [eval_special, Eval.special, h]
  rfl

end FrameLisp
