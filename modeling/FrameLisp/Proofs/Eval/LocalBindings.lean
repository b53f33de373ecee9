import FrameLisp.Proofs.Eval.ApplyForm
import FrameLisp.Proofs.Eval.Order

/-!
# Local bindings

`(let ((s e) ...) body)` is evaluated as the call `((lambda (s ...) body) e ...)`: a function is
made on the spot, and applied to the values of the expressions. What the form comes to can be said
without the call. The expressions are evaluated from left to right in the frame of the form, and
then the body in a new frame inside it that has the symbols as names for the values. No expression
sees any of the names, and nothing but an expression or the body can fail.

The call, the function in it, its list of parameters and the closure are four new objects, so the
supply has moved on by four identities when the first expression is evaluated.

## Main definitions

* `LocalBinding` — a symbol with an expression, as it is written
* `bindingFault` — what is wrong with all other operands

## Main results

* `eval_letForm` — the form at a given depth
* `let_form_binds` — what the form comes to
-/

namespace FrameLisp

/-- A list of a symbol and an expression. -/
structure LocalBinding where
  list : Identity
  symbol : Identity
  name : String
  expr : Value

/-- A local binding as it is written. -/
def LocalBinding.form (b : LocalBinding) : Value := .list b.list [.symbol b.symbol b.name, b.expr]

namespace Derived

theorem bindingPairs?_map_form (bs : List LocalBinding) :
    bindingPairs? (bs.map LocalBinding.form) =
      some (bs.map fun b => (.symbol b.symbol b.name, b.expr)) := by
  induction bs with
  | nil => rfl
  | cons b bs ih => rw [List.map_cons, bindingPairs?, ih]; rfl

theorem exists_form_of_bindingPair? {v : Value} (h : bindingPair? v ≠ none) :
    ∃ b : LocalBinding, v = b.form := by
  rw [bindingPair?.eq_def] at h
  split at h
  next i j name e => exact ⟨⟨i, j, name, e⟩, rfl⟩
  next => exact absurd rfl h

/-- Lists of local bindings are the only ones that are accepted. -/
theorem exists_map_form_of_bindingPairs? {items : List Value} (h : bindingPairs? items ≠ none) :
    ∃ bs : List LocalBinding, items = bs.map LocalBinding.form := by
  induction items with
  | nil => exact ⟨[], rfl⟩
  | cons v vs ih =>
    rw [bindingPairs?] at h
    split at h
    next p ps hv hvs =>
      obtain ⟨b, rfl⟩ := exists_form_of_bindingPair? (by rw [hv]; exact Option.some_ne_none p)
      obtain ⟨bs, rfl⟩ := ih (by rw [hvs]; exact Option.some_ne_none ps)
      exact ⟨b :: bs, rfl⟩
    next => exact absurd rfl h

end Derived

variable {σ : Type} {host : Host σ} {env : FrameId} {m : Machine σ}

/-- The form at a given depth is the call of a closure that is made on the spot. -/
theorem eval_letForm (id i : Identity) (bs : List LocalBinding) (body : Value) (depth : ℕ) :
    eval host (depth + 4)
      (.list id [.atom (.form .letForm), .list i (bs.map LocalBinding.form), body]) env m =
      (Eval.evalAll (eval host (depth + 2)) env (bs.map LocalBinding.expr) >>=
        apply host (depth + 2)
          (.closure (m.supply + 3) env (bs.map LocalBinding.name) body))
        { m with supply := m.supply + 4 } := by
  have hnames : Eval.paramNames (bs.map fun b => .symbol b.symbol b.name) =
      .ok (bs.map LocalBinding.name) := paramNames_map_symbol _ _ bs
  rw [eval_special, Eval.special, Derived.bindingPairs?_map_form]
  change eval host (depth + 3) (.list m.supply (.list (m.supply + 1) [_, .list _ _, body] :: _)) env
    { m with supply := m.supply + 3 } = _
  rw [List.map_map, List.map_map]
  exact eval_application (eval_lambda hnames _ _ body depth) rfl _ _

/-- What the form comes to, in terms of its parts. -/
theorem evaluates_letForm_iff (id i : Identity) (bs : List LocalBinding) (body : Value)
    {r : EStateM.Result Halt (Machine σ) Value} :
    Evaluates host env
        (.list id [.atom (.form .letForm), .list i (bs.map LocalBinding.form), body]) m r ↔
      AndThen (EvaluatesAll host env (bs.map LocalBinding.expr))
        (InScope env (bs.map LocalBinding.name) fun scope => Evaluates host scope body)
        { m with supply := m.supply + 4 } r := by
  have hlength : (bs.map LocalBinding.name).length = (bs.map LocalBinding.expr).length := by
    rw [List.length_map, List.length_map]
  rw [← yields_call_closure_iff hlength (m.supply + 3) body]
  -- the call is two evaluations further down
  refine (deepening_eval host _ env).yields_congr (deepening_call host env _ _)
    (n := 2) (k := 2) fun d hd => ?_
  obtain ⟨d, rfl⟩ := Nat.exists_eq_add_of_le' hd
  exact eval_letForm id i bs body d

/-- What is wrong with operands that are not a list of local bindings and a body. -/
def bindingFault : List Value → ArgumentFault
  | [bindings, _] =>
    match bindings with
    | .list .. => .bindingPair
    | _ => .bindingList
  | _ => .count 2

theorem eval_letForm_malformed {operands : List Value}
    (h : ∀ i (bs : List LocalBinding) body, operands ≠ [.list i (bs.map LocalBinding.form), body])
    (id : Identity) (depth : ℕ) :
    eval host (depth + 2) (.list id (.atom (.form .letForm) :: operands)) env m =
      .error (.failed (.invalidArguments "let" (bindingFault operands))) m := by
  rcases operands with _ | ⟨bindings, _ | ⟨body, _ | _⟩⟩
  · rfl
  · rfl
  · cases bindings with
    | list i items =>
      rw [eval_special, Eval.special]
      cases hpairs : Derived.bindingPairs? items with
      | none => rfl
      | some pairs =>
        obtain ⟨bs, rfl⟩ := Derived.exists_map_form_of_bindingPairs?
          (hpairs ▸ Option.some_ne_none pairs)
        exact absurd rfl (h i bs body)
    | _ => rfl
  · rfl

/-- **Local bindings.** Consider the form of local bindings with any operands.

* If they are a list of symbols with expressions, and a body, then the form comes to what one gets
  by evaluating the expressions from left to right in the frame of the form, and then the body in a
  new frame inside it that has the symbols as names for the values. The last binding of a repeated
  name wins. In particular, a halt is that of an expression, in the frame of the form, or that of
  the body.
* If they are anything else, then the form fails because of its operands, and changes nothing. -/
theorem let_form_binds (host : Host σ) (env : FrameId) (m : Machine σ) (id : Identity)
    (operands : List Value) (r : EStateM.Result Halt (Machine σ) Value) :
    let form : Value := .list id (.atom (.form .letForm) :: operands)
    (∀ i (bs : List LocalBinding) body, operands = [.list i (bs.map LocalBinding.form), body] →
      (Evaluates host env form m r ↔
        AndThen (EvaluatesAll host env (bs.map LocalBinding.expr))
          (InScope env (bs.map LocalBinding.name) fun scope => Evaluates host scope body)
          { m with supply := m.supply + 4 } r) ∧
      ∀ halt m₁, r = .error halt m₁ → Evaluates host env form m r →
        (∃ b ∈ bs, ∃ m', Evaluates host env b.expr m' r) ∨
          ∃ scope m', Evaluates host scope body m' r) ∧
    ((∀ i (bs : List LocalBinding) body, operands ≠ [.list i (bs.map LocalBinding.form), body]) →
      (Evaluates host env form m r ↔
        r = .error (.failed (.invalidArguments "let" (bindingFault operands))) m)) := by
  intro form
  refine ⟨?_, fun hother => ?_⟩
  · rintro i bs body rfl
    have hdirect : Evaluates host env form m r ↔ _ := evaluates_letForm_iff id i bs body
    refine ⟨hdirect, ?_⟩
    rintro halt m₁ rfl hform
    obtain ⟨-, f, -, hbody⟩ | hexprs := hdirect.mp hform
    · exact .inr ⟨_, _, hbody⟩
    · obtain ⟨e, he, hhalt⟩ := hexprs.exists_of_halted
      obtain ⟨b, hb, rfl⟩ := List.mem_map.mp he
      exact .inl ⟨b, hb, hhalt⟩
  · have hfailed : Evaluates host env form m
        (.error (.failed (.invalidArguments "let" (bindingFault operands))) m) :=
      ⟨finished_failed _ _, 2, eval_letForm_malformed hother id 0⟩
    refine ⟨fun hform => (deepening_eval host form env).yields_unique hform hfailed, ?_⟩
    rintro rfl
    exact hfailed

/-- A name that is bound twice, the second time to what it stands for outside. Neither expression
sees the first binding, and the second one wins. Where a list of bindings is missing, the form
fails. -/
theorem let_form_binds_twice :
    let m : Machine Unit := ⟨⟨#[⟨.ofList [("x", .list 9 [])], none⟩]⟩, 20, ()⟩
    let bs : List LocalBinding := [⟨1, 2, "x", .bool true⟩, ⟨3, 4, "x", .symbol 5 "x"⟩]
    let body : Value := .symbol 6 "x"
    Evaluates .empty 0
      (.list 7 [.atom (.form .letForm), .list 8 (bs.map LocalBinding.form), body]) m
      (.ok (.list 9 []) ⟨m.store.extend 0 ["x", "x"] [.bool true, .list 9 []], 24, ()⟩) ∧
    Evaluates .empty 0 (.list 7 [.atom (.form .letForm), .bool true, body]) m
      (.error (.failed (.invalidArguments "let" .bindingList)) m) := by
  intro m bs body
  obtain ⟨hform, -⟩ := let_form_binds .empty 0 m 7 [.list 8 (bs.map LocalBinding.form), body]
    (.ok (.list 9 []) ⟨m.store.extend 0 ["x", "x"] [.bool true, .list 9 []], 24, ()⟩)
  obtain ⟨-, hwrong⟩ := let_form_binds .empty 0 m 7 [.bool true, body]
    (.error (.failed (.invalidArguments "let" .bindingList)) m)
  have hexprs : EvaluatesAll .empty 0 (bs.map LocalBinding.expr) { m with supply := 24 }
      (.ok [.bool true, .list 9 []] { m with supply := 24 }) :=
    .cons ⟨finished_ok _ _, 1, rfl⟩ (.cons ⟨finished_ok _ _, 1, rfl⟩ (.nil _))
  refine ⟨(hform 8 bs body rfl).1.mpr (.ok hexprs ⟨_, Frame.names_iff.mpr rfl, ?_⟩), ?_⟩
  · exact ⟨finished_ok _ _, 1, rfl⟩
  · exact (hwrong fun i bs body h => nomatch h).mpr rfl

end FrameLisp
