import FrameLisp.Proofs.Eval.Depth

/-!
# The form that applies a function to a list

`(apply f xs)` evaluates `xs` to a list of values and `f` to a function. It then makes a call of the
function with the values as operands, and evaluates the call. The values are thus evaluated once
more, in the same frame, before the function is applied to what comes of them.

Values that stand for themselves are not changed by that, and then the form hands over the values:
it comes to the same as applying the function to them directly. These are all values but symbols and
lists that are not empty. A symbol is looked up, and a list is taken for an application.

The call is a new list, and takes one identity from the supply.

## Main definitions

* `Value.isFunction` — what can be applied to values
* `Value.isSelfEvaluating` — what stands for itself

## Main results

* `eval_application` — applications whose head evaluates to a function
* `eval_applyForm` — the form at a given depth
* `apply_form_applies` — the form applies the function to the values, evaluated once more
* `apply_form_looks_up` — a symbol among the values is looked up
-/

namespace FrameLisp

namespace Value

/-- What can be applied to values: a closure, an external function or a builtin. -/
def isFunction : Value → Bool
  | .closure .. | .external _ | .atom (.builtin _) => true
  | _ => false

/-- What stands for itself: everything but symbols and lists that are not empty. -/
def isSelfEvaluating : Value → Bool
  | .symbol .. | .list _ (_ :: _) => false
  | _ => true

theorem isSelfEvaluating_of_isFunction {v : Value} (h : v.isFunction) : v.isSelfEvaluating := by
  cases v with
  | symbol | list => cases h
  | _ => rfl

end Value

variable {σ : Type} {host : Host σ} {env : FrameId} {m m₁ m₂ : Machine σ}

theorem eval_of_isSelfEvaluating {v : Value} (h : v.isSelfEvaluating) (depth : ℕ) :
    eval host (depth + 1) v env m = .ok v m := by
  cases v with
  | symbol => cases h
  | list id items =>
    cases items with
    | nil => rfl
    | cons => cases h
  | _ => rfl

theorem evalAll_of_isSelfEvaluating {vs : List Value} (h : ∀ v ∈ vs, v.isSelfEvaluating)
    (depth : ℕ) : Eval.evalAll (eval host (depth + 1)) env vs m = .ok vs m := by
  induction vs with
  | nil => rfl
  | cons v vs ih =>
    obtain ⟨hv, hvs⟩ := List.forall_mem_cons.mp h
    rw [Eval.evalAll, EvalM.bind_of_ok (eval_of_isSelfEvaluating hv depth),
      EvalM.bind_of_ok (ih hvs)]
    rfl

/-- If the head of an application evaluates to a function, the function is applied to the values of
the operands. -/
theorem eval_application {head g : Value} {depth : ℕ}
    (hhead : eval host depth head env m = .ok g m₁) (hg : g.isFunction) (id : Identity)
    (operands : List Value) :
    eval host (depth + 1) (.list id (head :: operands)) env m =
      (Eval.evalAll (eval host depth) env operands >>= apply host depth g) m₁ := by
  rw [eval, Eval.step, EvalM.bind_of_ok hhead]
  cases g with
  | atom p =>
    cases p with
    | builtin b => rfl
    | form f => cases hg
  | closure | external => rfl
  | _ => cases hg

/-- A function that has been evaluated already is applied to the values of the operands. -/
theorem eval_call {g : Value} (hg : g.isFunction) (depth : ℕ) (id : Identity)
    (operands : List Value) :
    eval host (depth + 2) (.list id (g :: operands)) env m =
      (Eval.evalAll (eval host (depth + 1)) env operands >>= apply host (depth + 1) g) m :=
  eval_application (eval_of_isSelfEvaluating (Value.isSelfEvaluating_of_isFunction hg) depth) hg id
    operands

/-- The form at a given depth. -/
theorem eval_applyForm {f xs g : Value} {vs : List Value} {i : Identity} {depth : ℕ}
    (hxs : eval host (depth + 2) xs env m = .ok (.list i vs) m₁)
    (hf : eval host (depth + 2) f env m₁ = .ok g m₂) (hg : g.isFunction) (id : Identity) :
    eval host (depth + 3) (.list id [.atom (.form .apply), f, xs]) env m =
      (Eval.evalAll (eval host (depth + 1)) env vs >>= apply host (depth + 1) g)
        { m₂ with supply := m₂.supply + 1 } := by
  rw [← eval_call hg depth m₂.supply vs]
  change (eval host (depth + 2) xs env >>= _) m = _
  rw [EvalM.bind_of_ok hxs]
  change (eval host (depth + 2) f env >>= _) m₁ = _
  rw [EvalM.bind_of_ok hf]
  rfl

/-- **The form applies the function to the values, evaluated once more.** Let `xs` evaluate to a
list of values and then `f` to a closure, an external function or a builtin. Evaluating
`(apply f xs)` comes to the same, on the same machine, as evaluating the values from left to right
in the frame of the form and applying the function to what they evaluate to. If each value stands
for itself, this is the same as applying the function to the values. -/
theorem apply_form_applies {f xs g : Value} {vs : List Value} {i : Identity}
    (hxs : Yields (fun depth => eval host depth xs env) m (.ok (.list i vs) m₁))
    (hf : Yields (fun depth => eval host depth f env) m₁ (.ok g m₂)) (hg : g.isFunction)
    (id : Identity) (r : EStateM.Result Halt (Machine σ) Value) :
    let form : Value := .list id [.atom (.form .apply), f, xs]
    let called : Machine σ := { m₂ with supply := m₂.supply + 1 }
    (Yields (fun depth => eval host depth form env) m r ↔
      Yields (fun depth => do
        let ws ← Eval.evalAll (eval host depth) env vs
        apply host depth g ws) called r) ∧
    ((∀ v ∈ vs, v.isSelfEvaluating) →
      (Yields (fun depth => eval host depth form env) m r ↔
        Yields (fun depth => apply host depth g vs) called r)) := by
  intro form called
  obtain ⟨n, hn⟩ := (deepening_eval host xs env).exists_forall_ge hxs
  obtain ⟨n', hn'⟩ := (deepening_eval host f env).exists_forall_ge hf
  have hform : ∀ d ≥ max n n' + 1, eval host (d + 2) form env m =
      (Eval.evalAll (eval host d) env vs >>= apply host d g) called := by
    intro d hd
    obtain ⟨d, rfl⟩ := Nat.exists_eq_add_of_le' (Nat.one_le_of_lt hd)
    exact eval_applyForm (hn (d + 2) (by omega)) (hn' (d + 2) (by omega)) hg id
  refine ⟨?_, fun hself => ?_⟩
  · exact (deepening_eval host form env).yields_congr
      ((deepening_evalAll host env vs).bind fun ws => deepening_apply host g ws) hform
  · refine (deepening_eval host form env).yields_congr (deepening_apply host g vs)
      (n := max n n' + 1) (k := 2) fun d hd => ?_
    obtain ⟨d, rfl⟩ := Nat.exists_eq_add_of_le' (Nat.one_le_of_lt hd)
    rw [hform _ hd, EvalM.bind_of_ok (evalAll_of_isSelfEvaluating hself d)]

/-- A closure that swaps two values, applied to a boolean and a closure that is made on the way. -/
theorem apply_form_applies_closure :
    let swap : Value :=
      .closure 0 0 ["a", "b"] (.list 1 [.atom (.builtin .list), .symbol 2 "b", .symbol 3 "a"])
    let m : Machine Unit := ⟨⟨#[⟨.ofList [("swap", swap)], none⟩]⟩, 20, ()⟩
    let xs : Value := .list 4 [.atom (.builtin .list), .bool true,
      .list 5 [.atom (.form .lambda), .list 6 [], .symbol 7 "c"]]
    let form : Value := .list 8 [.atom (.form .apply), .symbol 9 "swap", xs]
    let vs : List Value := [.bool true, .closure 20 0 [] (.symbol 7 "c")]
    swap.isFunction ∧ (∀ v ∈ vs, v.isSelfEvaluating) ∧
    Yields (fun depth => eval .empty depth form 0) m
      (.ok (.list 23 vs.reverse) ⟨m.store.extend 0 ["a", "b"] vs, 24, ()⟩) := by
  intro swap m xs form vs
  have hxs : Yields (fun depth => eval .empty depth xs 0) m
      (.ok (.list 21 vs) { m with supply := 22 }) := ⟨finished_ok _ _, 9, rfl⟩
  have hf : Yields (fun depth => eval .empty depth (.symbol 9 "swap") 0) { m with supply := 22 }
      (.ok swap { m with supply := 22 }) := ⟨finished_ok _ _, 9, rfl⟩
  have hself : ∀ v ∈ vs, v.isSelfEvaluating := by decide
  obtain ⟨-, hdirect⟩ := apply_form_applies hxs hf rfl 8 (.ok (.list 23 vs.reverse) _)
  exact ⟨rfl, hself, (hdirect hself).mpr ⟨finished_ok _ _, 9, rfl⟩⟩

/-- **A symbol among the values is looked up.** The list of the symbol `a` is quoted, so the values
are that symbol alone. The form finds nothing under the name, while the function itself takes the
symbol as it is. -/
theorem apply_form_looks_up :
    let m : Machine Unit := ⟨⟨#[⟨.ofList [], none⟩]⟩, 9, ()⟩
    let xs : Value := .list 1 [.atom (.form .quote), .list 2 [.symbol 0 "a"]]
    let form : Value := .list 3 [.atom (.form .apply), .atom (.builtin .list), xs]
    let called : Machine Unit := { m with supply := 10 }
    Yields (fun depth => eval .empty depth xs 0) m (.ok (.list 2 [.symbol 0 "a"]) m) ∧
    Yields (fun depth => eval .empty depth form 0) m
      (.error (.failed (.unknownSymbol "a")) called) ∧
    Yields (fun depth => apply .empty depth (.atom (.builtin .list)) [.symbol 0 "a"]) called
      (.ok (.list 10 [.symbol 0 "a"]) { m with supply := 11 }) ∧
    ¬ ∀ r, Yields (fun depth => eval .empty depth form 0) m r ↔
      Yields (fun depth => apply .empty depth (.atom (.builtin .list)) [.symbol 0 "a"]) called
        r := by
  intro m xs form called
  have hform : Yields (fun depth => eval .empty depth form 0) m
      (.error (.failed (.unknownSymbol "a")) called) := ⟨finished_failed _ _, 9, rfl⟩
  have happly : Yields (fun depth => apply .empty depth (.atom (.builtin .list)) [.symbol 0 "a"])
      called (.ok (.list 10 [.symbol 0 "a"]) { m with supply := 11 }) :=
    ⟨finished_ok _ _, 9, rfl⟩
  refine ⟨⟨finished_ok _ _, 9, rfl⟩, hform, happly, fun hsame => ?_⟩
  cases (deepening_eval .empty form 0).yields_unique hform ((hsame _).mpr happly)

end FrameLisp
