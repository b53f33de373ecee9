import FrameLisp.Proofs.Eval.Congruence
import Mathlib.Data.Nat.Notation

/-!
# What evaluation comes to

Evaluation takes the depth to which it may be nested. More depth changes nothing about an outcome
once it is *finished*, that is, unless evaluation stopped because it was too deep. So an evaluation
comes to at most one outcome, and statements about outcomes need not mention how deep evaluation had
to go.

That one computation extends another one is a relation that evaluation builds up.

## Main definitions

* `Finished` — outcomes that do not depend on the depth
* `EvalM.Extends` — computations with the same finished outcomes, or more of them
* `Deepening` — computations that extend each other as the depth grows
* `Yields` — the outcome that computations come to if the depth suffices

## Main results

* `deepening_eval`, `deepening_apply` — more depth keeps finished outcomes
* `Deepening.yields_unique` — there is at most one outcome
* `Deepening.yields_congr` — computations that agree at large depths come to the same
-/

namespace FrameLisp

variable {σ α β : Type}

/-- The outcome is not that evaluation was too deep. -/
def Finished (r : EStateM.Result Halt (Machine σ) α) : Prop := ∀ m, r ≠ .error .exhausted m

/-- Wherever the outcome of `x` is finished, `y` has the same outcome. -/
def EvalM.Extends (x y : EvalM σ α) : Prop := ∀ m, Finished (x m) → y m = x m

/-- Computations, one for each depth, that keep finished outcomes as the depth grows. -/
def Deepening (x : ℕ → EvalM σ α) : Prop := ∀ d d', d ≤ d' → (x d).Extends (x d')

/-- The outcome that computations, one for each depth, come to on a machine. -/
def Yields (x : ℕ → EvalM σ α) (m : Machine σ) (r : EStateM.Result Halt (Machine σ) α) : Prop :=
  Finished r ∧ ∃ depth, x depth m = r

theorem finished_ok (a : α) (m : Machine σ) : Finished (.ok a m) := fun _ h => nomatch h

theorem finished_failed (e : Error) (m : Machine σ) :
    Finished (.error (.failed e) m : EStateM.Result Halt (Machine σ) α) := fun _ h => nomatch h

/-! ### More depth -/

theorem EvalM.Extends.bind {x y : EvalM σ α} {f g : α → EvalM σ β} (hxy : x.Extends y)
    (hfg : ∀ a, (f a).Extends (g a)) : (x >>= f).Extends (y >>= g) := by
  intro m hfinished
  have hfirst := hxy m
  cases hx : x m with
  | ok a m₁ =>
    rw [bind_of_ok hx] at hfinished ⊢
    rw [hx] at hfirst
    rw [bind_of_ok (hfirst (finished_ok a m₁))]
    exact hfg a m₁ hfinished
  | error halt m₁ =>
    -- if the first part stops, so does the sequence, with the same outcome
    rw [bind_of_error hx] at hfinished ⊢
    rw [hx] at hfirst
    exact bind_of_error (hfirst fun m' h => hfinished m' (by cases h; rfl))

/-- Extension is a relation that evaluation builds up. -/
theorem EvalM.congruence_extends (host : Host σ) : Congruence host fun x y => x.Extends y where
  total _ _ _ := rfl
  fail _ _ _ := rfl
  bind := Extends.bind
  call _ _ _ _ := rfl

/-- **More depth keeps finished outcomes** of evaluation. -/
theorem deepening_eval (host : Host σ) (expr : Value) (env : FrameId) :
    Deepening fun depth => eval host depth expr env := by
  intro d d' hd
  induction d generalizing d' expr env with
  | zero => exact fun m h => absurd rfl (h m)
  | succ d ih =>
    obtain ⟨d', rfl⟩ := Nat.exists_eq_add_of_le' (Nat.one_le_of_lt hd)
    exact (EvalM.congruence_extends host).step
      (fun v i => ih v i d' (Nat.le_of_succ_le_succ hd)) expr env

/-- **So it does of application.** -/
theorem deepening_apply (host : Host σ) (function : Value) (args : List Value) :
    Deepening fun depth => apply host depth function args :=
  fun d d' hd => (EvalM.congruence_extends host).applyValue
    (fun v i => deepening_eval host v i d d' hd) function args

theorem deepening_evalAll (host : Host σ) (env : FrameId) (exprs : List Value) :
    Deepening fun depth => Eval.evalAll (eval host depth) env exprs :=
  fun d d' hd => (EvalM.congruence_extends host).evalAll
    (fun v i => deepening_eval host v i d d' hd) env exprs

/-! ### Outcomes -/

namespace Deepening

variable {x : ℕ → EvalM σ α} {f : α → ℕ → EvalM σ β} {m : Machine σ}
  {r r' : EStateM.Result Halt (Machine σ) α}

theorem bind (hx : Deepening x) (hf : ∀ a, Deepening (f a)) :
    Deepening fun depth => x depth >>= fun a => f a depth :=
  fun d d' hd => (hx d d' hd).bind fun a => hf a d d' hd

/-- An outcome that computations come to is their outcome at all large depths. -/
theorem exists_forall_ge (hx : Deepening x) (h : Yields x m r) : ∃ n, ∀ d ≥ n, x d m = r := by
  obtain ⟨hfinished, n, hn⟩ := h
  refine ⟨n, fun d hd => ?_⟩
  rw [hx n d hd m (hn ▸ hfinished), hn]

/-- **There is at most one outcome.** -/
theorem yields_unique (hx : Deepening x) (h : Yields x m r) (h' : Yields x m r') : r = r' := by
  obtain ⟨n, hn⟩ := hx.exists_forall_ge h
  obtain ⟨n', hn'⟩ := hx.exists_forall_ge h'
  rw [← hn (max n n') (Nat.le_max_left _ _), hn' (max n n') (Nat.le_max_right _ _)]

/-- **Computations that agree at large depths come to the same,** where one side may need some more
depth than the other. -/
theorem yields_congr (hx : Deepening x) {y : ℕ → EvalM σ α} (hy : Deepening y) {m' : Machine σ}
    {n k : ℕ} (h : ∀ d ≥ n, x (d + k) m = y d m') : Yields x m r ↔ Yields y m' r := by
  constructor
  · intro hr
    obtain ⟨l, hl⟩ := hx.exists_forall_ge hr
    refine ⟨hr.1, max n l, ?_⟩
    rw [← h _ (Nat.le_max_left _ _)]
    exact hl _ (Nat.le_add_right_of_le (Nat.le_max_right _ _))
  · intro hr
    obtain ⟨l, hl⟩ := hy.exists_forall_ge hr
    refine ⟨hr.1, max n l + k, ?_⟩
    rw [h _ (Nat.le_max_left _ _)]
    exact hl _ (Nat.le_max_right _ _)

end Deepening

end FrameLisp
