import FrameLisp.Proofs.Eval.Lockstep
import Mathlib.Order.CompleteBooleanAlgebra
import Mathlib.Order.CompletePartialOrder

/-!
# Conditions that evaluation keeps

Some conditions on a machine do not depend on what values mention, only on the operations that a
machine goes through and on the frames that these are applied to. If the operations keep such a
condition, then so does every evaluation and every application, whether it gives a value or fails.

This is evaluation in lockstep with itself, where everything belongs to itself and there is nothing
to learn on the way. A condition that also restricts what values mention is a `Discipline`.

## Main definitions

* `Invariant` — a condition, and the frames in which evaluation may take place
* `Invariant.Stable` — the operations of a machine keep the condition

## Main results

* `Invariant.Stable.eval`, `Invariant.Stable.apply` — so do evaluation and application
-/

namespace FrameLisp

/-- Everything may occur and belongs to itself. -/
def Correspondence.same : Correspondence where
  frame := Eq
  identity := Eq
  atom _ := True
  name _ := True
  external := Eq

theorem Value.related_same_iff {v w : Value} : Related .same v w ↔ v = w := by
  constructor
  · intro h
    exact h.eq (fun _ _ => id) (fun _ _ => id) fun _ _ => id
  · rintro rfl
    refine related_self_iff.mpr fun p _ => ?_
    cases p <;> simp [Correspondence.Admits, Correspondence.same]

/-- A condition on machines, and the frames in which evaluation may take place. -/
structure Invariant (σ : Type) where
  /-- Frames in which evaluation may take place. -/
  scope : FrameId → Prop
  /-- The condition that is kept. -/
  machine : Machine σ → Prop

namespace Invariant

variable {σ : Type} (c : Invariant σ)

/-- The operations of a machine and the functions of the host keep the condition, and evaluation may
take place in new frames. -/
structure Stable (host : Host σ) : Prop where
  define : ∀ {m i}, c.machine m → c.scope i → ∀ name v,
    c.machine { m with store := m.store.define i name v }
  assign : ∀ {m i}, c.machine m → c.scope i → ∀ name v,
    c.machine { m with store := (m.store.assign i name v).2 }
  extend : ∀ {m}, c.machine m → ∀ i params args,
    c.scope m.store.size ∧ c.machine { m with store := m.store.extend i params args }
  advance : ∀ {m}, c.machine m → ∀ k, c.machine { m with supply := m.supply + k }
  call : ∀ {m}, c.machine m → ∀ ref args, c.machine (machineAfter (host.call ref args m))

/-- A machine agrees with itself if it fulfils the condition. -/
def coupling : Coupling σ σ Unit where
  corr _ := .same
  scope _ i j := i = j ∧ c.scope i
  machine _ m m' := m = m' ∧ c.machine m

variable {c}

/-- A computation stays in step with itself if and only if it keeps the condition. -/
theorem sync_self_iff {x : EvalM σ Value} : c.coupling.Sync () c.coupling.Values x x ↔
    ∀ m, c.machine m → c.machine (machineAfter (x m)) := by
  constructor
  · intro h m hm
    have hagree := h m m ⟨rfl, hm⟩
    generalize x m = r at hagree
    cases hagree with
    | ok _ hm' _ => exact hm'.2
    | error _ hm' => exact hm'.2
  · rintro h m _ ⟨rfl, hm⟩
    have hafter := h m hm
    cases hx : x m with
    | ok v m' =>
      rw [hx] at hafter
      exact .ok le_rfl ⟨rfl, hafter⟩ (Value.related_same_iff.mpr rfl)
    | error halt m' =>
      rw [hx] at hafter
      exact .error le_rfl ⟨rfl, hafter⟩

theorem forall₂_values_iff {vs ws : List Value} :
    List.Forall₂ (c.coupling.Values ()) vs ws ↔ vs = ws := by
  have hvalues : c.coupling.Values () = Eq := by
    funext v w
    exact propext Value.related_same_iff
  rw [hvalues, List.forall₂_eq_eq_eq]

namespace Stable

variable {host : Host σ}

theorem lockstep (h : c.Stable host) : Lockstep c.coupling host host where
  corr_mono _ := le_rfl
  scope_mono _ hij := hij
  frame_of_scope hij := hij.1
  lambda _ := trivial
  begin _ := trivial
  define_of_once _ := trivial
  unique _ _ := by
    constructor <;>
      exact ⟨fun _ _ _ hik hjk => hik.trans hjk.symm, fun _ _ _ hij hik => hij.symm.trans hik⟩
  lookup := by
    rintro _ m _ i _ name ⟨rfl, -⟩ ⟨rfl, -⟩ -
    cases m.store.lookup i name with
    | none => exact .none
    | some v => exact .some (Value.related_same_iff.mpr rfl)
  define := by
    rintro _ m _ i _ name v v' - ⟨rfl, hm⟩ ⟨rfl, hi⟩ - hv
    obtain rfl := Value.related_same_iff.mp hv
    exact ⟨rfl, h.define hm hi name v⟩
  assign := by
    rintro _ m _ i _ name v v' - ⟨rfl, hm⟩ ⟨rfl, hi⟩ - hv
    obtain rfl := Value.related_same_iff.mp hv
    exact ⟨rfl, rfl, h.assign hm hi name v⟩
  extend := by
    rintro _ m _ i _ params args args' ⟨rfl, hm⟩ rfl - hargs
    obtain rfl := forall₂_values_iff.mp hargs
    obtain ⟨hscope, hm'⟩ := h.extend hm i params args
    exact ⟨(), le_rfl, ⟨rfl, hscope⟩, rfl, hm'⟩
  advance := by
    rintro _ m _ ⟨rfl, hm⟩ k
    exact ⟨(), le_rfl, fun _ _ => rfl, rfl, h.advance hm k⟩
  call := by
    rintro _ ref _ args args' rfl hargs
    obtain rfl := forall₂_values_iff.mp hargs
    exact sync_self_iff.mpr fun m hm => h.call hm ref args

variable {depth : ℕ} {m : Machine σ}

/-- **Evaluation keeps every stable condition,** whether it gives a value or fails. -/
theorem eval (h : c.Stable host) (hm : c.machine m) (expr : Value) {env : FrameId}
    (henv : c.scope env) : c.machine (machineAfter (FrameLisp.eval host depth expr env m)) :=
  sync_self_iff.mp (h.lockstep.eval depth (Value.related_same_iff.mpr rfl) ⟨rfl, henv⟩) m hm

/-- **So does application.** It evaluates in new frames only, so no other frame needs to be one in
which evaluation may take place. -/
theorem apply (h : c.Stable host) (hm : c.machine m) (function : Value) (args : List Value) :
    c.machine (machineAfter (FrameLisp.apply host depth function args m)) :=
  sync_self_iff.mp (h.lockstep.applyValue (h.lockstep.eval depth) (Value.related_same_iff.mpr rfl)
    (forall₂_values_iff.mpr rfl)) m hm

end Stable

end Invariant

end FrameLisp
