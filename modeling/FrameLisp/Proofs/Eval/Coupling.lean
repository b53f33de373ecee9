import FrameLisp.Eval.Basic
import FrameLisp.Proofs.Eval.Outcome
import FrameLisp.Proofs.Store.Similar

/-!
# Coupled computations

Two computations are in step when, started on machines that agree, they stop in the same way: both
with corresponding results, or both with the same error, and on machines that agree again. What it
means to agree is left open here. A *coupling* says it, relative to a *world*: what is known about
the two machines so far. Worlds grow while the computations run, as frames and identities are
created on both sides.

Taking a coupling of a machine with itself turns this into a statement about one computation: that
it keeps an invariant. The world is then something that can be read off the machine.

The conditions under which a whole evaluation stays in step are collected in `Lockstep`: what the
coupling has to say about looking up, binding, calling and drawing identities. Every property of
evaluation that speaks of all its steps is an instance.

## Main definitions

* `Coupling` — what it means for machines to agree
* `Coupling.Sync` — computations that stay in step
* `Coupling.Keeps` — outcomes of one computation that keep an invariant
* `Lockstep` — a coupling that evaluation respects

## Main results

* `Coupling.Sync.bind` — sequences stay in step
* `Coupling.sync_self_iff` — what it is for a computation to stay in step with itself
* `Lockstep.draw` — drawing identities stays in step
-/

namespace FrameLisp

/-- The machine that a computation leaves behind. -/
def machineAfter {σ α : Type} : EStateM.Result Halt (Machine σ) α → Machine σ
  | .ok _ m | .error _ m => m

/-- What it means for two machines to agree, relative to a world. -/
structure Coupling (σ τ W : Type) where
  /-- What belongs together in a world, and what may occur. -/
  corr : W → Correspondence
  /-- Corresponding frames in which evaluation may take place. -/
  scope : W → FrameId → FrameId → Prop
  /-- Machines that agree. -/
  machine : W → Machine σ → Machine τ → Prop

namespace Coupling

variable {σ τ W α β γ δ : Type} [Preorder W] (K : Coupling σ τ W)

/-- Two outcomes agree: both are results that are related in some later world, or both are the same
halt. -/
inductive Agree (w : W) (Q : W → α → β → Prop) :
    EStateM.Result Halt (Machine σ) α → EStateM.Result Halt (Machine τ) β → Prop
  | ok {w' : W} {a : α} {b : β} {m : Machine σ} {m' : Machine τ} (hw : w ≤ w')
    (hm : K.machine w' m m') (hab : Q w' a b) : Agree w Q (.ok a m) (.ok b m')
  | error {w' : W} {halt : Halt} {m : Machine σ} {m' : Machine τ} (hw : w ≤ w')
    (hm : K.machine w' m m') : Agree w Q (.error halt m) (.error halt m')

/-- Two computations stay in step: on machines that agree, their outcomes agree. -/
def Sync (w : W) (Q : W → α → β → Prop) (x : EvalM σ α) (y : EvalM τ β) : Prop :=
  ∀ m m', K.machine w m m' → K.Agree w Q (x m) (y m')

/-- Values that correspond in a world. -/
def Values (w : W) : Value → Value → Prop := Value.Related (K.corr w)

/-- Two evaluators stay in step on corresponding expressions in corresponding scopes. -/
def Respects (recur : Value → FrameId → EvalM σ Value) (recur' : Value → FrameId → EvalM τ Value) :
    Prop :=
  ∀ {w v v' i j}, K.Values w v v' → K.scope w i j → K.Sync w K.Values (recur v i) (recur' v' j)

variable {K} {w : W} {Q : W → α → β → Prop} {R : W → γ → δ → Prop}

/-- Outcomes that agree leave machines behind that agree in some later world. -/
theorem Agree.machineAfter {r : EStateM.Result Halt (Machine σ) α}
    {r' : EStateM.Result Halt (Machine τ) β} (h : K.Agree w Q r r') :
    ∃ w', w ≤ w' ∧ K.machine w' (machineAfter r) (machineAfter r') := by
  cases h with
  | ok hw hm _ => exact ⟨_, hw, hm⟩
  | error hw hm => exact ⟨_, hw, hm⟩

namespace Sync

theorem pure {a : α} {b : β} (h : Q w a b) : K.Sync w Q (pure a) (pure b) :=
  fun _ _ hm => .ok le_rfl hm h

theorem throw (halt : Halt) : K.Sync w Q (throw halt) (throw halt) :=
  fun _ _ hm => .error le_rfl hm

theorem fail (e : Error) : K.Sync w Q (EvalM.fail e) (EvalM.fail e) := throw _

theorem fail_of_eq {e e' : Error} (h : e = e') : K.Sync w Q (EvalM.fail e) (EvalM.fail e') :=
  h ▸ fail e

/-- **Sequences stay in step.** -/
theorem bind {x : EvalM σ α} {y : EvalM τ β} {f : α → EvalM σ γ} {g : β → EvalM τ δ}
    (hxy : K.Sync w Q x y)
    (hfg : ∀ w', w ≤ w' → ∀ a b, Q w' a b → K.Sync w' R (f a) (g b)) :
    K.Sync w R (x >>= f) (y >>= g) := by
  intro m m' hm
  have hagree := hxy m m' hm
  change K.Agree w R (EStateM.bind x f m) (EStateM.bind y g m')
  rw [EStateM.bind, EStateM.bind]
  generalize x m = r, y m' = r' at hagree
  cases hagree with
  | ok hw hm' hab =>
    -- the world of the second part is later than that of the first
    have hrest := hfg _ hw _ _ hab _ _ hm'
    dsimp only
    generalize f _ _ = r, g _ _ = r' at hrest
    cases hrest with
    | ok hw' hm'' hcd => exact .ok (hw.trans hw') hm'' hcd
    | error hw' hm'' => exact .error (hw.trans hw') hm''
  | error hw hm' => exact .error hw hm'

/-- Results that need nothing of the machine. -/
theorem ofExcept {P : α → β → Prop} {x : Except Error α} {y : Except Error β} {f : α → EvalM σ γ}
    {g : β → EvalM τ δ} (hxy : SameFate P x y) (hfg : ∀ a b, P a b → K.Sync w R (f a) (g b)) :
    K.Sync w R (EvalM.ofExcept x >>= f) (EvalM.ofExcept y >>= g) := by
  cases hxy with
  | ok h => exact hfg _ _ h
  | error e => exact fail e

/-- Looking at the store. -/
theorem readStore {f : Store → α} {g : Store → β}
    (h : ∀ m m', K.machine w m m' → Q w (f m.store) (g m'.store)) :
    K.Sync w Q (EvalM.readStore f) (EvalM.readStore g) :=
  fun m m' hm => .ok le_rfl hm (h m m' hm)

/-- Changing the store. -/
theorem onStore {f : Store → α × Store} {g : Store → β × Store}
    (h : ∀ m m', K.machine w m m' → ∃ w', w ≤ w' ∧ Q w' (f m.store).1 (g m'.store).1 ∧
      K.machine w' { m with store := (f m.store).2 } { m' with store := (g m'.store).2 }) :
    K.Sync w Q (EvalM.onStore f) (EvalM.onStore g) := by
  intro m m' hm
  obtain ⟨w', hw, hab, hm'⟩ := h m m' hm
  exact .ok hw hm' hab

end Sync

/-! ### Computations in step with themselves -/

section

variable {world : Machine σ → W} {good : Machine σ → Prop} {allows : W → Value → Prop}

/-- The outcome of a computation that started on `m`: what can be read off the machine has grown,
the machine is good, and a value is allowed. -/
def Keeps (world : Machine σ → W) (good : Machine σ → Prop) (allows : W → Value → Prop)
    (m : Machine σ) : EStateM.Result Halt (Machine σ) Value → Prop
  | .ok v m' => world m ≤ world m' ∧ good m' ∧ allows (world m') v
  | .error _ m' => world m ≤ world m' ∧ good m'

theorem Keeps.machineAfter {m : Machine σ} {r : EStateM.Result Halt (Machine σ) Value}
    (h : Keeps world good allows m r) :
    world m ≤ world (machineAfter r) ∧ good (machineAfter r) := by
  cases r with
  | ok v m' => exact ⟨h.1, h.2.1⟩
  | error halt m' => exact h

/-- **A computation stays in step with itself** if and only if it keeps the machine good, where good
machines agree with themselves only. -/
theorem sync_self_iff {K : Coupling σ σ W} {x : EvalM σ Value}
    (hmachine : ∀ {w m m'}, K.machine w m m' ↔ m = m' ∧ world m = w ∧ good m)
    (hvalues : ∀ {w v}, K.Values w v v ↔ allows w v) :
    K.Sync w K.Values x x ↔ ∀ m, world m = w → good m → Keeps world good allows m (x m) := by
  constructor
  · rintro h m rfl hm
    have hagree := h m m (hmachine.mpr ⟨rfl, rfl, hm⟩)
    generalize x m = r at hagree
    cases hagree with
    | ok hw hm' hv =>
      obtain ⟨-, rfl, hgood⟩ := hmachine.mp hm'
      exact ⟨hw, hgood, hvalues.mp hv⟩
    | error hw hm' =>
      obtain ⟨-, rfl, hgood⟩ := hmachine.mp hm'
      exact ⟨hw, hgood⟩
  · intro h m m' hm
    obtain ⟨rfl, rfl, hgood⟩ := hmachine.mp hm
    have hkeeps := h m rfl hgood
    cases hx : x m with
    | ok v m' =>
      rw [hx] at hkeeps
      obtain ⟨hw, hm', hv⟩ := hkeeps
      exact .ok hw (hmachine.mpr ⟨rfl, rfl, hm'⟩) (hvalues.mpr hv)
    | error halt m' =>
      rw [hx] at hkeeps
      exact .error hkeeps.1 (hmachine.mpr ⟨rfl, rfl, hkeeps.2⟩)

end

end Coupling

/-- A coupling that evaluation respects. The clauses say what the operations of a machine have to
keep; the first ones are about worlds and about the primitives that derived forms are made of. -/
structure Lockstep {σ τ W : Type} [Preorder W] (K : Coupling σ τ W) (host : Host σ)
    (host' : Host τ) : Prop where
  corr_mono : ∀ {w w'}, w ≤ w' → K.corr w ≤ K.corr w'
  scope_mono : ∀ {w w' i j}, w ≤ w' → K.scope w i j → K.scope w' i j
  frame_of_scope : ∀ {w i j}, K.scope w i j → (K.corr w).frame i j
  lambda : ∀ w, (K.corr w).atom (.form .lambda)
  begin : ∀ w, (K.corr w).atom (.form .begin)
  define_of_once : ∀ {w}, (K.corr w).atom (.form .defineOnce) → (K.corr w).atom (.form .define)
  /-- Where objects can be told apart, they correspond one to one. -/
  unique : ∀ {w m m'}, K.machine w m m' → (K.corr w).atom (.builtin .identical) →
    Relator.BiUnique (K.corr w).identity ∧ Relator.BiUnique (K.corr w).external
  lookup : ∀ {w m m' i j name}, K.machine w m m' → K.scope w i j → (K.corr w).name name →
    Option.Rel (K.Values w) (m.store.lookup i name) (m'.store.lookup j name)
  define : ∀ {w m m' i j name v v'}, (K.corr w).atom (.form .define) → K.machine w m m' →
    K.scope w i j → (K.corr w).name name → K.Values w v v' →
    K.machine w { m with store := m.store.define i name v }
      { m' with store := m'.store.define j name v' }
  assign : ∀ {w m m' i j name v v'}, (K.corr w).atom (.form .set) → K.machine w m m' →
    K.scope w i j → (K.corr w).name name → K.Values w v v' →
    (m.store.assign i name v).1 = (m'.store.assign j name v').1 ∧
    K.machine w { m with store := (m.store.assign i name v).2 }
      { m' with store := (m'.store.assign j name v').2 }
  extend : ∀ {w m m' i j params args args'}, K.machine w m m' → (K.corr w).frame i j →
    (∀ p ∈ params, (K.corr w).name p) → List.Forall₂ (K.Values w) args args' →
    ∃ w', w ≤ w' ∧ K.scope w' m.store.size m'.store.size ∧
      K.machine w' { m with store := m.store.extend i params args }
        { m' with store := m'.store.extend j params args' }
  advance : ∀ {w m m'}, K.machine w m m' → ∀ k, ∃ w', w ≤ w' ∧
    (∀ l < k, (K.corr w').identity (m.supply + l) (m'.supply + l)) ∧
    K.machine w' { m with supply := m.supply + k } { m' with supply := m'.supply + k }
  call : ∀ {w r r' args args'}, (K.corr w).external r r' → List.Forall₂ (K.Values w) args args' →
    K.Sync w K.Values (host.call r args) (host'.call r' args')

namespace Lockstep

variable {σ τ W α β : Type} [Preorder W] {K : Coupling σ τ W} {host : Host σ} {host' : Host τ}
  {w w' : W} {v v' : Value} {vs vs' : List Value}

theorem mono (L : Lockstep K host host') (hw : w ≤ w') (h : K.Values w v v') : K.Values w' v v' :=
  Value.Related.mono (L.corr_mono hw) h

theorem mono_all (L : Lockstep K host host') (hw : w ≤ w')
    (h : List.Forall₂ (K.Values w) vs vs') : List.Forall₂ (K.Values w') vs vs' :=
  h.imp fun _ _ => L.mono hw

/-- **Drawing identities stays in step.** -/
theorem draw (L : Lockstep K host host') {f : ℕ → α × ℕ} {g : ℕ → β × ℕ} {Q : W → α → β → Prop}
    (k : ℕ) (hf : ∀ n, (f n).2 = n + k) (hg : ∀ n, (g n).2 = n + k)
    (h : ∀ w', w ≤ w' → ∀ n n', (∀ l < k, (K.corr w').identity (n + l) (n' + l)) →
      Q w' (f n).1 (g n').1) :
    K.Sync w Q (EvalM.draw f) (EvalM.draw g) := by
  intro m m' hm
  obtain ⟨w', hw, hids, hm'⟩ := L.advance hm k
  rw [← hf, ← hg] at hm'
  exact .ok hw hm' (h w' hw _ _ hids)

theorem newList (L : Lockstep K host host') (h : List.Forall₂ (K.Values w) vs vs') :
    K.Sync w K.Values (EvalM.newList vs) (EvalM.newList vs') :=
  L.draw 1 (fun _ => rfl) (fun _ => rfl) fun _ hw _ _ hids =>
    Value.related_list_iff.mpr ⟨hids 0 Nat.one_pos, L.mono_all hw h⟩

theorem newClosure (L : Lockstep K host host') {i j : FrameId} (hij : (K.corr w).frame i j)
    {params : List String} (hparams : ∀ p ∈ params, (K.corr w).name p) (h : K.Values w v v') :
    K.Sync w K.Values (EvalM.newClosure i params v) (EvalM.newClosure j params v') := by
  refine L.draw 1 (fun _ => rfl) (fun _ => rfl) fun w' hw n n' hids => ?_
  obtain ⟨hframe, -, -, hname, -⟩ := L.corr_mono hw
  exact .closure (hids 0 Nat.one_pos) (hframe _ _ hij) (fun p hp => hname p (hparams p hp))
    (L.mono hw h)

/-- Whether a name is visible. -/
theorem contains_eq (L : Lockstep K host host') {m : Machine σ} {m' : Machine τ} {i j : FrameId}
    {name : String} (hm : K.machine w m m') (hij : K.scope w i j) (hname : (K.corr w).name name) :
    m.store.contains i name = m'.store.contains j name := by
  rw [Store.contains_eq_isSome_lookup, Store.contains_eq_isSome_lookup]
  exact isSome_eq_of_rel (L.lookup hm hij hname)

end Lockstep

end FrameLisp
