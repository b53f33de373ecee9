import FrameLisp.Proofs.Eval.Lockstep
import FrameLisp.Proofs.Store.Vocabulary

/-!
# Invariants of evaluation

A *discipline* is a vocabulary together with the frames in which evaluation may take place and a
condition on the machine. If the operations of the machine uphold a discipline, so does every
evaluation, whether it gives a value or fails: the condition is kept, no frame is lost, and values
stay within the vocabulary.

This is evaluation in lockstep with itself, where the worlds are the sizes of the store.

## Main definitions

* `Discipline` — what evaluation may mention, where it may take place, and what it keeps
* `Discipline.Upholds` — outcomes that respect it
* `Discipline.Lawful` — a discipline that the operations of a machine respect

## Main results

* `Discipline.Lawful.eval`, `Discipline.Lawful.apply`, `Discipline.Lawful.execute`,
  `Discipline.Lawful.readEvalPrint` — so does evaluation
-/

namespace FrameLisp

@[simp] theorem Store.size_assign (s : Store) (i : FrameId) (name : String) (v : Value) :
    (s.assign i name v).2.size = s.size := by
  rw [assign]
  split
  · exact size_define ..
  · rfl

/-- What evaluation may mention, where it may take place, and what it keeps. -/
structure Discipline (σ : Type) extends Vocabulary where
  /-- Frames in which evaluation may take place. -/
  scope : FrameId → Prop
  /-- The condition that is kept. -/
  machine : Machine σ → Prop

namespace Discipline

open Vocabulary

variable {σ : Type} (d : Discipline σ)

/-- The outcome of a computation that started on `m` upholds the discipline: the condition is kept,
no frame is lost, and a value is allowed. -/
def Upholds (m : Machine σ) : EStateM.Result Halt (Machine σ) Value → Prop
  | .ok v m' => m.store.size ≤ m'.store.size ∧ d.machine m' ∧ d.Allows m'.store.size v
  | .error _ m' => m.store.size ≤ m'.store.size ∧ d.machine m'

variable {d} in
theorem upholds_iff_keeps {m : Machine σ} {r : EStateM.Result Halt (Machine σ) Value} :
    d.Upholds m r ↔ Coupling.Keeps (·.store.size) d.machine d.Allows m r := by
  cases r <;> rfl

variable {d} in
theorem Upholds.machineAfter {m : Machine σ} {r : EStateM.Result Halt (Machine σ) Value}
    (h : d.Upholds m r) :
    m.store.size ≤ (machineAfter r).store.size ∧ d.machine (machineAfter r) :=
  Coupling.Keeps.machineAfter (upholds_iff_keeps.mp h)

/-- A discipline that the operations of a machine and the functions of the host respect. -/
structure Lawful (host : Host σ) : Prop where
  frame_of_scope : ∀ {i}, d.scope i → d.frame i
  lambda : d.atom (.form .lambda)
  begin : d.atom (.form .begin)
  define_of_once : d.atom (.form .defineOnce) → d.atom (.form .define)
  lookup : ∀ {m i name v}, d.machine m → d.scope i → i < m.store.size → d.name name →
    m.store.lookup i name = some v → d.Allows m.store.size v
  define : ∀ {m i name v}, d.atom (.form .define) → d.machine m → d.scope i → i < m.store.size →
    d.name name → d.Allows m.store.size v →
    d.machine { m with store := m.store.define i name v }
  assign : ∀ {m i name v}, d.atom (.form .set) → d.machine m → d.scope i → i < m.store.size →
    d.name name → d.Allows m.store.size v →
    d.machine { m with store := (m.store.assign i name v).2 }
  extend : ∀ {m i params args}, d.machine m → d.frame i → i < m.store.size →
    (∀ p ∈ params, d.name p) → (∀ v ∈ args, d.Allows m.store.size v) →
    d.scope m.store.size ∧ d.machine { m with store := m.store.extend i params args }
  advance : ∀ {m}, d.machine m → ∀ k, d.machine { m with supply := m.supply + k }
  call : ∀ {m r args}, d.machine m → d.external r → (∀ v ∈ args, d.Allows m.store.size v) →
    d.Upholds m (host.call r args m)

/-! ### A machine in lockstep with itself -/

/-- A machine agrees with itself if it fulfils the condition. -/
def coupling : Coupling σ σ ℕ where
  corr := d.correspondence
  scope n i j := i = j ∧ d.scope i ∧ i < n
  machine n m m' := m = m' ∧ m.store.size = n ∧ d.machine m

variable {d} {n : ℕ} {v v' : Value} {vs vs' : List Value}

/-- A computation stays in step with itself if and only if its outcomes uphold the discipline. -/
theorem sync_self_iff {x : EvalM σ Value} : d.coupling.Sync n d.coupling.Values x x ↔
    ∀ m, m.store.size = n → d.machine m → d.Upholds m (x m) := by
  simp only [upholds_iff_keeps]
  exact Coupling.sync_self_iff Iff.rfl related_self_iff_allows

namespace Lawful

variable {host : Host σ}

theorem lockstep (h : d.Lawful host) : Lockstep d.coupling host host where
  corr_mono hn := ⟨fun _ _ hij => ⟨hij.1, hij.2.1, hij.2.2.trans_le hn⟩, le_rfl, le_rfl, le_rfl,
    le_rfl⟩
  scope_mono hn hij := ⟨hij.1, hij.2.1, hij.2.2.trans_le hn⟩
  frame_of_scope hij := ⟨hij.1, h.frame_of_scope hij.2.1, hij.2.2⟩
  lambda _ := h.lambda
  begin _ := h.begin
  define_of_once := h.define_of_once
  unique _ _ := by
    refine ⟨⟨fun _ _ _ hik hjk => hik.trans hjk.symm, fun _ _ _ hij hik => hij.symm.trans hik⟩, ?_⟩
    exact ⟨fun _ _ _ hik hjk => hik.1.trans hjk.1.symm, fun _ _ _ hij hik => hij.1.symm.trans hik.1⟩
  lookup := by
    rintro _ m _ i _ name ⟨rfl, rfl, hm⟩ ⟨rfl, hi, hlt⟩ hname
    cases hlookup : m.store.lookup i name with
    | none => exact .none
    | some v => exact .some (related_self_iff_allows.mpr (h.lookup hm hi hlt hname hlookup))
  define := by
    rintro _ m _ i _ name v v' hatom ⟨rfl, rfl, hm⟩ ⟨rfl, hi, hlt⟩ hname hv
    obtain ⟨rfl, hallowed⟩ := allows_of_related hv
    exact ⟨rfl, Store.size_define .., h.define hatom hm hi hlt hname hallowed⟩
  assign := by
    rintro _ m _ i _ name v v' hatom ⟨rfl, rfl, hm⟩ ⟨rfl, hi, hlt⟩ hname hv
    obtain ⟨rfl, hallowed⟩ := allows_of_related hv
    exact ⟨rfl, rfl, Store.size_assign .., h.assign hatom hm hi hlt hname hallowed⟩
  extend := by
    rintro _ m _ i _ params args args' ⟨rfl, rfl, hm⟩ ⟨rfl, hi, hlt⟩ hparams hargs
    obtain ⟨rfl, hallowed⟩ := allows_of_forall₂ hargs
    obtain ⟨hscope, hm'⟩ := h.extend hm hi hlt hparams hallowed
    exact ⟨_, Nat.le_succ _, ⟨rfl, hscope, Nat.lt_succ_self _⟩, rfl, Store.size_push .., hm'⟩
  advance := by
    rintro _ m _ ⟨rfl, rfl, hm⟩ k
    exact ⟨_, le_rfl, fun _ _ => rfl, rfl, rfl, h.advance hm k⟩
  call := by
    rintro _ r _ args args' ⟨rfl, hr⟩ hargs
    obtain ⟨rfl, hallowed⟩ := allows_of_forall₂ hargs
    exact sync_self_iff.mpr fun m hn hm => h.call hm hr (hn ▸ hallowed)

variable {depth : ℕ} {m : Machine σ} {i : FrameId}

/-- **Evaluation upholds every lawful discipline,** whether it gives a value or fails. -/
theorem eval (h : d.Lawful host) (hm : d.machine m) (hv : d.Allows m.store.size v)
    (hi : d.scope i) (hlt : i < m.store.size) :
    d.Upholds m (FrameLisp.eval host depth v i m) :=
  sync_self_iff.mp (h.lockstep.eval depth (related_self_iff_allows.mpr hv) ⟨rfl, hi, hlt⟩) m rfl hm

/-- **So does application.** -/
theorem apply (h : d.Lawful host) (hm : d.machine m) (hv : d.Allows m.store.size v)
    (hvs : ∀ w ∈ vs, d.Allows m.store.size w) :
    d.Upholds m (FrameLisp.apply host depth v vs m) :=
  sync_self_iff.mp (h.lockstep.applyValue (h.lockstep.eval depth) (related_self_iff_allows.mpr hv)
    (List.forall₂_same.mpr fun w hw => related_self_iff_allows.mpr (hvs w hw))) m rfl hm

/-- **So does reading and evaluating a text,** if what the text says may occur. -/
theorem execute (h : d.Lawful host) (hm : d.machine m) (hi : d.scope i) (hlt : i < m.store.size)
    {text : String} (htext : ∀ f, (Reading.ofText text).toExcept = .ok f →
      ∀ p ∈ f.parts, (d.correspondence m.store.size).AdmitsDatum p) :
    d.Upholds m (FrameLisp.execute host depth i text m) :=
  sync_self_iff.mp (h.lockstep.execute depth ⟨rfl, hi, hlt⟩ htext) m rfl hm

/-- **So does answering a text,** if what the text says may occur. -/
theorem readEvalPrint (h : d.Lawful host) (hm : d.machine m) (hi : d.scope i)
    (hlt : i < m.store.size) {text : String}
    (htext : ∀ f, (Reading.ofText text).toExcept = .ok f →
      ∀ p ∈ f.parts, (d.correspondence m.store.size).AdmitsDatum p) :
    d.machine (FrameLisp.readEvalPrint host depth i text m).2 := by
  obtain ⟨-, _, -, -, -, hm'⟩ := h.lockstep.readEvalPrint depth ⟨rfl, hi, hlt⟩ htext ⟨rfl, rfl, hm⟩
  exact hm'

end Lawful

end Discipline

end FrameLisp
