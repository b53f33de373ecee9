import FrameLisp.Proofs.Eval.Interleaving
import FrameLisp.Proofs.Snapshot.Replacing

/-!
# Identities in use

Symbols, lists and closures take their identities from the supply of the machine, which never goes
back. A machine without frames uses no identities. If those in use have been handed out, then so
have those in use after an evaluation, an application or the loading of a text, and those of the
value that comes out: whoever evaluates only what the machine has made never meets an identity
before it is handed out, or one identity twice.

For evaluation this is lockstep with itself once more, where the worlds are the states of the
supply. Restored values are instances of data, which take their identities one after the other.

## Main definitions

* `Value.Issued`, `Store.Issued` — only the first identities occur
* `Machine.Issues`, `Host.Issues` — outcomes and functions that use what was handed out

## Main results

* `Lockstep.issued` — evaluation respects the supply
* `Machine.HasIssued.eval`, `Machine.HasIssued.apply`, `Machine.HasIssued.execute`,
  `Machine.HasIssued.readEvalPrint` — identities in use stay handed out during evaluation
* `Machine.HasIssued.load`, `Machine.HasIssued.loadInto` — and when a text is loaded
-/

namespace FrameLisp

variable {σ : Type}

/-- Everything belongs to itself, and of the identities only the first `n` occur. -/
def Correspondence.issued (n : ℕ) : Correspondence where
  frame := Eq
  identity k l := k = l ∧ k < n
  atom _ := True
  name _ := True
  external := Eq

namespace Value

variable {n n' : ℕ} {v w : Value} {vs ws : List Value}

/-- A value in which only the first `n` identities occur. -/
def Issued (n : ℕ) (v : Value) : Prop := ∀ p ∈ v.parts, ∀ k ∈ p.identity?, k < n

theorem Issued.mono (h : v.Issued n) (hn : n ≤ n') : v.Issued n' :=
  fun p hp k hk => (h p hp k hk).trans_le hn

theorem admits_issued_iff (p : Value) :
    (Correspondence.issued n).Admits p ↔ ∀ k ∈ p.identity?, k < n := by
  cases p <;> simp [Correspondence.Admits, Correspondence.issued, identity?]

theorem related_issued_iff : Related (.issued n) v w ↔ v = w ∧ v.Issued n := by
  constructor
  · intro h
    obtain rfl : v = w := h.eq (fun _ _ => id) (fun _ _ => And.left) fun _ _ => id
    exact ⟨rfl, fun p hp => (admits_issued_iff p).mp (related_self_iff.mp h p hp)⟩
  · rintro ⟨rfl, h⟩
    exact related_self_iff.mpr fun p hp => (admits_issued_iff p).mpr (h p hp)

theorem forall₂_issued_iff :
    List.Forall₂ (Related (.issued n)) vs ws ↔ vs = ws ∧ ∀ v ∈ vs, v.Issued n := by
  constructor
  · intro h
    obtain rfl : vs = ws := by
      rw [← List.forall₂_eq_eq_eq]
      exact h.imp fun _ _ hvw => (related_issued_iff.mp hvw).1
    exact ⟨rfl, fun v hv => (related_issued_iff.mp (List.forall₂_same.mp h v hv)).2⟩
  · rintro ⟨rfl, h⟩
    exact List.forall₂_same.mpr fun v hv => related_issued_iff.mpr ⟨rfl, h v hv⟩

/-- **An instance takes its identities from the supply.** -/
theorem issued_instantiate (d : Datum) (n : ℕ) :
    n ≤ (instantiate d n).2 ∧ (instantiate d n).1.Issued (instantiate d n).2 := by
  rw [instantiate_snd d n]
  have hself : Related (.issued (n + (instantiate d 0).2)) (instantiate d n).1
      (instantiate d n).1 :=
    related_instances (fun p _ => by cases p <;> trivial) fun _ hl =>
      ⟨rfl, Nat.add_lt_add_left hl n⟩
  exact ⟨Nat.le_add_right .., (related_issued_iff.mp hself).2⟩

end Value

namespace Store

variable {s : Store} {n n' : ℕ} {i target : FrameId} {name : String} {v : Value}

/-- A store in which only the first `n` identities occur. -/
def Issued (n : ℕ) (s : Store) : Prop := ∀ i, ∀ e ∈ (s.bindings i).entries, e.2.Issued n

theorem issued_iff_frame? :
    s.Issued n ↔ ∀ i f, s.frame? i = some f → ∀ e ∈ f.bindings.entries, e.2.Issued n := by
  refine forall_congr' fun i => ?_
  rw [bindings]
  cases s.frame? i with
  | none =>
    exact iff_of_true (fun _ he => absurd he List.not_mem_nil)
      fun f hf => absurd hf.symm (Option.some_ne_none f)
  | some f => simp

theorem issued_empty (n : ℕ) : Store.empty.Issued n :=
  forall_entries fun i hi => absurd hi (Nat.not_lt_zero i)

theorem Issued.mono (h : s.Issued n) (hn : n ≤ n') : s.Issued n' :=
  fun i e he => (h i e he).mono hn

theorem Issued.lookup (h : s.Issued n) (hlookup : s.lookup i name = some v) : v.Issued n := by
  obtain ⟨j, -, hget⟩ := List.exists_of_findSome?_eq_some hlookup
  exact h j _ (Bindings.mem_of_get? hget)

theorem Issued.define (h : s.Issued n) (i : FrameId) (name : String) (hv : v.Issued n) :
    (s.define i name v).Issued n := by
  intro j e he
  rw [bindings_define] at he
  split at he
  · rcases Bindings.mem_insertEntry he with rfl | he
    · exact hv
    · exact h j e he
  · exact h j e he

theorem Issued.assign (h : s.Issued n) (i : FrameId) (name : String) (hv : v.Issued n) :
    (s.assign i name v).2.Issued n := by
  rw [Store.assign]
  split
  · exact h.define _ name hv
  · exact h

theorem Issued.push (h : s.Issued n) {f : Frame} (hf : ∀ e ∈ f.bindings.entries, e.2.Issued n) :
    (s.push f).Issued n := by
  intro j e he
  rw [bindings_push] at he
  split at he
  · exact hf e he
  · exact h j e he

theorem Issued.push_empty (h : s.Issued n) (outer : Option FrameId) :
    (s.push ⟨∅, outer⟩).Issued n :=
  h.push fun _ he => absurd he List.not_mem_nil

theorem Issued.extend (h : s.Issued n) (i : FrameId) (params : List String) {args : List Value}
    (hargs : ∀ v ∈ args, v.Issued n) : (s.extend i params args).Issued n :=
  h.push fun _ he => hargs _ (List.of_mem_zip (Bindings.mem_of_mem_ofList he)).2

/-! ### Restoring -/

theorem Issued.fill (h : s.Issued n) (target : FrameId) {fs : List Frame}
    (hfs : ∀ f ∈ fs, ∀ e ∈ f.bindings.entries, e.2.Issued n) : (s.fill target fs).Issued n := by
  cases fs with
  | nil => exact h
  | cons f fs =>
    obtain ⟨hf, hfs⟩ := List.forall_mem_cons.mp hfs
    refine issued_iff_frame?.mpr fun i g hg => ?_
    rw [Store.fill, frame?, ← Array.getElem?_toList, Array.toList_appendList] at hg
    rcases List.mem_append.mp (List.mem_of_getElem? hg) with hg | hg
    · obtain ⟨j, hj⟩ := List.mem_iff_getElem?.mp hg
      rw [Array.getElem?_toList, ← frame?, frame?_modify] at hj
      split at hj
      · obtain ⟨_, -, rfl⟩ := Option.map_eq_some_iff.mp hj
        exact hf
      · exact issued_iff_frame?.mp h j g hj
    · exact hfs g hg

theorem issued_restoreEntry (target next : FrameId) (e : Snapshot.Entry) (n : ℕ) :
    n ≤ (restoreEntry target next e n).2 ∧
      (restoreEntry target next e n).1.2.Issued (restoreEntry target next e n).2 := by
  cases e with
  | data name value => exact Value.issued_instantiate value n
  | function name frame params body =>
    obtain ⟨hle, hbody⟩ := Value.issued_instantiate body n
    refine ⟨Nat.le_succ_of_le hle, fun p hp k hk => ?_⟩
    rcases Value.mem_parts_closure.mp hp with rfl | hp
    · exact Option.some.inj hk ▸ Nat.lt_succ_self _
    · exact Nat.lt_succ_of_lt (hbody p hp k hk)

theorem issued_restoreEntries (target next : FrameId) (es : List Snapshot.Entry) (n : ℕ) :
    n ≤ (restoreEntries target next es n).2 ∧ ∀ b ∈ (restoreEntries target next es n).1,
      b.2.Issued (restoreEntries target next es n).2 := by
  induction es generalizing n with
  | nil => exact ⟨le_rfl, fun _ hb => absurd hb List.not_mem_nil⟩
  | cons e es ih =>
    obtain ⟨hle, hentry⟩ := issued_restoreEntry target next e n
    obtain ⟨hle', hentries⟩ := ih (restoreEntry target next e n).2
    exact ⟨hle.trans hle', List.forall_mem_cons.mpr ⟨hentry.mono hle', hentries⟩⟩

theorem issued_restoreFrames (target next : FrameId) (bs : List Snapshot.Block) (n : ℕ) :
    n ≤ (restoreFrames target next bs n).2 ∧ ∀ f ∈ (restoreFrames target next bs n).1,
      ∀ e ∈ f.bindings.entries, e.2.Issued (restoreFrames target next bs n).2 := by
  induction bs generalizing n with
  | nil => exact ⟨le_rfl, fun _ hf => absurd hf List.not_mem_nil⟩
  | cons b bs ih =>
    obtain ⟨hle, hentries⟩ := issued_restoreEntries target next b.entries n
    obtain ⟨hle', hframes⟩ := ih (restoreEntries target next b.entries n).2
    refine ⟨hle.trans hle', List.forall_mem_cons.mpr ⟨fun e he => ?_, hframes⟩⟩
    exact (hentries e (Bindings.mem_of_mem_ofList he)).mono hle'

/-- **Restored values have new identities.** -/
theorem Issued.restore (h : s.Issued n) (target : FrameId) (snapshot : Snapshot) :
    n ≤ (s.restore target snapshot n).2 ∧
      (s.restore target snapshot n).1.Issued (s.restore target snapshot n).2 := by
  rw [restore_eq_fill]
  obtain ⟨hle, hframes⟩ := issued_restoreFrames target s.size snapshot.blocks n
  exact ⟨hle, (h.mono hle).fill target hframes⟩

end Store

/-! ### Evaluation -/

namespace Machine

/-- The outcome of a computation that started on `m` uses what was handed out: no identity was taken
back, and those in use have been handed out, also those of a value. -/
def Issues (m : Machine σ) : EStateM.Result Halt (Machine σ) Value → Prop :=
  Coupling.Keeps Machine.supply HasIssued Value.Issued m

theorem HasIssued.congr {m m' : Machine σ} (h : m.HasIssued) (hstore : m'.store = m.store)
    (hle : m.supply ≤ m'.supply) : m'.HasIssued := by
  rw [HasIssued, hstore]
  exact Store.Issued.mono h hle

/-- A machine without frames uses no identities. -/
theorem hasIssued_empty (supply : ℕ) (desk : σ) : HasIssued ⟨.empty, supply, desk⟩ :=
  Store.issued_empty supply

end Machine

/-- The functions of a host take identities from the supply, and give values whose identities have
been handed out, if those of their arguments have. -/
def Host.Issues (host : Host σ) : Prop :=
  ∀ ref args (m : Machine σ), m.HasIssued → (∀ v ∈ args, v.Issued m.supply) →
    m.Issues (host.call ref args m)

theorem Host.issues_empty : (Host.empty : Host σ).Issues :=
  fun _ _ _ hm _ => ⟨le_rfl, hm⟩

/-- A machine agrees with itself if it has handed out the identities in use. -/
def Coupling.issued (σ : Type) : Coupling σ σ ℕ where
  corr := .issued
  scope _ := Eq
  machine n m m' := m = m' ∧ m.supply = n ∧ m.HasIssued

/-- A computation stays in step with itself if and only if its outcomes use what was handed out. -/
theorem Coupling.sync_issued_iff {n : ℕ} {x : EvalM σ Value} :
    (issued σ).Sync n (issued σ).Values x x ↔
      ∀ m : Machine σ, m.supply = n → m.HasIssued → m.Issues (x m) :=
  sync_self_iff Iff.rfl (Value.related_issued_iff.trans (and_iff_right rfl))

open Value in
/-- **Evaluation respects the supply.** -/
theorem Lockstep.issued {host : Host σ} (hhost : host.Issues) :
    Lockstep (.issued σ) host host where
  corr_mono hn := ⟨le_rfl, fun _ _ hkl => ⟨hkl.1, hkl.2.trans_le hn⟩, le_rfl, le_rfl, le_rfl⟩
  scope_mono _ hij := hij
  frame_of_scope hij := hij
  lambda _ := trivial
  begin _ := trivial
  define_of_once _ := trivial
  unique _ _ := by
    refine ⟨⟨fun _ _ _ hik hjk => hik.1.trans hjk.1.symm,
      fun _ _ _ hij hik => hij.1.symm.trans hik.1⟩, ?_⟩
    exact ⟨fun _ _ _ hik hjk => hik.trans hjk.symm, fun _ _ _ hij hik => hij.symm.trans hik⟩
  lookup := by
    rintro _ m _ i _ name ⟨rfl, rfl, hm⟩ rfl -
    cases hlookup : m.store.lookup i name with
    | none => exact .none
    | some v => exact .some (related_issued_iff.mpr ⟨rfl, Store.Issued.lookup hm hlookup⟩)
  define := by
    rintro _ m _ i _ name v v' - ⟨rfl, rfl, hm⟩ rfl - hv
    obtain ⟨rfl, hissued⟩ := related_issued_iff.mp hv
    exact ⟨rfl, rfl, Store.Issued.define hm i name hissued⟩
  assign := by
    rintro _ m _ i _ name v v' - ⟨rfl, rfl, hm⟩ rfl - hv
    obtain ⟨rfl, hissued⟩ := related_issued_iff.mp hv
    exact ⟨rfl, rfl, rfl, Store.Issued.assign hm i name hissued⟩
  extend := by
    rintro _ m _ i _ params args args' ⟨rfl, rfl, hm⟩ rfl - hargs
    obtain ⟨rfl, hissued⟩ := forall₂_issued_iff.mp hargs
    exact ⟨_, le_rfl, rfl, rfl, rfl, Store.Issued.extend hm i params hissued⟩
  advance := by
    rintro _ m _ ⟨rfl, rfl, hm⟩ k
    exact ⟨_, Nat.le_add_right m.supply k, fun l hl => ⟨rfl, Nat.add_lt_add_left hl _⟩, rfl, rfl,
      Store.Issued.mono hm (Nat.le_add_right ..)⟩
  call := by
    rintro _ r _ args args' rfl hargs
    obtain ⟨rfl, hissued⟩ := forall₂_issued_iff.mp hargs
    exact Coupling.sync_issued_iff.mpr fun m hn hm => hhost r args m hm (hn ▸ hissued)

namespace Machine.HasIssued

open Value

variable {m : Machine σ} {host : Host σ}

/-- **Identities in use stay handed out during evaluation,** whether it gives a value or fails. -/
theorem eval (h : m.HasIssued) (hhost : host.Issues) (depth : ℕ) {expr : Value}
    (hexpr : expr.Issued m.supply) (env : FrameId) :
    m.Issues (FrameLisp.eval host depth expr env m) :=
  Coupling.sync_issued_iff.mp ((Lockstep.issued hhost).eval depth
    (related_issued_iff.mpr ⟨rfl, hexpr⟩) rfl) m rfl h

/-- **So they do during application.** -/
theorem apply (h : m.HasIssued) (hhost : host.Issues) (depth : ℕ) {function : Value}
    (hfunction : function.Issued m.supply) {args : List Value}
    (hargs : ∀ v ∈ args, v.Issued m.supply) :
    m.Issues (FrameLisp.apply host depth function args m) :=
  Coupling.sync_issued_iff.mp ((Lockstep.issued hhost).applyValue
    ((Lockstep.issued hhost).eval depth) (related_issued_iff.mpr ⟨rfl, hfunction⟩)
    (forall₂_issued_iff.mpr ⟨rfl, hargs⟩)) m rfl h

/-- **So they do when a text is read and evaluated,** whatever it says. -/
theorem execute (h : m.HasIssued) (hhost : host.Issues) (depth : ℕ) (root : FrameId)
    (text : String) : m.Issues (FrameLisp.execute host depth root text m) :=
  Coupling.sync_issued_iff.mp ((Lockstep.issued hhost).execute depth rfl
    fun _ _ p _ => by cases p <;> trivial) m rfl h

/-- **So they do when a text is answered,** whatever it says. -/
theorem readEvalPrint (h : m.HasIssued) (hhost : host.Issues) (depth : ℕ) (root : FrameId)
    (text : String) : (FrameLisp.readEvalPrint host depth root text m).2.HasIssued := by
  have htext : ∀ d, (Reading.ofText text).toExcept = .ok d → ∀ p ∈ d.parts,
      (Correspondence.issued m.supply).AdmitsDatum p := fun _ _ p _ => by cases p <;> trivial
  obtain ⟨-, _, -, -, -, hm⟩ :=
    (Lockstep.issued hhost).readEvalPrint depth (rfl : root = root) htext ⟨rfl, rfl, h⟩
  exact hm

/-- **So they do when a text is loaded into a frame,** whether that works or not. -/
theorem loadInto (h : m.HasIssued) (text : String) (target : FrameId) :
    m.supply ≤ (machineAfter (EvalM.loadInto text target m)).supply ∧
      (machineAfter (EvalM.loadInto text target m)).HasIssued := by
  cases htext : Snapshot.ofText text with
  | error fault =>
    rw [EvalM.loadInto_of_ofText_error htext]
    exact ⟨le_rfl, h⟩
  | ok snapshot =>
    rw [EvalM.loadInto_of_ofText_ok htext]
    exact Store.Issued.restore h target snapshot

/-- **So they do when a text is loaded into new frames,** whether that works or not. -/
theorem load (h : m.HasIssued) (text : String) :
    m.supply ≤ (machineAfter (EvalM.load text m)).supply ∧
      (machineAfter (EvalM.load text m)).HasIssued := by
  cases htext : Snapshot.ofText text with
  | error fault =>
    rw [EvalM.load_of_ofText_error htext]
    exact ⟨le_rfl, h⟩
  | ok snapshot =>
    rw [EvalM.load_of_ofText_ok htext]
    exact (Store.Issued.push_empty h none).restore m.store.size snapshot

end Machine.HasIssued

end FrameLisp
