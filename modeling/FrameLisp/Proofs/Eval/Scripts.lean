import FrameLisp.Proofs.Eval.Isolation
import FrameLisp.Proofs.Reading.Words

/-!
# Scripts

A script is a sequence of texts that an evaluator executes one after the other; a text that fails
does not stop the next one. What every evaluation upholds, every script upholds.

An evaluator that starts with an empty frame and without functions of the host only ever binds what
its texts can say. Names come from symbols that were read, so all of them read back; values refer to
frames that the evaluator has created itself; and there are no external functions.

## Main definitions

* `machineAfterTexts` — the machine that a script leaves behind
* `Discipline.keeping`, `Discipline.naming` — the discipline of keeping to a vocabulary
* `Vocabulary.scripted` — what the texts of an evaluator can say

## Main results

* `Lockstep.machineAfterTexts` — scripts stay in step
* `Discipline.Lawful.machineAfterTexts` — scripts uphold every lawful discipline
* `Evaluator.governs_of_texts`, `Evaluator.governs_scripted`, `Evaluator.linked_machineAfterTexts` —
  the store after a script
-/

namespace FrameLisp

/-! ### Scripts uphold disciplines -/

section Scripts

variable {σ : Type}

/-- The machine that is left when texts have been executed one after the other. -/
def machineAfterTexts (host : Host σ) (depth : ℕ) (root : FrameId) :
    List String → Machine σ → Machine σ
  | [], m => m
  | text :: texts, m =>
    machineAfterTexts host depth root texts (machineAfter (execute host depth root text m))

/-- A text that can be read is executed by evaluating what was read. -/
theorem machineAfter_execute {text : String} {d : Datum}
    (h : (Reading.ofText text).toExcept = .ok d) (host : Host σ) (depth : ℕ) (root : FrameId)
    (m : Machine σ) :
    machineAfter (execute host depth root text m) =
      machineAfter (eval host depth (Value.instantiate d m.supply).1 root
        { m with supply := (Value.instantiate d m.supply).2 }) := by
  rw [execute, h]
  rfl

/-- **Scripts stay in step,** if what their texts say may occur. -/
theorem Lockstep.machineAfterTexts {τ W : Type} [Preorder W] {K : Coupling σ τ W} {host : Host σ}
    {host' : Host τ} (L : Lockstep K host host') (depth : ℕ) {w : W} {i j : FrameId}
    (hij : K.scope w i j) {texts : List String}
    (htexts : ∀ text ∈ texts, ∀ d, (Reading.ofText text).toExcept = .ok d →
      ∀ p ∈ d.parts, (K.corr w).AdmitsDatum p)
    {m : Machine σ} {m' : Machine τ} (hm : K.machine w m m') :
    ∃ w', w ≤ w' ∧ K.machine w' (FrameLisp.machineAfterTexts host depth i texts m)
      (FrameLisp.machineAfterTexts host' depth j texts m') := by
  induction texts generalizing w m m' with
  | nil => exact ⟨w, le_rfl, hm⟩
  | cons text texts ih =>
    obtain ⟨htext, htexts⟩ := List.forall_mem_cons.mp htexts
    obtain ⟨w₁, hw₁, hm₁⟩ := (L.execute depth hij htext m m' hm).machineAfter
    obtain ⟨w₂, hw₂, hm₂⟩ := ih (L.scope_mono hw₁ hij)
      (fun t ht d hd p hp => (htexts t ht d hd p hp).mono (L.corr_mono hw₁)) hm₁
    exact ⟨w₂, hw₁.trans hw₂, hm₂⟩

namespace Discipline

/-- **Scripts uphold every lawful discipline,** if what their texts say may occur. -/
theorem Lawful.machineAfterTexts {d : Discipline σ} {host : Host σ} (h : d.Lawful host)
    (depth : ℕ) {root : FrameId} (hroot : d.scope root) (texts : List String)
    (htexts : ∀ text ∈ texts, ∀ f, (Reading.ofText text).toExcept = .ok f →
      ∀ n, ∀ p ∈ f.parts, (d.correspondence n).AdmitsDatum p)
    {m : Machine σ} (hm : d.machine m) (hlt : root < m.store.size) :
    root < (FrameLisp.machineAfterTexts host depth root texts m).store.size ∧
      d.machine (FrameLisp.machineAfterTexts host depth root texts m) := by
  obtain ⟨n, hn, -, hsize, hm'⟩ := h.lockstep.machineAfterTexts depth ⟨rfl, hroot, hlt⟩
    (fun text ht f hf => htexts text ht f hf _) ⟨rfl, rfl, hm⟩
  exact ⟨hlt.trans_le (hn.trans_eq hsize.symm), hm'⟩

/-- Evaluation that keeps to a vocabulary, in a store of at least `n` frames. -/
def keeping (d : Vocabulary) (n : ℕ) : Discipline σ where
  toVocabulary := d
  scope := d.frame
  machine m := d.Governs m.store ∧ n ≤ m.store.size

/-- Without external functions, evaluation keeps to every vocabulary that speaks of all primitives
and of all frames that are yet to be created. -/
theorem lawful_keeping {d : Vocabulary} {n : ℕ} {host : Host σ} (hframe : ∀ i, n ≤ i → d.frame i)
    (hatom : ∀ p, d.atom p) (hexternal : ∀ r, ¬ d.external r) : (keeping d n).Lawful host where
  frame_of_scope hi := hi
  lambda := hatom _
  begin := hatom _
  define_of_once _ := hatom _
  lookup hm hi _ _ hlookup := hm.1.lookup hi hlookup
  define _ hm _ _ _ hv := ⟨hm.1.define _ hv, hm.2.trans_eq (Store.size_define ..).symm⟩
  assign {m i name v} _ hm hi _ _ hv := by
    refine ⟨?_, hm.2.trans_eq (Store.size_assign ..).symm⟩
    rw [Store.assign]
    split
    · exact hm.1.define name hv
    · exact hm.1
  extend {m i params args} hm hi hlt _ hargs := by
    refine ⟨hframe _ hm.2, hm.1.extend hi hlt params hargs, ?_⟩
    rw [Store.extend, Store.size_push]
    exact Nat.le_succ_of_le hm.2
  advance hm _ := hm
  call _ hr _ := absurd hr (hexternal _)

/-- Evaluation that keeps to a vocabulary also in the names that it binds. -/
def naming (d : Vocabulary) (n : ℕ) : Discipline σ where
  toVocabulary := d
  scope := d.frame
  machine m := (d.Governs m.store ∧ n ≤ m.store.size) ∧ d.Binds m.store

/-- So it does in the names that it binds: they are names of symbols or of parameters. -/
theorem lawful_naming {d : Vocabulary} {n : ℕ} {host : Host σ} (hframe : ∀ i, n ≤ i → d.frame i)
    (hatom : ∀ p, d.atom p) (hexternal : ∀ r, ¬ d.external r) : (naming d n).Lawful host := by
  have hkeeping : (keeping d n).Lawful host := lawful_keeping hframe hatom hexternal
  refine ⟨hkeeping.frame_of_scope, hkeeping.lambda, hkeeping.begin, hkeeping.define_of_once,
    fun hm => hkeeping.lookup hm.1, ?define, ?assign, ?extend, fun hm _ => hm,
    fun _ hr _ => absurd hr (hexternal _)⟩
  case define =>
    intro m i name v hdefine hm hi hlt hname hv
    exact ⟨hkeeping.define hdefine hm.1 hi hlt hname hv, hm.2.define hname v⟩
  case assign =>
    intro m i name v hset hm hi hlt hname hv
    refine ⟨hkeeping.assign hset hm.1 hi hlt hname hv, ?_⟩
    rw [Store.assign]
    split
    · exact hm.2.define hname v
    · exact hm.2
  case extend =>
    intro m i params args hm hi hlt hparams hargs
    obtain ⟨hscope, hm'⟩ := hkeeping.extend hm.1 hi hlt hparams hargs
    exact ⟨hscope, hm', hm.2.extend hparams args⟩

end Discipline

/-! ### Evaluators that start with an empty frame -/

/-- What the texts of an evaluator can say: names that read back, and its own frames, which are
those from number `n` on. -/
def Vocabulary.scripted (n : ℕ) : Vocabulary where
  frame i := n ≤ i
  atom _ := True
  name := ReadsBack
  external _ := False

/-- A new, empty frame is governed by every vocabulary that speaks of no other frame. -/
theorem Vocabulary.governs_push_empty {d : Vocabulary} {s : Store}
    (hframe : ∀ i, d.frame i → s.size ≤ i) : d.Governs (s.push ⟨∅, none⟩) := by
  intro i hi
  rw [Store.bindings_push, Store.outer_push]
  have hle := hframe i hi
  split
  · exact ⟨fun e he => absurd he List.not_mem_nil, fun j hj => absurd hj (Option.not_mem_none j)⟩
  · rw [Store.bindings_of_le hle, Store.outer_of_le hle]
    exact ⟨fun e he => absurd he List.not_mem_nil, fun j hj => absurd hj (Option.not_mem_none j)⟩

theorem Vocabulary.binds_push_empty {d : Vocabulary} {s : Store}
    (hframe : ∀ i, d.frame i → s.size ≤ i) : d.Binds (s.push ⟨∅, none⟩) := by
  intro i hi e he
  rw [Store.bindings_push] at he
  split at he
  · exact absurd he List.not_mem_nil
  · rw [Store.bindings_of_le (hframe i hi)] at he
    exact absurd he List.not_mem_nil

/-- What is reachable from a frame that is spoken of is spoken of. -/
theorem Vocabulary.Governs.frame_of_reaches {d : Vocabulary} {s : Store} (h : d.Governs s)
    {i j : FrameId} (hi : d.frame i) (hij : s.Reaches i j) : d.frame j := by
  induction hij with
  | refl => exact hi
  | tail _ hlink ih => exact (h.frame_of_link ih hlink).1

namespace Evaluator

variable {trace : Bool} {e : Evaluator} {m₀ m : Machine σ}

theorem new_eq_ok (h : Evaluator.new trace m₀ = .ok e m) :
    e.root = m₀.store.size ∧ m = { m₀ with store := m₀.store.push ⟨∅, none⟩ } := by
  cases h
  exact ⟨rfl, rfl⟩

theorem lt_size_of_new (h : Evaluator.new trace m₀ = .ok e m) : e.root < m.store.size := by
  obtain ⟨hroot, rfl⟩ := new_eq_ok h
  rw [hroot, Store.size_push]
  exact Nat.lt_succ_self _

/-- **Evaluators keep to the vocabulary of their texts,** in values and in names. -/
theorem governs_of_texts (h : Evaluator.new trace m₀ = .ok e m) (host : Host σ) (depth : ℕ)
    {texts : List String} {d : Vocabulary} (hframe : ∀ i, d.frame i ↔ e.root ≤ i)
    (hatom : ∀ p, d.atom p) (hexternal : ∀ r, ¬ d.external r)
    (hnames : ∀ text ∈ texts, ∀ f, (Reading.ofText text).toExcept = .ok f →
      ∀ name, .symbol name ∈ f.parts → d.name name) :
    let s := (machineAfterTexts host depth e.root texts m).store
    e.root < s.size ∧ d.Governs s ∧ d.Binds s := by
  have hlawful : (Discipline.naming d e.root).Lawful host :=
    Discipline.lawful_naming (fun i => (hframe i).mpr) hatom hexternal
  have hstart : (Discipline.naming d e.root).machine m := by
    refine ⟨⟨?_, (lt_size_of_new h).le⟩, ?_⟩
    all_goals obtain ⟨hroot, rfl⟩ := new_eq_ok h
    · exact Vocabulary.governs_push_empty fun i hi => hroot ▸ (hframe i).mp hi
    · exact Vocabulary.binds_push_empty fun i hi => hroot ▸ (hframe i).mp hi
  have htexts : ∀ text ∈ texts, ∀ f, (Reading.ofText text).toExcept = .ok f →
      ∀ n, ∀ p ∈ f.parts, (d.correspondence n).AdmitsDatum p := by
    intro text htext f hf n p hp
    cases p with
    | symbol name => exact hnames text htext f hf name hp
    | atom p => exact hatom p
    | _ => trivial
  obtain ⟨hlt, ⟨hgoverns, -⟩, hbinds⟩ := hlawful.machineAfterTexts depth
    ((hframe e.root).mpr le_rfl) texts htexts hstart (lt_size_of_new h)
  exact ⟨hlt, hgoverns, hbinds⟩

/-- **Evaluators bind only what texts can say.** -/
theorem governs_scripted (h : Evaluator.new trace m₀ = .ok e m) (host : Host σ) (depth : ℕ)
    (texts : List String) :
    e.root < (machineAfterTexts host depth e.root texts m).store.size ∧
      (Vocabulary.scripted e.root).Governs
        (machineAfterTexts host depth e.root texts m).store := by
  obtain ⟨hlt, hgoverns, -⟩ := governs_of_texts (d := .scripted e.root) h host depth
    (fun _ => Iff.rfl) (fun _ => trivial) (fun _ hr => hr) fun _ _ _ hf => Reading.namesReadBack hf
  exact ⟨hlt, hgoverns⟩

/-- The frames of other evaluators are left as they are, so all links stay inside the store. -/
theorem linked_machineAfterTexts (hs : m₀.store.Linked) (h : Evaluator.new trace m₀ = .ok e m)
    (host : Host σ) (depth : ℕ) (texts : List String) :
    (machineAfterTexts host depth e.root texts m).store.Linked := by
  have hlawful : (Discipline.confined (fun _ => False) m₀).Lawful host := Discipline.lawful_confined
  have hstart : (Discipline.confined (fun _ => False) m₀).machine m := by
    obtain ⟨-, rfl⟩ := new_eq_ok h
    refine ⟨Vocabulary.governs_push_empty fun i hi => hi.elim False.elim id, fun i _ hi => ?_, ?_,
      le_rfl⟩
    · rw [Store.frame?_push, if_neg hi.ne]
    · rw [Store.size_push]
      exact Nat.le_succ _
  obtain ⟨-, hgoverns, hframes, hsize, -⟩ := hlawful.machineAfterTexts depth
    (.inr (new_eq_ok h).1.ge) texts (fun _ _ _ _ _ p _ => by cases p <;> trivial) hstart
    (lt_size_of_new h)
  intro i j hj
  by_cases hi : i < m₀.store.size
  · have hframe := hframes i (fun h => h) hi
    rw [Store.links, Store.bindings_congr hframe, Store.outer_congr hframe] at hj
    exact (hs i j hj).trans_le hsize
  · exact (hgoverns.frame_of_link (.inr (Nat.not_lt.mp hi)) hj).2

end Evaluator

end Scripts

end FrameLisp
