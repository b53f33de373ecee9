import FrameLisp.Proofs.Eval.Discipline
import FrameLisp.Proofs.Eval.Names
import FrameLisp.Proofs.Snapshot.Replacing

/-!
# Runs

A run begins without frames and performs any actions on a machine: making frames and binding names
in them, evaluating and applying, and loading texts that were saved before, in any state of the same
run.

Parents are fixed when a frame is made, and only a frame that there is can be a parent; so chains
end as long as nothing is loaded. Loading into a frame gives a new parent to a frame that may be an
ancestor of others already. But the parents in a saved text are those of a graph whose chains ended,
and restored frames refer to restored frames only. So a chain that comes to the replaced frame goes
on as a saved chain did.

For the text to have the structure of the graph it is enough that symbols in the saved values are
words.

## Main definitions

* `Host.ModifiesNone` — hosts whose functions modify no frame
* `Action`, `Action.Permitted` — what can be done with a machine
* `Run` — the states that a machine goes through

## Main results

* `Discipline.lawful_linked`, `Discipline.lawful_grounded` — evaluation keeps a store linked and
  grounded
* `Store.Grounded.restore_capture` — so does restoring a saved graph
* `Run.chains_end` — parent chains stay finite
-/

namespace FrameLisp

variable {σ : Type}

/-- A value that refers to frames among the first `n` only. -/
def Value.Within (n : ℕ) (v : Value) : Prop := ∀ i ∈ v.frames, i < n

/-! ### Evaluation keeps a store grounded -/

namespace Vocabulary

/-- Everything may be mentioned. -/
def everything : Vocabulary where
  frame _ := True
  atom _ := True
  name _ := True
  external _ := True

theorem allows_everything_iff {n : ℕ} {v : Value} : everything.Allows n v ↔ v.Within n := by
  constructor
  · intro h i hi
    obtain ⟨id, params, body, hpart⟩ := Value.mem_frames_iff.mp hi
    exact (h _ hpart).1.2
  · intro h p hp
    cases p with
    | closure id frame params body =>
      have hframe := h frame (Value.mem_frames_iff.mpr ⟨id, params, body, hp⟩)
      exact ⟨⟨trivial, hframe⟩, fun _ _ => trivial⟩
    | _ => trivial

theorem admitsDatum_everything (n : ℕ) (p : Datum) :
    (everything.correspondence n).AdmitsDatum p := by
  cases p <;> trivial

/-- In a linked store everything may be mentioned. -/
theorem governs_everything_iff {s : Store} : everything.Governs s ↔ s.Linked := by
  constructor
  · exact fun h i j hj => (h.frame_of_link trivial hj).2
  · intro h i _
    refine ⟨fun e he => allows_everything_iff.mpr fun j hj => ?_, fun j hj => ⟨trivial, ?_⟩⟩
    · exact h i j (Store.mem_links_of_binding he hj)
    · exact h i j (Store.mem_links_of_outer hj)

end Vocabulary

/-- The functions of a host modify no frame. Frames that exist stay as they are. A function may make
new frames, but each with a parent that is older; and what it binds there or gives refers to frames
that there are, if what it is given does. -/
structure Host.ModifiesNone (host : Host σ) : Prop where
  kept : host.LeavesFrames
  older : ∀ ref args (m : Machine σ) i, m.store.size ≤ i →
    ∀ j ∈ (machineAfter (host.call ref args m)).store.outer i, j < i
  linked : ∀ ref args (m : Machine σ), m.store.Linked → (∀ v ∈ args, v.Within m.store.size) →
    (machineAfter (host.call ref args m)).store.Linked
  result : ∀ ref args (m : Machine σ) v m', m.store.Linked →
    (∀ v ∈ args, v.Within m.store.size) → host.call ref args m = .ok v m' → v.Within m'.store.size

theorem Host.modifiesNone_empty : (Host.empty : Host σ).ModifiesNone where
  kept _ _ _ _ _ := rfl
  older _ _ m i hi j hj := by
    change j ∈ m.store.outer i at hj
    rw [Store.outer_of_le hi] at hj
    cases hj
  linked _ _ _ hs _ := hs
  result _ _ _ _ _ _ _ hcall := by cases hcall

namespace Store

variable {s t : Store}

theorem Linked.define (hs : s.Linked) (i : FrameId) (name : String) {v : Value}
    (hv : v.Within s.size) : (s.define i name v).Linked :=
  Vocabulary.governs_everything_iff.mp ((Vocabulary.governs_everything_iff.mpr hs).define name
    (Vocabulary.allows_everything_iff.mpr hv))

theorem Linked.assign (hs : s.Linked) (i : FrameId) (name : String) {v : Value}
    (hv : v.Within s.size) : (s.assign i name v).2.Linked := by
  rw [Store.assign]
  split
  · exact hs.define _ name hv
  · exact hs

theorem Linked.push (hs : s.Linked) {f : Frame} (houter : ∀ i ∈ f.outer, i < s.size)
    (hvalues : ∀ e ∈ f.bindings.entries, e.2.Within s.size) : (s.push f).Linked := by
  intro i j hj
  rw [size_push]
  refine Nat.lt_succ_of_lt ?_
  rw [links, bindings_push, outer_push] at hj
  split at hj
  next =>
    rcases List.mem_append.mp hj with hj | hj
    · obtain ⟨e, he, hj⟩ := List.mem_flatMap.mp hj
      exact hvalues e he j hj
    · exact houter j (Option.mem_toList.mp hj)
  next => exact hs i j hj

theorem Linked.push_empty (hs : s.Linked) : (s.push ⟨∅, none⟩).Linked :=
  hs.push (fun _ hi => absurd hi (Option.not_mem_none _)) fun _ he => absurd he List.not_mem_nil

theorem size_le_of_frame? (h : ∀ i < s.size, t.frame? i = s.frame? i) : s.size ≤ t.size :=
  ((NamesKept.refl (fun _ => True) s).of_frame? h).size_le

theorem Linked.extend (hs : s.Linked) {i : FrameId} (hi : i < s.size) (params : List String)
    {args : List Value} (hargs : ∀ v ∈ args, v.Within s.size) : (s.extend i params args).Linked :=
  hs.push (fun _ hj => Option.some.inj hj ▸ hi) fun _ he =>
    hargs _ (List.of_mem_zip (Bindings.mem_of_mem_ofList he)).2

end Store

namespace Discipline

open Vocabulary

/-- Links stay inside the store, which has at least `n` frames. -/
def linked (n : ℕ) : Discipline σ where
  toVocabulary := .everything
  scope _ := True
  machine m := m.store.Linked ∧ n ≤ m.store.size

theorem lawful_linked {host : Host σ} (hhost : host.ModifiesNone) (n : ℕ) :
    (linked n).Lawful host where
  frame_of_scope _ := trivial
  lambda := trivial
  begin := trivial
  define_of_once _ := trivial
  lookup hm _ _ _ hlookup := (governs_everything_iff.mpr hm.1).lookup trivial hlookup
  define {m i name v} _ hm _ _ _ hv :=
    ⟨hm.1.define i name (allows_everything_iff.mp hv), hm.2.trans_eq (Store.size_define ..).symm⟩
  assign {m i name v} _ hm _ _ _ hv :=
    ⟨hm.1.assign i name (allows_everything_iff.mp hv), hm.2.trans_eq (Store.size_assign ..).symm⟩
  extend {m i params args} hm _ hlt _ hargs :=
    ⟨trivial, hm.1.extend hlt params fun v hv => allows_everything_iff.mp (hargs v hv),
      hm.2.trans (Store.lt_size_push ..).le⟩
  advance hm _ := hm
  call {m r args} hm _ hargs := by
    have hargs' : ∀ v ∈ args, v.Within m.store.size := fun v hv =>
      allows_everything_iff.mp (hargs v hv)
    have hsize := Store.size_le_of_frame? (hhost.kept r args m)
    have hlinked := hhost.linked r args m hm.1 hargs'
    have hresult := hhost.result r args m
    generalize host.call r args m = outcome at hsize hlinked hresult
    cases outcome with
    | ok v m' =>
      exact ⟨hsize, ⟨hlinked, hm.2.trans hsize⟩,
        allows_everything_iff.mpr (hresult v m' hm.1 hargs' rfl)⟩
    | error halt m' => exact ⟨hsize, hlinked, hm.2.trans hsize⟩

/-- Links stay inside the store, and chains end. -/
def grounded : Discipline σ where
  toVocabulary := .everything
  scope _ := True
  machine m := m.store.Linked ∧ m.store.Grounded

theorem lawful_grounded {host : Host σ} (hhost : host.ModifiesNone) : grounded.Lawful host := by
  have hlawful : (linked 0).Lawful host := lawful_linked hhost 0
  have hstart : ∀ {m : Machine σ}, grounded.machine m → (linked 0).machine m := fun hm =>
    ⟨hm.1, Nat.zero_le _⟩
  refine ⟨fun _ => trivial, trivial, trivial, fun _ => trivial,
    fun hm => hlawful.lookup (hstart hm), ?define, ?assign, ?extend, fun hm _ => hm, ?call⟩
  case define =>
    intro m i name v hdefine hm hi hlt hname hv
    exact ⟨(hlawful.define hdefine (hstart hm) hi hlt hname hv).1, hm.2.define hm.1 i name v⟩
  case assign =>
    intro m i name v hset hm hi hlt hname hv
    exact ⟨(hlawful.assign hset (hstart hm) hi hlt hname hv).1, hm.2.assign hm.1 i name v⟩
  case extend =>
    intro m i params args hm hi hlt hparams hargs
    obtain ⟨hscope, hm', -⟩ := hlawful.extend (hstart hm) hi hlt hparams hargs
    exact ⟨hscope, hm', hm.2.push hm.1 fun j hj => Option.some.inj hj ▸ hlt⟩
  case call =>
    intro m r args hm hr hargs
    have hupholds := hlawful.call (hstart hm) hr hargs
    have hground : (machineAfter (host.call r args m)).store.Grounded :=
      hm.2.of_outer hm.1 (fun i hi => Store.outer_congr (hhost.kept r args m i hi))
        (hhost.older r args m)
    generalize host.call r args m = outcome at hupholds hground
    cases outcome with
    | ok v m' => exact ⟨hupholds.1, ⟨hupholds.2.1.1, hground⟩, hupholds.2.2⟩
    | error halt m' => exact ⟨hupholds.1, hupholds.2.1, hground⟩

end Discipline

/-! ### Loading keeps a store grounded -/

namespace Store

variable {s t : Store} {root target : FrameId}

/-- The chains of a graph end after it is restored as they did when it was saved. -/
theorem ends_restore_capture (hs : s.Linked) (hground : s.Grounded) (htarget : target < t.size)
    (n : ℕ) {i : FrameId} (hi : i ∈ s.reachable root) :
    (t.restore target (s.capture root).reread n).1.Ends
      (place target t.size ((s.reachable root).idxOf i)) := by
  have hends := hground i
  induction hends with
  | root houter =>
    refine .root ?_
    rw [outer_restore_capture htarget hi, houter, Option.map_none]
  | child houter _ ih =>
    have hj := mem_reachable_of_link hs hi (mem_links_of_outer houter)
    refine .child ?_ (ih hj)
    rw [outer_restore_capture htarget hi, houter, Option.map_some]

/-- **Restoring a saved graph keeps a store grounded.** A chain that comes to the target goes on in
the restored graph, whose chains end as the saved ones did. -/
theorem Grounded.restore_capture (h : t.Grounded) (ht : t.Linked) (hs : s.Linked)
    (hground : s.Grounded) (hroot : root < s.size) (htarget : target < t.size) (n : ℕ) :
    (t.restore target (s.capture root).reread n).1.Grounded := by
  have hlength := length_blocks_reread_capture s root
  have hpos : 0 < (s.reachable root).length := List.length_pos_of_mem (mem_reachable_self hroot)
  have hend : ∀ k < (s.reachable root).length,
      (t.restore target (s.capture root).reread n).1.Ends (place target t.size k) := by
    intro k hk
    have hends := ends_restore_capture hs hground htarget n (List.getElem_mem hk)
    rwa [(nodup_reachable s root).idxOf_getElem k hk] at hends
  have hold : ∀ i, t.Ends i → i < t.size →
      (t.restore target (s.capture root).reread n).1.Ends i := by
    intro i hends
    induction hends with
    | @root i houter =>
      intro hi
      by_cases heq : i = target
      · exact heq ▸ hend 0 hpos
      · exact .root ((outer_congr (frame?_restore_of_ne hi heq n)).trans houter)
    | @child i j houter _ ih =>
      intro hi
      by_cases heq : i = target
      · exact heq ▸ hend 0 hpos
      · exact .child ((outer_congr (frame?_restore_of_ne hi heq n)).trans houter)
          (ih (ht i j (mem_links_of_outer houter)))
  intro i
  by_cases hi : i < (t.restore target (s.capture root).reread n).1.size
  · rcases lt_size_or_exists_place hi (hpos.trans_eq hlength.symm) with ⟨hlt, -⟩ | ⟨k, hk, rfl⟩
    · exact hold i (h i) hlt
    · exact hend k (hk.trans_eq hlength)
  · exact .root (outer_of_le (Nat.not_lt.mp hi))

end Store

/-! ### Runs -/

/-- A text that was saved in one of the given states, from a graph in which every symbol is a
word. -/
def Saved (past : List (Machine σ)) (text : String) : Prop :=
  ∃ m ∈ past, ∃ root < m.store.size, m.store.Worded root ∧ m.store.save root = .ok text

/-- Restoring a saved text keeps a store linked and grounded. -/
theorem Saved.grounded_restore {past : List (Machine σ)} {text : String} (h : Saved past text)
    (hpast : ∀ m ∈ past, m.store.Linked ∧ m.store.Grounded) {snapshot : Snapshot}
    (htext : Snapshot.ofText text = .ok snapshot) {t : Store} (ht : t.Linked)
    (hground : t.Grounded) {target : FrameId} (htarget : target < t.size) (n : ℕ) :
    (t.restore target snapshot n).1.Linked ∧ (t.restore target snapshot n).1.Grounded := by
  obtain ⟨m, hm, root, hroot, hvalues, hsave⟩ := h
  obtain ⟨hs, hsaved⟩ := hpast m hm
  refine ⟨Store.linked_restore (Snapshot.ofText_eq_ok_iff.mp htext).2 ht htarget n, ?_⟩
  rw [Store.eq_reread_of_ofText hs hroot hvalues hsave htext]
  exact hground.restore_capture ht hs hsaved hroot htarget n

/-- What can be done with a machine. -/
inductive Action where
  /-- A new, empty frame, with or without a parent. -/
  | newFrame (outer : Option FrameId)
  /-- A new frame that binds parameters to arguments. -/
  | extend (outer : FrameId) (params : List String) (args : List Value)
  /-- Bind a name in a frame. -/
  | define (i : FrameId) (name : String) (v : Value)
  /-- Bind a name in a frame unless it is visible from there. -/
  | defineOnce (i : FrameId) (name : String) (v : Value)
  /-- Rebind a name where it is bound. -/
  | assign (i : FrameId) (name : String) (v : Value)
  /-- Evaluate an expression, or apply a function. -/
  | compute (task : Task) (depth : ℕ)
  /-- Read a text and evaluate the form in it. -/
  | execute (text : String) (root : FrameId) (depth : ℕ)
  /-- Load a text into new frames. -/
  | load (text : String)
  /-- Load a text into a frame. -/
  | loadInto (text : String) (target : FrameId)

namespace Action

/-- The machine that is left behind, whatever the action comes to. -/
def perform (host : Host σ) (action : Action) (m : Machine σ) : Machine σ :=
  match action with
  | .newFrame outer => machineAfter (EvalM.newFrame ⟨∅, outer⟩ m)
  | .extend outer params args => machineAfter (EvalM.newScope outer params args m)
  | .define i name v => machineAfter (EvalM.onStore (fun s => ((), s.define i name v)) m)
  | .defineOnce i name v => machineAfter (EvalM.onStore (fun s => s.defineOnce i name v) m)
  | .assign i name v => machineAfter (EvalM.onStore (fun s => s.assign i name v) m)
  | .compute task depth => machineAfter (task.run host depth m)
  | .execute text root depth => machineAfter (FrameLisp.execute host depth root text m)
  | .load text => machineAfter (EvalM.load text m)
  | .loadInto text target => machineAfter (EvalM.loadInto text target m)

/-- Only frames that there are can be referred to, and only texts that were saved in one of the
given states can be loaded. -/
def Permitted (past : List (Machine σ)) (n : ℕ) : Action → Prop
  | .newFrame outer => ∀ i ∈ outer, i < n
  | .extend outer _ args => outer < n ∧ ∀ v ∈ args, v.Within n
  | .define _ _ v => v.Within n
  | .defineOnce _ _ v => v.Within n
  | .assign _ _ v => v.Within n
  | .compute (.evaluate expr env) _ => expr.Within n ∧ env < n
  | .compute (.apply function args) _ => function.Within n ∧ ∀ v ∈ args, v.Within n
  | .execute _ root _ => root < n
  | .load text => Saved past text
  | .loadInto text target => Saved past text ∧ target < n

end Action

/-- **Every action keeps a store linked and grounded,** if that holds for all states in which a text
may have been saved. -/
theorem Action.grounded_perform {host : Host σ} (hhost : host.ModifiesNone)
    {past : List (Machine σ)} (hpast : ∀ m ∈ past, m.store.Linked ∧ m.store.Grounded)
    {m : Machine σ} (hs : m.store.Linked) (hground : m.store.Grounded) {action : Action}
    (hpermitted : action.Permitted past m.store.size) :
    (action.perform host m).store.Linked ∧ (action.perform host m).store.Grounded := by
  have hlawful := Discipline.lawful_grounded hhost
  cases action with
  | newFrame outer =>
    exact ⟨hs.push hpermitted fun _ he => absurd he List.not_mem_nil, hground.push hs hpermitted⟩
  | extend outer params args =>
    obtain ⟨houter, hargs⟩ := hpermitted
    exact ⟨hs.extend houter params hargs,
      hground.push hs fun _ hj => Option.some.inj hj ▸ houter⟩
  | define i name v => exact ⟨hs.define i name hpermitted, hground.define hs i name v⟩
  | defineOnce i name v =>
    change (m.store.defineOnce i name v).2.Linked ∧ (m.store.defineOnce i name v).2.Grounded
    rw [Store.defineOnce]
    split
    · exact ⟨hs, hground⟩
    · exact ⟨hs.define i name hpermitted, hground.define hs i name v⟩
  | assign i name v => exact ⟨hs.assign i name hpermitted, hground.assign hs i name v⟩
  | compute task depth =>
    rw [perform]
    cases task with
    | evaluate expr env =>
      obtain ⟨hexpr, henv⟩ := hpermitted
      exact (hlawful.eval ⟨hs, hground⟩ (Vocabulary.allows_everything_iff.mpr hexpr) trivial
        henv).machineAfter.2
    | apply function args =>
      obtain ⟨hfunction, hargs⟩ := hpermitted
      exact (hlawful.apply ⟨hs, hground⟩ (Vocabulary.allows_everything_iff.mpr hfunction)
        fun v hv => Vocabulary.allows_everything_iff.mpr (hargs v hv)).machineAfter.2
  | execute text root depth =>
    rw [perform]
    exact (hlawful.execute ⟨hs, hground⟩ trivial hpermitted
      fun _ _ p _ => Vocabulary.admitsDatum_everything _ p).machineAfter.2
  | load text =>
    rw [perform]
    cases htext : Snapshot.ofText text with
    | error fault =>
      rw [EvalM.load_of_ofText_error htext]
      exact ⟨hs, hground⟩
    | ok snapshot =>
      have hpushed : (m.store.push ⟨∅, none⟩).Grounded :=
        hground.push hs fun _ hi => absurd hi (Option.not_mem_none _)
      rw [EvalM.load_of_ofText_ok htext]
      exact hpermitted.grounded_restore hpast htext hs.push_empty hpushed (Store.lt_size_push ..) _
  | loadInto text target =>
    obtain ⟨hsaved, htarget⟩ := hpermitted
    rw [perform]
    cases htext : Snapshot.ofText text with
    | error fault =>
      rw [EvalM.loadInto_of_ofText_error htext]
      exact ⟨hs, hground⟩
    | ok snapshot =>
      rw [EvalM.loadInto_of_ofText_ok htext]
      exact hsaved.grounded_restore hpast htext hs hground htarget _

/-- The states of a run, the last one first. It begins without frames. -/
inductive Run (host : Host σ) : List (Machine σ) → Prop where
  | start (supply : ℕ) (desk : σ) : Run host [⟨.empty, supply, desk⟩]
  | step {m : Machine σ} {past : List (Machine σ)} (h : Run host (m :: past)) (action : Action)
    (hpermitted : action.Permitted (m :: past) m.store.size) :
    Run host (action.perform host m :: m :: past)

namespace Run

variable {host : Host σ} {past : List (Machine σ)}

/-- **All states of a run are linked and grounded.** -/
theorem grounded (hhost : host.ModifiesNone) (h : Run host past) :
    ∀ m ∈ past, m.store.Linked ∧ m.store.Grounded := by
  induction h with
  | start supply desk =>
    refine List.forall_mem_singleton.mpr ⟨?_, fun i => .root (Store.outer_of_le (Nat.zero_le i))⟩
    exact Store.linked_iff.mpr fun i hi => absurd hi (Nat.not_lt_zero i)
  | step _ action hpermitted ih =>
    obtain ⟨hs, hground⟩ := ih _ List.mem_cons_self
    exact List.forall_mem_cons.mpr ⟨action.grounded_perform hhost ih hs hground hpermitted, ih⟩

/-- **Parent chains stay finite.** Let the functions of the host modify no frame. However a run
makes and binds frames, evaluates and applies, and loads what was saved in it before, into new
frames or into frames that others refer to: in all its states the chain of every frame ends, and no
frame is its own ancestor. So the walks that look a name up, that look for the frame to rebind it in
or only for whether there is one, and that count the members of a chain, all end by themselves,
after fewer steps than there are frames, and whether or not the name is bound. -/
theorem chains_end (hhost : host.ModifiesNone) (h : Run host past) {m : Machine σ} (hm : m ∈ past)
    {i : FrameId} (hi : i < m.store.size) :
    (∃ k ≤ m.store.size, m.store.ancestor k (some i) = none) ∧
    (∀ k, m.store.ancestor (k + 1) (some i) ≠ some i) ∧
    (∀ name, ∃ k < m.store.size, m.store.Walk (fun j => (m.store.bindings j).get? name) i k
      (m.store.lookup i name)) ∧
    (∀ name, ∃ k < m.store.size,
      m.store.Walk (fun j => if (m.store.bindings j).contains name then some j else none) i k
        (m.store.resolve? i name) ∧
      m.store.contains i name = (m.store.resolve? i name).isSome) ∧
    ∃ k < m.store.size, m.store.Walk (fun _ => none : FrameId → Option Unit) i k none ∧
      m.store.depth i = k + 1 := by
  obtain ⟨hs, hground⟩ := h.grounded hhost m hm
  refine ⟨⟨_, le_rfl, (hground i).ancestor_size_eq_none hs hi⟩, (hground i).ancestor_ne_self,
    fun name => hground.exists_walk hs hi _, fun name => ?_, ?_⟩
  · obtain ⟨k, hk, hwalk⟩ := hground.exists_walk hs hi
      fun j => if (m.store.bindings j).contains name then some j else none
    rw [← Store.resolve?_eq_findSome?] at hwalk
    exact ⟨k, hk, hwalk, m.store.contains_eq_isSome_resolve? i name⟩
  · obtain ⟨k, hk, hwalk⟩ := hground.exists_walk hs hi (fun _ => none : FrameId → Option Unit)
    rw [List.findSome?_eq_none_iff.mpr fun _ _ => rfl] at hwalk
    exact ⟨k, hk, hwalk, hwalk.length_chainFrom hk⟩

/-- A frame is replaced by a graph in which a copy of it is the parent: what was saved from its
child is loaded into it. It gets a new parent, and its child keeps it as its own. -/
theorem chains_end_replaced :
    ∃ (m : Machine Unit) (past : List (Machine Unit)), Run .empty (m :: past) ∧
      m.store.outer 1 = some 0 ∧ m.store.outer 0 = some 2 ∧
      (∀ k, m.store.ancestor (k + 1) (some 0) ≠ some 0) ∧
      ∃ k < m.store.size, m.store.Walk (fun j => (m.store.bindings j).get? "y") 1 k
        (m.store.lookup 1 "y") := by
  let child : Action := .newFrame (some 0)
  let binding : Action := .define 0 "x" (.bool true)
  let m₀ : Machine Unit := ⟨.empty, 0, ()⟩
  let m₁ : Machine Unit := Action.perform .empty (.newFrame none) m₀
  let m₂ : Machine Unit := Action.perform .empty child m₁
  let m₃ : Machine Unit := Action.perform .empty binding m₂
  have hreach : m₃.store.reachable 1 = [1, 0] := by
    have h1 : m₃.store.reachable 1 = 1 :: m₃.store.discover [0] [0] :=
      Store.discover_of_dropWhile_cons rfl
    have h0 : m₃.store.discover [0] [0] = 0 :: m₃.store.discover [] [] :=
      Store.discover_of_dropWhile_cons rfl
    rw [h1, h0, Store.discover_of_dropWhile_nil rfl]
  have hsave : m₃.store.save 1 = .ok (m₃.store.capture 1).text := by
    have hnames : Snapshot.unreadableName? ⟨[1, 0].map (m₃.store.captureBlock [1, 0])⟩ = none := by
      decide
    rw [Store.save, Store.capture, hreach, hnames]
  have hvalues : m₃.store.Worded 1 := by
    rw [Store.Worded, hreach]
    decide
  have hread : Snapshot.ofText (m₃.store.capture 1).text = .ok (m₃.store.capture 1).reread :=
    (Store.wellFormed_capture (by decide) (by decide) (by rw [hreach]; decide) hvalues
      (Store.isReadable_of_save hsave).2).ofText_text
  have hrun : Run .empty [m₃, m₂, m₁, m₀] := by
    refine .step (.step (.step (.start 0 ()) (.newFrame none) ?_) child ?_) binding ?_
    · exact fun _ hi => absurd hi (Option.not_mem_none _)
    · exact fun _ hi => Option.some.inj hi ▸ Nat.zero_lt_one
    · exact fun _ hi => absurd hi List.not_mem_nil
  let m₄ : Machine Unit := Action.perform .empty (.loadInto (m₃.store.capture 1).text 0) m₃
  have hloaded : Run .empty (m₄ :: [m₃, m₂, m₁, m₀]) :=
    hrun.step _ ⟨⟨m₃, List.mem_cons_self, 1, by decide, hvalues, hsave⟩, by decide⟩
  have hstore : m₄.store = (m₃.store.restore 0 (m₃.store.capture 1).reread m₃.supply).1 := by
    change (machineAfter (EvalM.loadInto _ 0 m₃)).store = _
    rw [EvalM.loadInto_of_ofText_ok hread]
    rfl
  have hsize : 1 < m₄.store.size := by
    rw [hstore]
    exact (by decide : 1 < m₃.store.size).trans_le (Store.size_le_restore ..)
  refine ⟨m₄, _, hloaded, ?_, ?_, ?_, ?_⟩
  · rw [hstore, Store.outer_congr (Store.frame?_restore_of_ne (by decide) (by decide) m₃.supply)]
    rfl
  · have houter := Store.outer_restore_capture (by decide : 0 < m₃.store.size)
      (Store.mem_reachable_self (by decide : 1 < m₃.store.size)) m₃.supply
    rw [hreach, ← hstore] at houter
    exact houter
  · exact (chains_end Host.modifiesNone_empty hloaded List.mem_cons_self
      (Nat.zero_lt_of_lt hsize)).2.1
  · obtain ⟨-, -, hlookup, -⟩ := chains_end Host.modifiesNone_empty hloaded
      List.mem_cons_self hsize
    exact hlookup "y"

end Run

end FrameLisp
