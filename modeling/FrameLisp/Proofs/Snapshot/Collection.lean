import FrameLisp.Proofs.Store.Traversal
import FrameLisp.Proofs.Value.Parts
import Mathlib.Data.List.Perm.Subperm

/-!
# Collection is exact

Before a graph is written, its frames are collected. The collection holds every frame that can be
reached through parents and through closures inside bound values, however deep in lists or bodies
they sit, and it holds each of them once. So whatever a written block has to refer to has a
position.

Saving takes positions for granted. Beside it stands a writer that looks every position up and
checks every name when it comes to it, block by block, and that may fail at each of these points.
The two agree: on a linked store no position is ever missing.

## Main definitions

* `Store.Leads` — the steps of the walk, stated on parents and parts of bound values
* `Store.checkedCapture`, `Store.checkedSave` — describe and write a graph with failing look-ups

## Main results

* `Store.reaches_iff` — following links is following `Store.Leads`
* `Store.checkedCapture_eq` — only an unreadable name can stand in the way of a description
* `Store.collection_exact` — the collection is exact, and no position is missing
-/

namespace FrameLisp

namespace Store

variable {s : Store} {i j root : FrameId} {order : List FrameId}

/-! ### Steps of the walk -/

/-- One frame leads to another: to its parent, and to the frame of every closure somewhere inside a
value that it binds. -/
inductive Leads (s : Store) (i : FrameId) : FrameId → Prop where
  | parent {j : FrameId} (houter : s.outer i = some j) : Leads s i j
  | closure {e : String × Value} {id : Identity} {j : FrameId} {params : List String}
      {body : Value} (hbound : e ∈ (s.bindings i).entries)
      (hpart : Value.closure id j params body ∈ e.2.parts) : Leads s i j

theorem mem_links_iff : j ∈ s.links i ↔ s.Leads i j := by
  constructor
  · intro h
    rcases List.mem_append.mp h with hbound | houter
    · obtain ⟨e, he, hframe⟩ := List.mem_flatMap.mp hbound
      obtain ⟨id, params, body, hpart⟩ := Value.mem_frames_iff.mp hframe
      exact .closure he hpart
    · exact .parent (Option.mem_toList.mp houter)
  · intro h
    cases h with
    | parent houter => exact mem_links_of_outer houter
    | closure hbound hpart =>
      exact mem_links_of_binding hbound (Value.mem_frames_iff.mpr ⟨_, _, _, hpart⟩)

theorem reaches_iff : s.Reaches i j ↔ Relation.ReflTransGen s.Leads i j := by
  have hstep : (fun i j => j ∈ s.links i) = s.Leads := by
    funext i j
    exact propext mem_links_iff
  rw [Reaches, hstep]

/-! ### A writer with failing look-ups -/

/-- What stops the writer. -/
inductive WriteFault where
  /-- A frame has no position. -/
  | missingFrame (i : FrameId)
  /-- A name would not read back. -/
  | unreadableName (name : String)

/-- The position of a frame, if it has one. -/
def position (order : List FrameId) (i : FrameId) : Except WriteFault Nat :=
  if i ∈ order then .ok (order.idxOf i) else .error (.missingFrame i)

/-- Check names one after the other. -/
def checkNames : List String → Except WriteFault Unit
  | [] => .ok ()
  | name :: names => if isReadable name then checkNames names else .error (.unreadableName name)

/-- The description of one binding: its names are checked before its frame is looked up. -/
def checkedEntry (order : List FrameId) (name : String) :
    Value → Except WriteFault (Option Snapshot.Entry)
  | .external _ => .ok none
  | .closure _ frame params body => do
    checkNames (name :: params)
    let k ← position order frame
    .ok (some (.function name k params body.toDatum))
  | v => do
    checkNames [name]
    .ok (some (.data name v.toDatum))

/-- The position of a parent, if there is a parent. -/
def checkedOuter (order : List FrameId) : Option FrameId → Except WriteFault (Option Nat)
  | none => .ok none
  | some i => do
    let k ← position order i
    .ok (some k)

/-- The description of one frame: its parent is looked up before its bindings are described. -/
def checkedBlock (s : Store) (order : List FrameId) (i : FrameId) :
    Except WriteFault Snapshot.Block := do
  let outer ← checkedOuter order (s.outer i)
  let entries ← (s.bindings i).entries.mapM fun e => checkedEntry order e.1 e.2
  .ok ⟨outer, entries.filterMap id⟩

/-- The description of a graph, block by block. -/
def checkedCapture (s : Store) (root : FrameId) : Except WriteFault Snapshot := do
  let blocks ← (s.reachable root).mapM (s.checkedBlock (s.reachable root))
  .ok ⟨blocks⟩

/-- The text of a graph, or what stopped the writer first. -/
def checkedSave (s : Store) (root : FrameId) : Except WriteFault String := do
  let snapshot ← s.checkedCapture root
  .ok snapshot.text

/-! ### The first fault

Each part of the writer either meets a fault or does what saving does. Over a list, the first fault
of an element is the first fault of the whole. -/

/-- A result, unless there is a fault. -/
def unlessFault {α : Type} (fault : Option WriteFault) (a : α) : Except WriteFault α :=
  match fault with
  | some f => .error f
  | none => .ok a

/-- The first name that stops the writer. -/
def nameFault? (names : List String) : Option WriteFault :=
  (names.find? (!isReadable ·)).map .unreadableName

theorem nameFault?_flatMap {α : Type} (names : α → List String) (as : List α) :
    nameFault? (as.flatMap names) = as.findSome? fun a => nameFault? (names a) := by
  rw [nameFault?, List.find?_flatMap, List.map_findSome?]
  rfl

theorem mapM_unlessFault {α β : Type} {f : α → Except WriteFault β} {g : α → β}
    {fault : α → Option WriteFault} {as : List α}
    (h : ∀ a ∈ as, f a = unlessFault (fault a) (g a)) :
    as.mapM f = unlessFault (as.findSome? fault) (as.map g) := by
  induction as with
  | nil => rfl
  | cons a as ih =>
    rw [List.mapM_cons, h a List.mem_cons_self, ih fun b hb => h b (List.mem_cons_of_mem a hb),
      List.findSome?_cons]
    cases fault a with
    | some _ => rfl
    | none => cases as.findSome? fault <;> rfl

theorem checkNames_eq (names : List String) :
    checkNames names = unlessFault (nameFault? names) () := by
  induction names with
  | nil => rfl
  | cons name names ih =>
    rw [checkNames, ih, nameFault?, nameFault?, List.find?_cons]
    cases isReadable name <;> rfl

theorem position_of_mem (h : i ∈ order) : position order i = .ok (order.idxOf i) := if_pos h

theorem checkedEntry_eq (name : String) {v : Value} (hframes : ∀ i ∈ v.frames, i ∈ order) :
    checkedEntry order name v =
      unlessFault (nameFault? ((captureEntry order name v).toList.flatMap Snapshot.Entry.names))
        (captureEntry order name v) := by
  cases v with
  | external ref => rfl
  | closure id frame params body =>
    have hframe : frame ∈ order := hframes frame List.mem_cons_self
    simp only [checkedEntry, captureEntry, checkNames_eq, position_of_mem hframe, Option.toList,
      List.flatMap_cons, List.flatMap_nil, List.append_nil, Snapshot.Entry.names]
    cases nameFault? (name :: params) <;> rfl
  | atom | symbol | number | bool | list =>
    simp only [checkedEntry, captureEntry, checkNames_eq, Option.toList,
      List.flatMap_cons, List.flatMap_nil, List.append_nil, Snapshot.Entry.names]
    cases nameFault? [name] <;> rfl

theorem checkedOuter_eq {o : Option FrameId} (houter : ∀ i ∈ o, i ∈ order) :
    checkedOuter order o = .ok (o.map order.idxOf) := by
  cases o with
  | none => rfl
  | some i => rw [checkedOuter, position_of_mem (houter i rfl)]; rfl

theorem checkedBlock_eq (hlinks : ∀ j ∈ s.links i, j ∈ order) :
    s.checkedBlock order i =
      unlessFault (nameFault? ((s.captureBlock order i).entries.flatMap Snapshot.Entry.names))
        (s.captureBlock order i) := by
  have houter := checkedOuter_eq fun j hj => hlinks j (mem_links_of_outer hj)
  have hentries : (s.bindings i).entries.mapM (fun e => checkedEntry order e.1 e.2) = _ :=
    mapM_unlessFault fun e he =>
      checkedEntry_eq e.1 fun j hj => hlinks j (mem_links_of_binding he hj)
  rw [checkedBlock, houter, hentries, captureBlock, List.filterMap_eq_flatMap_toList,
    List.flatMap_assoc, nameFault?_flatMap, ← List.filterMap_eq_flatMap_toList]
  cases List.findSome? _ (s.bindings i).entries with
  | some _ => rfl
  | none => simp [unlessFault, bind, Except.bind, List.filterMap_map]

/-- **Only an unreadable name can stand in the way of a description.** -/
theorem checkedCapture_eq (hs : s.Linked) (root : FrameId) :
    s.checkedCapture root =
      unlessFault ((s.capture root).unreadableName?.map .unreadableName) (s.capture root) := by
  have hblocks := mapM_unlessFault fun i (hi : i ∈ s.reachable root) =>
    checkedBlock_eq fun j hj => mem_reachable_of_link hs hi hj
  have hnames : (s.capture root).unreadableName?.map WriteFault.unreadableName =
      nameFault? ((s.reachable root).flatMap fun i =>
        (s.captureBlock (s.reachable root) i).entries.flatMap Snapshot.Entry.names) := by
    rw [Snapshot.unreadableName?, capture, List.flatMap_map]
    rfl
  rw [checkedCapture, hblocks, hnames, nameFault?_flatMap]
  cases List.findSome? _ (s.reachable root) <;> rfl

theorem checkedSave_eq_ok_iff (hs : s.Linked) {text : String} :
    s.checkedSave root = .ok text ↔ s.save root = .ok text := by
  rw [checkedSave, checkedCapture_eq hs, save]
  cases (s.capture root).unreadableName? <;> simp [unlessFault, bind, Except.bind]

theorem checkedSave_eq_error_iff (hs : s.Linked) {fault : WriteFault} :
    s.checkedSave root = .error fault ↔
      ∃ name, fault = .unreadableName name ∧ s.save root = .error (.unsavableName name) := by
  rw [checkedSave, checkedCapture_eq hs, save]
  cases (s.capture root).unreadableName? <;> simp [unlessFault, bind, Except.bind, eq_comm]

/-! ### The main result -/

/-- **Collection is exact.** From a root of a linked store, whatever cycles there are, the walk
collects at most as many frames as there are. It collects the root first and every frame once, and
it collects the frames that parents and closures lead to from the root and no others. So parents of
collected frames are collected, and so are the frames of all closures that they bind; and the writer
that looks positions up never misses one, but writes the saved text or stops at the name at which
saving stops. The recursion that visits frames, bound values and parents always ends, and collects
the same frames in the same order. -/
theorem collection_exact {s : Store} {root : FrameId} (hs : s.Linked) (hroot : root < s.size) :
    (s.reachable root).Nodup ∧
    (s.reachable root).length ≤ s.size ∧
    (s.reachable root).head? = some root ∧
    (∀ i, i ∈ s.reachable root ↔ Relation.ReflTransGen s.Leads root i) ∧
    (∀ i ∈ s.reachable root, ∀ j, s.outer i = some j → j ∈ s.reachable root) ∧
    (∀ i ∈ s.reachable root, ∀ e ∈ (s.bindings i).entries, ∀ id j params body,
      Value.closure id j params body ∈ e.2.parts → j ∈ s.reachable root) ∧
    (∀ i, s.checkedSave root ≠ .error (.missingFrame i)) ∧
    (∀ text, s.checkedSave root = .ok text ↔ s.save root = .ok text) ∧
    (∀ name, s.checkedSave root = .error (.unreadableName name) ↔
      s.save root = .error (.unsavableName name)) ∧
    ∃ bound, ∀ fuel ≥ bound, Traversal.visitFrame s fuel root [] = some (s.reachable root) := by
  have hnodup := nodup_reachable s root
  have hclosed : ∀ i ∈ s.reachable root, ∀ j, s.Leads i j → j ∈ s.reachable root :=
    fun i hi j hij => mem_reachable_of_link hs hi (mem_links_iff.mpr hij)
  refine ⟨hnodup, ?_, ?_, ?_, ?_, ?_, ?_, fun _ => checkedSave_eq_ok_iff hs, ?_,
    Traversal.gives_reachable hs hroot⟩
  · have hsubset : s.reachable root ⊆ List.range s.size :=
      fun i hi => List.mem_range.mpr (lt_size_of_mem_reachable hi)
    simpa using (List.subperm_of_subset hnodup hsubset).length_le
  · obtain ⟨rest, hcons⟩ := reachable_eq_cons hroot
    rw [hcons, List.head?_cons]
  · intro i
    rw [mem_reachable_iff hs hroot, reaches_iff]
  · intro i hi j houter
    exact hclosed i hi j (.parent houter)
  · intro i hi e he id j params body hpart
    exact hclosed i hi j (.closure he hpart)
  · intro i hfault
    obtain ⟨name, hname, -⟩ := (checkedSave_eq_error_iff hs).mp hfault
    cases hname
  · intro name
    rw [checkedSave_eq_error_iff hs]
    simp

/-- The root binds a closure of its own frame, and a closure two lists deep leads on to a frame and
its parent, which refer to each other. The frame that only refers to the root is not collected. -/
theorem collection_exact_nested :
    let s : Store := ⟨#[
      ⟨.ofList [("again", .closure 0 0 [] (.symbol 1 "again")),
        ("fs", .list 2 [.list 3 [.closure 4 2 ["n"] (.symbol 5 "n")]])], none⟩,
      ⟨.ofList [("f", .closure 6 0 [] (.bool true))], some 0⟩,
      ⟨.ofList [("g", .list 7 [])], some 3⟩,
      ⟨.ofList [("h", .closure 8 3 [] (.closure 9 2 [] (.bool true)))], none⟩]⟩
    s.Linked ∧ 0 < s.size ∧ s.reachable 0 = [0, 2, 3] ∧
      Relation.ReflTransGen s.Leads 0 3 ∧ ¬ Relation.ReflTransGen s.Leads 0 1 ∧
      (∃ text, s.save 0 = .ok text ∧ s.checkedSave 0 = .ok text) ∧
      ∃ fuel, Traversal.visitFrame s fuel 0 [] = some [0, 2, 3] := by
  intro s
  have hlinked : s.Linked := by decide
  have hreach : s.reachable 0 = [0, 2, 3] := by
    have h0 : s.reachable 0 = 0 :: s.discover [1, 2, 3] [0, 2] := discover_of_dropWhile_cons rfl
    have h2 : s.discover [1, 2, 3] [0, 2] = 2 :: s.discover [1, 3] [3] :=
      discover_of_dropWhile_cons rfl
    have h3 : s.discover [1, 3] [3] = 3 :: s.discover [1] [3, 2] := discover_of_dropWhile_cons rfl
    rw [h0, h2, h3, discover_of_dropWhile_nil rfl]
  have hsave : s.save 0 = .ok (s.capture 0).text := by
    have hnames : Snapshot.unreadableName? ⟨[0, 2, 3].map (s.captureBlock [0, 2, 3])⟩ = none := by
      decide
    rw [save, capture, hreach, hnames]
  obtain ⟨-, -, -, hexact, -, -, -, hok, -, bound, hvisit⟩ :=
    collection_exact hlinked (by decide : 0 < s.size)
  rw [hreach] at hvisit
  refine ⟨hlinked, by decide, hreach, ?_, ?_, ⟨_, hsave, (hok _).mpr hsave⟩, bound,
    hvisit bound le_rfl⟩
  · rw [← hexact, hreach]
    decide
  · rw [← hexact, hreach]
    decide

end Store

end FrameLisp
