import FrameLisp.Proofs.Snapshot.Collection
import FrameLisp.Proofs.Snapshot.Savable

/-!
# What saving refuses, and what it writes

Saving goes through the frames in order of discovery, in each of them through the bindings in order
of names, and writes the name of a binding before the parameters of the function bound to it. The
first of these names that would not read back stops it, and nothing else does. Bindings to external
functions are passed over, so their names do not matter.

If nothing stops it, the text is made of one piece for each frame. The pieces are numbered from
zero, in the order in which the frames were discovered.

## Main definitions

* `IsFirst` — the first element of a list with a property
* `Store.writtenNames` — the names that are written for a binding
* `Store.FirstRefused` — the name that stops saving
* `Store.frameText` — what is written for a frame

## Main results

* `find?_flatMap_eq_some_iff` — the first find in a list of lists
* `Store.save_eq_error_iff` — saving is stopped by the first name that would not read back
* `Store.text_capture` — what is written
* `Store.save_fails_exactly` — when saving fails, and what it writes otherwise
-/

namespace FrameLisp

/-! ### First elements -/

section

variable {α β : Type}

/-- An element with a property, and none before it has the property. -/
def IsFirst (p : α → Prop) (as : List α) (a : α) : Prop :=
  ∃ before behind, as = before ++ a :: behind ∧ p a ∧ ∀ b ∈ before, ¬ p b

theorem find?_eq_some_iff_isFirst {p : α → Bool} {as : List α} {a : α} :
    as.find? p = some a ↔ IsFirst (p · = true) as a := by
  rw [List.find?_eq_some_iff_append]
  constructor
  · rintro ⟨ha, before, behind, rfl, hbefore⟩
    exact ⟨before, behind, rfl, ha, by simpa using hbefore⟩
  · rintro ⟨before, behind, rfl, ha, hbefore⟩
    exact ⟨ha, before, behind, rfl, by simpa using hbefore⟩

/-- **The first find in a list of lists** is the first find in the first list that has one. -/
theorem find?_flatMap_eq_some_iff {p : β → Bool} {f : α → List β} {as : List α} {b : β} :
    (as.flatMap f).find? p = some b ↔
      ∃ a, IsFirst (fun a => ∃ b ∈ f a, p b) as a ∧ (f a).find? p = some b := by
  have hnone : ∀ a, (f a).find? p = none ↔ ¬ ∃ b ∈ f a, p b := by simp
  rw [List.find?_flatMap, List.findSome?_eq_some_iff]
  constructor
  · rintro ⟨before, a, behind, rfl, ha, hbefore⟩
    refine ⟨a, ⟨before, behind, rfl, ?_, fun c hc => (hnone c).mp (hbefore c hc)⟩, ha⟩
    exact ⟨b, List.mem_of_find?_eq_some ha, List.find?_some ha⟩
  · rintro ⟨a, ⟨before, behind, rfl, -, hbefore⟩, ha⟩
    exact ⟨before, a, behind, rfl, ha, fun c hc => (hnone c).mpr (hbefore c hc)⟩

end

namespace Store

variable {s : Store} {root : FrameId} {name : String}

/-! ### Names in the order in which they are written -/

/-- The names that are written for a binding: none for an external function, and otherwise its own
name and then the parameters of the function that is bound. -/
def writtenNames (e : String × Value) : List String :=
  if e.2.isInternal then e.1 :: e.2.params else []

/-- A binding that is written with a name that would not read back. -/
def RefusedBinding (e : String × Value) : Prop := ∃ name ∈ writtenNames e, !isReadable name

/-- A frame with such a binding. -/
def RefusedFrame (s : Store) (i : FrameId) : Prop :=
  ∃ e ∈ (s.bindings i).entries, RefusedBinding e

/-- The name that stops saving: it would not read back, and is the first such name of the first
refused binding of the first refused frame. -/
def FirstRefused (s : Store) (root : FrameId) (name : String) : Prop :=
  ∃ i, IsFirst s.RefusedFrame (s.reachable root) i ∧
    ∃ e, IsFirst RefusedBinding (s.bindings i).entries e ∧
      IsFirst (fun name => !isReadable name) (writtenNames e) name

theorem names_captureEntry (order : List FrameId) (e : String × Value) :
    (captureEntry order e.1 e.2).toList.flatMap Snapshot.Entry.names = writtenNames e := by
  obtain ⟨name, v⟩ := e
  cases v <;> simp [captureEntry, writtenNames, Snapshot.Entry.names, Value.isInternal, Value.kind,
    Value.params]

/-- The names in a description, frame by frame and binding by binding. -/
theorem names_capture (s : Store) (root : FrameId) :
    ((s.capture root).blocks.flatMap fun b => b.entries.flatMap Snapshot.Entry.names) =
      (s.reachable root).flatMap fun i => (s.bindings i).entries.flatMap writtenNames := by
  simp only [capture, captureBlock, List.flatMap_map, List.filterMap_eq_flatMap_toList,
    List.flatMap_assoc, names_captureEntry]

theorem unreadableName?_capture :
    (s.capture root).unreadableName? = some name ↔ s.FirstRefused root name := by
  have hframe : (fun i => ∃ name ∈ (s.bindings i).entries.flatMap writtenNames,
      (!isReadable name) = true) = s.RefusedFrame := by
    funext i
    simp only [RefusedFrame, RefusedBinding, List.mem_flatMap, eq_iff_iff]
    constructor
    · rintro ⟨name, ⟨e, he, hname⟩, hrefused⟩
      exact ⟨e, he, name, hname, hrefused⟩
    · rintro ⟨e, he, name, hname, hrefused⟩
      exact ⟨name, ⟨e, he, hname⟩, hrefused⟩
  rw [Snapshot.unreadableName?, names_capture, find?_flatMap_eq_some_iff, hframe]
  refine exists_congr fun i => and_congr_right fun _ => ?_
  rw [find?_flatMap_eq_some_iff]
  exact exists_congr fun e => and_congr_right fun _ => find?_eq_some_iff_isFirst

/-- **Saving is stopped by the first name that would not read back,** and by nothing else. -/
theorem save_eq_error_iff {err : Error} :
    s.save root = .error err ↔ ∃ name, err = .unsavableName name ∧ s.FirstRefused root name := by
  simp only [← unreadableName?_capture]
  rw [save]
  cases (s.capture root).unreadableName? <;> simp [eq_comm]

/-! ### What is written -/

/-- What is written for a binding, where `order` lists the frames by position. -/
def bindingText (order : List FrameId) (e : String × Value) : String :=
  match e.2 with
  | .external _ => ""
  | .closure _ frame _ _ =>
    "(!FUNCENV! " ++ toString (order.idxOf frame) ++ "\n" ++
      ("(define " ++ e.1 ++ " " ++ e.2.text ++ ")\n") ++ ")\n"
  | _ => "(define " ++ e.1 ++ " " ++ e.2.text ++ ")\n"

/-- What is written for the frame at a position: the position, that of its parent or minus one, and
the bindings. -/
def frameText (s : Store) (order : List FrameId) (k : ℕ) (i : FrameId) : String :=
  "(!SETENV! " ++ toString k ++ " " ++ Snapshot.outerText ((s.outer i).map order.idxOf) ++ "\n" ++
    String.join ((s.bindings i).entries.map (bindingText order)) ++ ")\n"

theorem text_captureEntry (order : List FrameId) (e : String × Value) :
    String.join ((captureEntry order e.1 e.2).toList.map Snapshot.Entry.text) =
      bindingText order e := by
  obtain ⟨name, v⟩ := e
  cases v <;> simp [captureEntry, bindingText, Snapshot.Entry.text, Snapshot.definitionText,
    Value.text, Value.toDatum, Snapshot.functionMark]

theorem join_captureEntries (order : List FrameId) (es : List (String × Value)) :
    String.join ((es.filterMap fun e => captureEntry order e.1 e.2).map Snapshot.Entry.text) =
      String.join (es.map (bindingText order)) := by
  induction es with
  | nil => rfl
  | cons e es ih =>
    rw [List.map_cons, String.join_cons, ← ih, ← text_captureEntry, List.filterMap_cons]
    cases captureEntry order e.1 e.2 <;> simp

theorem text_captureBlock (s : Store) (order : List FrameId) (k : ℕ) (i : FrameId) :
    (s.captureBlock order i).text k = s.frameText order k i := by
  have hmark : "(" ++ Snapshot.blockMark ++ " " = "(!SETENV! " := by decide
  rw [Snapshot.Block.text, hmark, captureBlock, join_captureEntries]
  rfl

/-- The frames are numbered one after the other. -/
theorem blocksText_captureBlock (s : Store) (order is : List FrameId) (k : ℕ) :
    Snapshot.blocksText k (is.map (s.captureBlock order)) =
      String.join (is.mapIdx fun j => s.frameText order (k + j)) := by
  induction is generalizing k with
  | nil => rfl
  | cons i is ih =>
    rw [List.map_cons, Snapshot.blocksText, ih, text_captureBlock, List.mapIdx_cons,
      String.join_cons]
    simp only [Nat.add_zero, Nat.add_assoc, Nat.add_comm 1]

/-- **What is written:** the number of frames, and one piece for each of them. -/
theorem text_capture (s : Store) (root : FrameId) :
    (s.capture root).text =
      "(!ENVCOUNT! " ++ toString (s.reachable root).length ++ "\n" ++
        String.join ((s.reachable root).mapIdx (s.frameText (s.reachable root))) ++ ")" := by
  have hmark : "(" ++ Snapshot.headerMark ++ " " = "(!ENVCOUNT! " := by decide
  rw [Snapshot.text, hmark, capture, blocksText_captureBlock, List.length_map]
  simp only [Nat.zero_add]

/-! ### The main result -/

theorem refusedBinding_iff {e : String × Value} :
    RefusedBinding e ↔ e.2.isInternal ∧ ∃ name ∈ e.1 :: e.2.params, ¬ isReadable name := by
  by_cases hinternal : e.2.isInternal <;> simp [RefusedBinding, writtenNames, hinternal]

theorem isError_save_iff :
    (∃ err, s.save root = .error err) ↔ ∃ i ∈ s.reachable root, s.RefusedFrame i := by
  have hsave : (∃ err, s.save root = .error err) ↔ ¬ ∃ text, s.save root = .ok text := by
    cases s.save root <;> simp
  simp only [hsave, exists_save_iff, not_forall, Introduces, RefusedFrame, refusedBinding_iff]
  constructor
  · rintro ⟨name, ⟨i, hi, e, he, hinternal, hname⟩, hrefused⟩
    exact ⟨i, hi, e, he, hinternal, name, hname, hrefused⟩
  · rintro ⟨i, hi, e, he, hinternal, name, hname, hrefused⟩
    exact ⟨name, ⟨i, hi, e, he, hinternal, hname⟩, hrefused⟩

/-- **When saving fails, and what it writes otherwise.** Saving a graph fails exactly if some frame
that can be reached from the root binds anything but an external function under a name that would
not read back, or binds a function with such a parameter. The error then names the first of these
names: frames come in order of discovery, bindings in order of names, and a name comes before the
parameters. Bindings to external functions make no difference, whatever they are called. If saving
succeeds, then the text has one piece for each frame that can be reached, numbered from zero on in
order of discovery. -/
theorem save_fails_exactly {s : Store} {root : FrameId} (hs : s.Linked) (hroot : root < s.size) :
    ((∃ err, s.save root = .error err) ↔
      ∃ i, Relation.ReflTransGen s.Leads root i ∧ ∃ e ∈ (s.bindings i).entries,
        e.2.isInternal ∧ ∃ name ∈ e.1 :: e.2.params, ¬ isReadable name) ∧
    (∀ err, s.save root = .error err ↔
      ∃ name, err = .unsavableName name ∧ s.FirstRefused root name) ∧
    s.withoutExternals.save root = s.save root ∧
    ∀ text, s.save root = .ok text →
      let order := s.reachable root
      order.Nodup ∧ (∀ i, i ∈ order ↔ Relation.ReflTransGen s.Leads root i) ∧
      text = "(!ENVCOUNT! " ++ toString order.length ++ "\n" ++
        String.join (order.mapIdx (s.frameText order)) ++ ")" := by
  have hexact : ∀ i, i ∈ s.reachable root ↔ Relation.ReflTransGen s.Leads root i := by
    intro i
    rw [mem_reachable_iff hs hroot, reaches_iff]
  refine ⟨?_, fun err => save_eq_error_iff, save_withoutExternals s root, ?_⟩
  · rw [isError_save_iff]
    refine exists_congr fun i => and_congr (hexact i) (exists_congr fun e => ?_)
    exact and_congr_right fun _ => refusedBinding_iff
  · intro text htext order
    refine ⟨nodup_reachable s root, hexact, ?_⟩
    rw [← text_capture]
    rw [save] at htext
    split at htext
    · cases htext
    · exact (Except.ok.inj htext).symm

/-- A parameter that would not read back comes before the name in a second frame, and behind the
name of an external function that would not read back either. Without that parameter, only the
external function is left out. -/
theorem save_fails_exactly_parameter :
    let s : Store := ⟨#[
      ⟨⟨[("a z", .external 0), ("f", .closure 0 1 ["x", "a b"] (.bool true))], by decide⟩, none⟩,
      ⟨⟨[("1", .bool true)], by decide⟩, some 0⟩]⟩
    let t : Store := ⟨#[⟨⟨[("a z", .external 0), ("x", .bool true)], by decide⟩, none⟩]⟩
    (s.Linked ∧ 0 < s.size ∧ s.save 0 = .error (.unsavableName "a b")) ∧
      t.Linked ∧ 0 < t.size ∧
        t.save 0 = .ok "(!ENVCOUNT! 1\n(!SETENV! 0 -1\n(define x #t)\n)\n)" := by
  intro s t
  have hs : s.Linked := by decide
  have hfirst : s.FirstRefused 0 "a b" := by
    obtain ⟨rest, hreach⟩ := reachable_eq_cons (show 0 < s.size by decide)
    have hbinding : RefusedBinding ("f", .closure 0 1 ["x", "a b"] (.bool true)) :=
      ⟨"a b", by decide, by decide⟩
    refine ⟨0, ⟨[], rest, hreach, ⟨_, .tail _ (.head _), hbinding⟩, List.forall_mem_nil _⟩, _,
      ⟨[("a z", .external 0)], [], rfl, hbinding, ?_⟩, ["f", "x"], [], rfl, by decide, by decide⟩
    simp [RefusedBinding, writtenNames, Value.isInternal, Value.kind]
  obtain ⟨-, herror, -⟩ := save_fails_exactly hs (by decide : 0 < s.size)
  have ht : t.Linked := by decide
  have hreach : t.reachable 0 = [0] := reachable_of_size_eq_one rfl
  have hsave : t.save 0 = .ok (t.capture 0).text := by
    have hnames : Snapshot.unreadableName? ⟨[0].map (t.captureBlock [0])⟩ = none := by decide
    rw [save, capture, hreach, hnames]
  obtain ⟨-, -, -, hok⟩ := save_fails_exactly ht (by decide : 0 < t.size)
  obtain ⟨-, -, htext⟩ := hok _ hsave
  have hpieces : "(!ENVCOUNT! " ++ toString [0].length ++ "\n" ++
      String.join ([0].mapIdx (t.frameText [0])) ++ ")" =
        "(!ENVCOUNT! 1\n(!SETENV! 0 -1\n(define x #t)\n)\n)" := by decide
  rw [hreach, hpieces] at htext
  exact ⟨⟨hs, by decide, (herror _).mpr ⟨_, rfl, hfirst⟩⟩, ht, by decide, htext ▸ hsave⟩

end Store

end FrameLisp
