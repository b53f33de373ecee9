import FrameLisp.Proofs.Snapshot.Faithful
import FrameLisp.Proofs.Snapshot.Positions
import FrameLisp.Proofs.Snapshot.Structure

/-!
# Loading

What loading builds is said here without going through the text again: a block *stands for* a frame
whose parent is the frame of the block that it refers to, and which binds each name as the last
entry of that name says. A datum is bound as it is, without being evaluated, and a function captures
the frame of the block that it refers to. Each block is restored to a frame that it stands for;
restored frames refer to restored frames only, and no other frame changes.

Together with the grammar this says which texts are loaded, and as what.

## Main definitions

* `Snapshot.Entry.Binds` — the values that an entry stands for
* `Snapshot.Block.Builds` — the frames that a block stands for

## Main results

* `Store.builds_restoreEntries` — a block is restored to a frame that it stands for
* `Store.exists_place_of_mem_links` — restored frames refer to restored frames only
* `Store.linked_restore` — restoring keeps a store linked
* `Store.eq_reread_of_ofText` — a saved text describes the saved graph, or nothing
* `EvalM.load_accepts_grammar` — loading accepts exactly the grammar
-/

namespace FrameLisp

/-! ### What blocks stand for -/

namespace Snapshot

/-- The name that an entry binds. -/
def Entry.name : Entry → String
  | .data name _ => name
  | .function name _ _ _ => name

/-- The entry that counts for a name, which is the last one. -/
def Block.entry? (b : Block) (name : String) : Option Entry :=
  b.entries.reverse.find? (·.name = name)

/-- The values that an entry stands for, where `place` gives the frame of a block: a datum as it is,
unevaluated; and a function in the frame of its block, with its body as it is. -/
def Entry.Binds (place : ℕ → FrameId) : Entry → Value → Prop
  | .data _ value, v => v.IsPlain ∧ v.toDatum = value
  | .function _ k params body, v =>
    ∃ id b, v = .closure id (place k) params b ∧ b.IsPlain ∧ b.toDatum = body

/-- The frames that a block stands for: the parent is the frame of the block that is referred to,
and each name is bound as its last entry says. -/
structure Block.Builds (place : ℕ → FrameId) (b : Block) (f : Frame) : Prop where
  outer : f.outer = b.outer.map place
  bindings : ∀ name, Option.Rel (Entry.Binds place) (b.entry? name) (f.bindings.get? name)

theorem Block.Builds.exists_binds {place : ℕ → FrameId} {b : Block} {f : Frame}
    (h : b.Builds place f) {name : String} {e : Entry} (he : b.entry? name = some e) :
    ∃ v, f.bindings.get? name = some v ∧ e.Binds place v := by
  have hbound := h.bindings name
  rw [he] at hbound
  generalize f.bindings.get? name = o at hbound
  cases hbound with
  | some hv => exact ⟨_, rfl, hv⟩

end Snapshot

/-- The first elements of two lists that pass related tests are related. -/
theorem rel_find?_of_forall₂ {α β γ : Type} {R : α → β → Prop} {S : α → γ → Prop} {p : α → Bool}
    {q : β → Bool} {g : β → γ} {as : List α} {bs : List β} (h : List.Forall₂ R as bs)
    (hpq : ∀ a b, R a b → p a = q b) (hS : ∀ a b, R a b → S a (g b)) :
    Option.Rel S (as.find? p) ((bs.find? q).map g) := by
  induction h with
  | nil => exact .none
  | cons hab _ ih =>
    rw [List.find?_cons, List.find?_cons, hpq _ _ hab]
    split
    next => exact .some (hS _ _ hab)
    next => exact ih

namespace Store

/-! ### What blocks are restored to -/

/-- An entry is restored to a binding that it stands for. -/
theorem binds_restoreEntry (target next : FrameId) (e : Snapshot.Entry) (n : ℕ) :
    (restoreEntry target next e n).1.1 = e.name ∧
      e.Binds (place target next) (restoreEntry target next e n).1.2 := by
  cases e with
  | data name value =>
    exact ⟨rfl, Value.isPlain_instantiate value n, Value.toDatum_instantiate value n⟩
  | function name k params body =>
    exact ⟨rfl, _, _, rfl, Value.isPlain_instantiate body n, Value.toDatum_instantiate body n⟩

theorem binds_restoreEntries (target next : FrameId) (es : List Snapshot.Entry) (n : ℕ) :
    List.Forall₂ (fun e p => p.1 = e.name ∧ e.Binds (place target next) p.2) es
      (restoreEntries target next es n).1 := by
  induction es generalizing n with
  | nil => exact .nil
  | cons e es ih => exact .cons (binds_restoreEntry target next e n) (ih _)

/-- **A block is restored to a frame that it stands for.** -/
theorem builds_restoreEntries (target next : FrameId) (b : Snapshot.Block) (n : ℕ) :
    b.Builds (place target next) ⟨.ofList (restoreEntries target next b.entries n).1,
      b.outer.map (place target next)⟩ := by
  refine ⟨rfl, fun name => ?_⟩
  rw [Bindings.get?_ofList, Snapshot.Block.entry?]
  refine rel_find?_of_forall₂ (List.rel_reverse (binds_restoreEntries target next b.entries n))
    (fun e p he => ?_) fun e p he => he.2
  rw [he.1]

variable {s : Store} {target i : FrameId} {snapshot : Snapshot}

/-- A block is put into its place. -/
theorem exists_frame?_restore (htarget : target < s.size) {k : ℕ} {b : Snapshot.Block}
    (hb : snapshot.blocks[k]? = some b) (n : ℕ) :
    ∃ f n', (s.restore target snapshot n).1.frame? (place target s.size k) = some f ∧
      f = ⟨.ofList (restoreEntries target s.size b.entries n').1,
        b.outer.map (place target s.size)⟩ := by
  obtain ⟨f, hf, n', hf'⟩ :=
    exists_getElem?_of_forall₂ (forall₂_restoreFrames target s.size snapshot.blocks n) hb
  exact ⟨f, n', frame?_restore htarget hf, hf'⟩

/-- **Every other frame stays as it is.** -/
theorem frame?_restore_of_ne (hi : i < s.size) (hne : i ≠ target) (n : ℕ) :
    (s.restore target snapshot n).1.frame? i = s.frame? i := by
  rw [restore_eq_fill]
  cases (restoreFrames target s.size snapshot.blocks n).1 with
  | nil => rfl
  | cons f fs =>
    have hsize : i < (s.modify target fun _ => f).frames.toList.length := by
      rw [Array.length_toList]
      exact hi.trans_eq (size_modify ..).symm
    rw [frame?, fill, ← Array.getElem?_toList, Array.toList_appendList,
      List.getElem?_append_left hsize, Array.getElem?_toList]
    exact (frame?_modify s target _ i).trans (if_neg (Ne.symm hne))

/-! ### What restored frames refer to -/

theorem frames_of_isPlain {v : Value} (h : v.IsPlain) {j : FrameId} : j ∉ v.frames := by
  intro hj
  obtain ⟨id, params, body, hpart⟩ := Value.mem_frames_iff.mp hj
  exact (h _ hpart).1 rfl

theorem exists_place_of_binds {place : ℕ → FrameId} {count : ℕ} {d : Datum} {e : Snapshot.Entry}
    {v : Value} (he : Snapshot.Entry.Describes count d e) (h : e.Binds place v) {j : FrameId}
    (hj : j ∈ v.frames) : ∃ k < count, j = place k := by
  cases he with
  | data name value => exact absurd hj (frames_of_isPlain h.1)
  | function name params body hnumber hk =>
    obtain ⟨id, b, rfl, hplain, -⟩ := h
    rcases List.mem_cons.mp hj with rfl | hj
    · exact ⟨_, hk, rfl⟩
    · exact absurd hj (frames_of_isPlain hplain)

/-- **Restored frames refer to restored frames only.** -/
theorem exists_place_of_mem_links {d : Datum} (hsnapshot : Snapshot.Describes d snapshot)
    (htarget : target < s.size) {n k : ℕ} (hk : k < snapshot.blocks.length) {j : FrameId}
    (hj : j ∈ (s.restore target snapshot n).1.links (place target s.size k)) :
    ∃ l < snapshot.blocks.length, j = place target s.size l := by
  obtain ⟨_, _, hblock⟩ := hsnapshot.exists_block (List.getElem_mem hk)
  obtain ⟨_, _, _, -, houter, hentries⟩ := hblock.exists_parts
  obtain ⟨_, n', hframe, rfl⟩ :=
    exists_frame?_restore htarget (List.getElem?_eq_getElem hk) n
  rw [links, bindings, outer, hframe] at hj
  rcases List.mem_append.mp hj with hbound | hparent
  · obtain ⟨e, he, hj⟩ := List.mem_flatMap.mp hbound
    obtain ⟨entry, hentry, -, hbinds⟩ := Snapshot.exists_mem_of_forall₂
      (binds_restoreEntries target s.size _ n') (Bindings.mem_of_mem_ofList he)
    obtain ⟨_, -, hdescribes⟩ := Snapshot.exists_mem_of_forall₂ hentries hentry
    exact exists_place_of_binds hdescribes hbinds hj
  · obtain ⟨l, hl, rfl⟩ := Option.map_eq_some_iff.mp (Option.mem_toList.mp hparent)
    rw [hl] at houter
    cases houter with
    | some _ hl => exact ⟨l, hl, rfl⟩

theorem size_le_restore (s : Store) (target : FrameId) (snapshot : Snapshot) (n : ℕ) :
    s.size ≤ (s.restore target snapshot n).1.size := by
  rw [size_restore]
  exact Nat.le_add_right _ _

theorem links_congr {t : Store} (h : t.frame? i = s.frame? i) : t.links i = s.links i := by
  rw [links, links, bindings_congr h, outer_congr h]

theorem place_lt_size_restore (htarget : target < s.size) (n : ℕ) {k : ℕ}
    (hk : k < snapshot.blocks.length) :
    place target s.size k < (s.restore target snapshot n).1.size := by
  rw [size_restore]
  cases k with
  | zero => exact Nat.lt_add_right _ htarget
  | succ k => exact Nat.add_lt_add_left (Nat.lt_sub_of_add_lt hk) _

/-- A frame of the store after restoring is one of before, other than the target, or it belongs to a
block. -/
theorem lt_size_or_exists_place {n : ℕ} (hi : i < (s.restore target snapshot n).1.size)
    (hblocks : 0 < snapshot.blocks.length) :
    i < s.size ∧ i ≠ target ∨ ∃ k < snapshot.blocks.length, i = place target s.size k := by
  by_cases heq : i = target
  · exact .inr ⟨0, hblocks, heq⟩
  · rcases Nat.lt_or_ge i s.size with hlt | hle
    · exact .inl ⟨hlt, heq⟩
    · obtain ⟨k, rfl⟩ := Nat.exists_eq_add_of_le hle
      rw [size_restore] at hi
      have hk : k < snapshot.blocks.length - 1 := Nat.lt_of_add_lt_add_left hi
      exact .inr ⟨k + 1, Nat.add_lt_of_lt_sub hk, rfl⟩

/-- Where a restored graph has a frame: in its target or behind the frames that were there. -/
theorem exists_place_of_reaches {d : Datum} (hsnapshot : Snapshot.Describes d snapshot)
    (htarget : target < s.size) {n : ℕ}
    (h : (s.restore target snapshot n).1.Reaches target i) :
    ∃ k < snapshot.blocks.length, i = place target s.size k := by
  induction h with
  | refl => exact ⟨0, hsnapshot.length_pos, rfl⟩
  | tail _ hlink ih =>
    obtain ⟨k, hk, rfl⟩ := ih
    exact exists_place_of_mem_links hsnapshot htarget hk hlink

/-- **Restoring keeps a store linked.** -/
theorem linked_restore {d : Datum} (hsnapshot : Snapshot.Describes d snapshot) (hs : s.Linked)
    (htarget : target < s.size) (n : ℕ) : (s.restore target snapshot n).1.Linked := by
  refine linked_iff.mpr fun i hi j hj => ?_
  rcases lt_size_or_exists_place hi hsnapshot.length_pos with ⟨hlt, hne⟩ | ⟨k, hk, rfl⟩
  · rw [links_congr (frame?_restore_of_ne hlt hne n)] at hj
    exact (hs i j hj).trans_le (size_le_restore s target snapshot n)
  · obtain ⟨l, hl, rfl⟩ := exists_place_of_mem_links hsnapshot htarget hk hj
    exact place_lt_size_restore htarget n hl

/-! ### What saved texts describe -/

/-- **A saved text describes the saved graph,** with its data as they are reread, or nothing at all.
The text of a graph is read as its description even if there are too many frames to number them; but
then it is refused. -/
theorem eq_reread_of_ofText {root : FrameId} (hs : s.Linked) (hroot : root < s.size)
    (hvalues : s.Worded root) {text : String} (hsave : s.save root = .ok text)
    (htext : Snapshot.ofText text = .ok snapshot) : snapshot = (s.capture root).reread := by
  obtain ⟨rfl, hnames⟩ := isReadable_of_save hsave
  have hblocks := wellFormed_captureBlocks hs hvalues hnames
  have hdatum : Snapshot.ofDatum (s.capture root).form.value = .ok snapshot := by
    rw [Snapshot.ofText, Reading.toExcept_of_kinds (Snapshot.kinds_text hblocks)] at htext
    exact htext
  have hdescribes := Snapshot.describes_of_ofDatum hdatum
  have hsize : (s.reachable root).length ≤ 2 ^ 53 := by
    have hle := hdescribes.length_le
    rw [hdescribes.length_eq, Snapshot.length_values_blocksForms, capture, List.length_map] at hle
    exact hle
  have hwell := wellFormed_capture hs hroot hsize hvalues hnames
  rw [hwell.ofDatum_form] at hdatum
  exact (Except.ok.inj hdatum).symm

end Store

/-! ### The main result -/

namespace EvalM

variable {σ : Type}

open Snapshot (Describes)

/-- What is built from a described text. -/
theorem exists_load_of_describes {text : String} {s : Snapshot}
    (hread : (Reading.ofText text).errors = []) (hs : Describes (Reading.ofText text).value s)
    (m : Machine σ) :
    ∃ m', load text m = .ok m.store.size m' ∧
      m'.store.size = m.store.size + s.blocks.length ∧
      (∀ i < m.store.size, m'.store.frame? i = m.store.frame? i) ∧
      ∀ k b, s.blocks[k]? = some b → ∃ f, m'.store.frame? (m.store.size + k) = some f ∧
        b.Builds (m.store.size + ·) f := by
  have hpushed : (m.store.push ⟨∅, none⟩).size = m.store.size + 1 := Store.size_push ..
  have hplace : Store.place m.store.size (m.store.push ⟨∅, none⟩).size = (m.store.size + ·) := by
    rw [hpushed]
    exact funext (Store.place_next m.store.size)
  have htext := Snapshot.ofText_eq_ok_iff.mpr ⟨hread, hs⟩
  refine ⟨_, load_of_ofText_ok htext, ?_, fun i hi => ?_, fun k b hb => ?_⟩
  · have hpos := hs.length_pos
    rw [Store.size_restore, hpushed, Nat.add_assoc, Nat.add_sub_cancel' hpos]
  · rw [Store.frame?_restore_of_ne (hi.trans (Store.lt_size_push ..)) hi.ne, Store.frame?_push,
      if_neg hi.ne]
  · obtain ⟨f, n, hframe, hf⟩ :=
      Store.exists_frame?_restore (Store.lt_size_push m.store ⟨∅, none⟩) hb m.supply
    have hbuilds := Store.builds_restoreEntries m.store.size (m.store.push ⟨∅, none⟩).size b n
    rw [← hf] at hbuilds
    rw [hplace] at hframe hbuilds
    exact ⟨f, hframe, hbuilds⟩

/-- **Loading accepts exactly the grammar.** A text is loaded if and only if it is read without
errors and its form describes a snapshot. Then the frames that are built follow those that are
there, which stay as they are, and each is what its block stands for. Any other text is refused with
an invalid snapshot, and changes nothing. Loading by position gives the same frames and the same
faults, and never goes out of range. -/
theorem load_accepts_grammar (text : String) (m : Machine σ) :
    ((∃ root m', load text m = .ok root m') ↔
      (Reading.ofText text).errors = [] ∧ ∃ s, Describes (Reading.ofText text).value s) ∧
    (∀ s, (Reading.ofText text).errors = [] → Describes (Reading.ofText text).value s →
      ∃ m', load text m = .ok m.store.size m' ∧
        m'.store.size = m.store.size + s.blocks.length ∧
        (∀ i < m.store.size, m'.store.frame? i = m.store.frame? i) ∧
        ∀ k b, s.blocks[k]? = some b → ∃ f, m'.store.frame? (m.store.size + k) = some f ∧
          b.Builds (m.store.size + ·) f) ∧
    (¬ ((Reading.ofText text).errors = [] ∧ ∃ s, Describes (Reading.ofText text).value s) →
      ∃ fault, load text m = .error (.failed (.invalidSnapshot fault)) m) ∧
    (∀ root m', loadAt text m = .ok (root, m') ↔ load text m = .ok root m') ∧
    (∀ fault, loadAt text m = .error (.rejected fault) ↔
      load text m = .error (.failed (.invalidSnapshot fault)) m) ∧
    loadAt text m ≠ .error .outOfRange := by
  have hrefused : ¬ ((Reading.ofText text).errors = [] ∧
      ∃ s, Describes (Reading.ofText text).value s) →
      ∃ fault, load text m = .error (.failed (.invalidSnapshot fault)) m := by
    intro hnot
    cases htext : Snapshot.ofText text with
    | ok s =>
      obtain ⟨hread, hs⟩ := Snapshot.ofText_eq_ok_iff.mp htext
      exact absurd ⟨hread, s, hs⟩ hnot
    | error fault => exact ⟨fault, load_of_ofText_error htext⟩
  refine ⟨⟨?_, ?_⟩, fun s hread hs => exists_load_of_describes hread hs m, hrefused,
    fun _ _ => loadAt_eq_ok_iff, fun fault => ?_, fun hrange => ?_⟩
  · rintro ⟨root, m', hload⟩
    by_contra hnot
    obtain ⟨fault, hfault⟩ := hrefused hnot
    rw [hfault] at hload
    cases hload
  · rintro ⟨hread, s, hs⟩
    obtain ⟨m', hload, -⟩ := exists_load_of_describes hread hs m
    exact ⟨_, m', hload⟩
  · rw [loadAt_eq_error_iff]
    simp
  · obtain ⟨fault, hfault, -⟩ := loadAt_eq_error_iff.mp hrange
    cases hfault

/-- A name that is bound twice, the second time to a form that is not evaluated; and a function that
captures the frame of the second block, whose parent is the first. -/
theorem load_accepts_grammar_override :
    let text := "(!ENVCOUNT! 2\n(!SETENV! 0 -1\n(define x #t)\n(!FUNCENV! 1\n" ++
      "(define f (lambda (n) x))\n)\n(define x (+ n))\n)\n(!SETENV! 1 0\n)\n)"
    ∃ m', load text (⟨.empty, 0, ()⟩ : Machine Unit) = .ok 0 m' ∧ m'.store.size = 2 ∧
      m'.store.outer 0 = none ∧ m'.store.outer 1 = some 0 ∧
      (∃ v, (m'.store.bindings 0).get? "x" = some v ∧
        v.toDatum = .list [.atom (.builtin .add), .symbol "n"]) ∧
      ∃ id body, (m'.store.bindings 0).get? "f" = some (.closure id 1 ["n"] body) := by
  intro text
  let sum : Datum := .list [.atom (.builtin .add), .symbol "n"]
  let first : Snapshot.Block :=
    ⟨none, [.data "x" (.bool true), .function "f" 1 ["n"] (.symbol "x"), .data "x" sum]⟩
  have hn : Datum.Readable (.symbol "n") := .symbol (readsBack_of_isReadable (by decide))
  have hx : Datum.Readable (.symbol "x") := .symbol (readsBack_of_isReadable (by decide))
  have hsum : sum.Readable :=
    .list (List.forall_mem_cons.mpr ⟨.atom _, List.forall_mem_singleton.mpr hn⟩)
  have hwell : Snapshot.WellFormed ⟨[first, ⟨some 0, []⟩]⟩ := ⟨by decide, by decide, by decide⟩
  have hreread : Snapshot.reread ⟨[first, ⟨some 0, []⟩]⟩ = ⟨[first, ⟨some 0, []⟩]⟩ := by
    simp only [Snapshot.reread, Snapshot.Block.reread, Snapshot.Entry.reread, first, List.map_cons,
      List.map_nil, hsum.reread, hx.reread, (Datum.Readable.bool true).reread]
  have htext : Snapshot.text ⟨[first, ⟨some 0, []⟩]⟩ = text := by decide +kernel
  have hok := hwell.ofText_text
  rw [hreread, htext] at hok
  obtain ⟨hread, hs⟩ := Snapshot.ofText_eq_ok_iff.mp hok
  obtain ⟨-, hbuilt, -⟩ := load_accepts_grammar text (⟨.empty, 0, ()⟩ : Machine Unit)
  obtain ⟨m', hload, hsize, -, hframes⟩ := hbuilt _ hread hs
  obtain ⟨f, (hf : m'.store.frame? 0 = some f), hfirst⟩ := hframes 0 first rfl
  obtain ⟨g, (hg : m'.store.frame? 1 = some g), hsecond⟩ := hframes 1 ⟨some 0, []⟩ rfl
  refine ⟨m', hload, hsize, ?_, ?_, ?_, ?_⟩
  · rw [Store.outer, hf]
    exact hfirst.outer
  · rw [Store.outer, hg]
    exact hsecond.outer
  · obtain ⟨v, hv, -, hdatum⟩ :=
      hfirst.exists_binds (show first.entry? "x" = some (.data "x" sum) from rfl)
    rw [Store.bindings, hf]
    exact ⟨v, hv, hdatum⟩
  · obtain ⟨_, hv, id, body, rfl, -⟩ := hfirst.exists_binds
      (show first.entry? "f" = some (.function "f" 1 ["n"] (.symbol "x")) from rfl)
    rw [Store.bindings, hf]
    exact ⟨id, body, hv⟩

end EvalM

end FrameLisp
