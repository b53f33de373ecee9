import FrameLisp.Proofs.Snapshot.RoundTrip

/-!
# Words cannot forge structure

The text of a snapshot holds names and values side by side with the marks and the parentheses that
make its structure. As long as every symbol in it is a word, none of this can be taken for
structure: a symbol may be named like a mark, like a number or like a primitive, and still the text
is loaded as exactly the frames that were saved, with their parents and the names bound in them.

Names of bindings are checked before they are written, but symbols inside values are not. So the
condition on symbols is needed: one whose name closes a form and opens another adds a binding.

## Main results

* `Store.load_save_structure` — frames, parents and names are given back
* `Store.load_save_forged` — a symbol that is not a word adds a binding
-/

namespace FrameLisp

theorem Bindings.Related.names_eq {α β : Type} {R : α → β → Prop} {b : Bindings α}
    {b' : Bindings β} (h : b.Related R b') : b.names = b'.names := by
  rw [names, names, ← List.forall₂_eq_eq_eq, List.forall₂_map_left_iff, List.forall₂_map_right_iff]
  exact h.imp fun _ _ he => he.1

namespace Store

variable {s : Store} {root : FrameId}

theorem length_restoreFrames (target next : FrameId) (bs : List Snapshot.Block) (n : ℕ) :
    (restoreFrames target next bs n).1.length = bs.length :=
  (forall₂_restoreFrames target next bs n).length_eq.symm

/-- The first block replaces a frame, and every other block adds one. -/
theorem size_restore (s : Store) (target : FrameId) (snapshot : Snapshot) (n : ℕ) :
    (s.restore target snapshot n).1.size = s.size + (snapshot.blocks.length - 1) := by
  have hlength := length_restoreFrames target s.size snapshot.blocks n
  rw [restore]
  split
  next hnil =>
    rw [hnil] at hlength
    simp [← hlength]
  next f fs m hcons =>
    rw [hcons] at hlength
    have hfirst : (s.modify target fun _ => f).frames.size = s.size := size_modify ..
    rw [size, ← Array.length_toList, Array.toList_appendList, List.length_append,
      Array.length_toList, hfirst, ← hlength, List.length_cons, Nat.add_sub_cancel]

/-- Loaded frames follow each other. -/
theorem place_next (target : FrameId) (k : ℕ) : place target (target + 1) k = target + k := by
  cases k with
  | zero => rfl
  | succ k => rw [place, Nat.add_right_comm, Nat.add_assoc]

theorem length_blocks_reread_capture (s : Store) (root : FrameId) :
    (s.capture root).reread.blocks.length = (s.reachable root).length := by
  rw [Snapshot.reread, List.length_map, capture, List.length_map]

/-- **Words cannot forge structure.** If saving a graph in which every symbol is a word gives a
text, then loading the text succeeds. It adds one frame for each frame that was saved, in order of
discovery; each has the parent that belongs to the saved one's parent, and binds the names that the
saved one binds to anything but external functions.

Positions of frames are written as numbers, which are exact only up to `2 ^ 53`. -/
theorem load_save_structure {σ : Type} {text : String} (hs : s.Linked) (hroot : root < s.size)
    (hsize : (s.reachable root).length ≤ 2 ^ 53) (hvalues : s.Worded root)
    (hsave : s.save root = .ok text) (m : Machine σ) :
    ∃ m', EvalM.load text m = .ok m.store.size m' ∧
      m'.store.size = m.store.size + (s.reachable root).length ∧
      ∀ k i, (s.reachable root)[k]? = some i →
        m'.store.outer (m.store.size + k) =
          (s.outer i).map (fun j => m.store.size + (s.reachable root).idxOf j) ∧
        (m'.store.bindings (m.store.size + k)).names = (s.withoutExternals.bindings i).names := by
  obtain ⟨m', hload, hstore⟩ := exists_load_of_worded hs hroot hsize hvalues hsave m
  have hpushed : (m.store.push ⟨∅, none⟩).size = m.store.size + 1 := size_push ..
  have htarget := lt_size_push m.store ⟨∅, none⟩
  refine ⟨m', hload, ?_, fun k i hk => ?_⟩
  · obtain ⟨rest, hrest⟩ := reachable_eq_cons hroot
    rw [hstore, size_restore, hpushed, length_blocks_reread_capture, hrest, List.length_cons]
    omega
  · -- a frame is at the position at which it was discovered
    have hi : i ∈ s.reachable root := List.mem_of_getElem? hk
    have hidx : (s.reachable root).idxOf i = k := by
      obtain ⟨hlt, rfl⟩ := List.getElem?_eq_some_iff.mp hk
      exact (nodup_reachable s root).idxOf_getElem k hlt
    have houter := outer_restore_capture htarget hi m.supply
    have hbindings := related_restore_capture htarget hi m.supply
    simp only [hpushed, place_next, hidx] at houter hbindings
    rw [hstore]
    exact ⟨houter, hbindings.names_eq.symm⟩

/-- Symbols named like a mark, like a number and like a primitive, and a function inside a list: two
frames come back, the second with the first as its parent. -/
theorem load_save_structure_marks :
    let s : Store := ⟨#[
      ⟨.ofList [("f", .closure 0 1 ["n"] (.symbol 1 "!SETENV!")), ("host", .external 0)], none⟩,
      ⟨.ofList [("xs", .list 2 [.symbol 3 "-1", .symbol 4 "define",
        .closure 5 0 ["#t"] (.symbol 6 "#t")])], some 0⟩]⟩
    s.Worded 0 ∧ ∃ text, s.save 0 = .ok text ∧ ∃ m',
      EvalM.load text (⟨.empty, 0, ()⟩ : Machine Unit) = .ok 0 m' ∧ m'.store.size = 2 ∧
      m'.store.outer 1 = some 0 ∧ (m'.store.bindings 0).names = ["f"] ∧
      (m'.store.bindings 1).names = ["xs"] := by
  intro s
  have hreach : s.reachable 0 = [0, 1] := by
    have h0 : s.reachable 0 = 0 :: s.discover [1] [1] := discover_of_dropWhile_cons rfl
    have h1 : s.discover [1] [1] = 1 :: s.discover [] [0, 0] := discover_of_dropWhile_cons rfl
    rw [h0, h1, discover_of_dropWhile_nil rfl]
  have hsave : s.save 0 = .ok (s.capture 0).text := by
    have hnames : Snapshot.unreadableName? ⟨[0, 1].map (s.captureBlock [0, 1])⟩ = none := by decide
    rw [save, capture, hreach, hnames]
  have hvalues : s.Worded 0 := by
    rw [Store.Worded, hreach]
    decide
  obtain ⟨m', hload, hsize, hframes⟩ :=
    load_save_structure (by decide) (by decide) (by rw [hreach]; decide) hvalues hsave
      (⟨.empty, 0, ()⟩ : Machine Unit)
  rw [hreach] at hsize hframes
  obtain ⟨-, hnames⟩ := hframes 0 0 rfl
  obtain ⟨houter, hnames'⟩ := hframes 1 1 rfl
  rw [bindings_withoutExternals] at hnames hnames'
  exact ⟨hvalues, _, hsave, m', hload, hsize, houter, hnames, hnames'⟩

/-- A frame that binds one name, to a symbol that is not a word, has the text of a frame that binds
two names; so two names are bound after loading it. -/
theorem load_save_forged :
    let s : Store := ⟨#[⟨.ofList [("a", .symbol 0 "x)\n(define b y")], none⟩]⟩
    let text := "(!ENVCOUNT! 1\n(!SETENV! 0 -1\n(define a x)\n(define b y)\n)\n)"
    (s.withoutExternals.bindings 0).names = ["a"] ∧ s.save 0 = .ok text ∧ ∃ m',
      EvalM.load text (⟨.empty, 0, ()⟩ : Machine Unit) = .ok 0 m' ∧
      (m'.store.bindings 0).names = ["a", "b"] := by
  intro s text
  let t : Store := ⟨#[⟨.ofList [("a", .symbol 0 "x"), ("b", .symbol 1 "y")], none⟩]⟩
  have hreach : s.reachable 0 = [0] := reachable_of_size_eq_one rfl
  have hreach' : t.reachable 0 = [0] := reachable_of_size_eq_one rfl
  have hsave : s.save 0 = .ok text := by
    have hnames : Snapshot.unreadableName? ⟨[0].map (s.captureBlock [0])⟩ = none := by decide
    rw [save, capture, hreach, hnames]
    exact congrArg Except.ok (by decide +kernel)
  have hsave' : t.save 0 = .ok text := by
    have hnames : Snapshot.unreadableName? ⟨[0].map (t.captureBlock [0])⟩ = none := by decide
    rw [save, capture, hreach', hnames]
    exact congrArg Except.ok (by decide +kernel)
  have hvalues : t.Worded 0 := by
    rw [Store.Worded, hreach']
    decide
  obtain ⟨m', hload, hstore⟩ := exists_load_of_worded (by decide) (by decide)
    (by rw [hreach']; decide) hvalues hsave' (⟨.empty, 0, ()⟩ : Machine Unit)
  refine ⟨by rw [bindings_withoutExternals]; decide, hsave, m', hload, ?_⟩
  have hbindings := related_restore_capture (by decide : 0 < (Store.empty.push ⟨∅, none⟩).size)
    (mem_reachable_self (by decide : 0 < t.size)) 0
  rw [hreach', bindings_withoutExternals] at hbindings
  rw [hstore]
  exact hbindings.names_eq.symm

end Store

end FrameLisp
