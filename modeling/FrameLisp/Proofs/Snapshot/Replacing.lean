import FrameLisp.Proofs.Snapshot.Loading
import FrameLisp.Proofs.Store.Ending

/-!
# Loading into a frame

A text can be loaded into a frame that is there already. Child frames and closures that refer to the
frame go on referring to it, so they see the restored graph in its place. If the text describes no
snapshot, nothing at all changes. If it does, then the frame gets what the first block stands for,
the frames of the other blocks are new, and all other frames stay as they are. Restored frames refer
to restored frames only, so nothing of the old graph can be reached from the frame any more. A
look-up that comes to the frame from below goes on in the restored graph.

## Main results

* `Store.lookup_of_chain_eq_append` — look-ups that come to a frame
* `EvalM.loadInto_replaces` — what loading into a frame changes, and what it does not
-/

namespace FrameLisp

namespace Store

variable {s t : Store} {i j : FrameId}

/-- If all frames on the way to a frame have the same parents in another store, and nothing is found
in them there, then the other store finds the same from the start and from the frame. -/
theorem findSome?_chain_of_append {α : Type} (f : FrameId → Option α) {env : FrameId}
    {below rest : List FrameId} (h : s.chain env = below ++ i :: rest) (ht : t.Linked)
    (henv : env < t.size) (houter : ∀ j ∈ below, t.outer j = s.outer j)
    (hbelow : ∀ j ∈ below, f j = none) : (t.chain env).findSome? f = (t.chain i).findSome? f := by
  rw [← findSome?_chainFrom f (fun _ _ => ht.lt_of_ancestor henv) (Nat.le_add_left _ below.length),
    chainFrom_eq_append h houter, List.findSome?_append, List.findSome?_eq_none_iff.mpr hbelow,
    Option.none_or, chain]

/-- **Look-ups that come to a frame** go on as they do from the frame. -/
theorem lookup_of_chain_eq_append {env : FrameId} {below rest : List FrameId}
    (h : s.chain env = below ++ i :: rest) (ht : t.Linked) (henv : env < t.size)
    (hframes : ∀ j ∈ below, t.frame? j = s.frame? j) {name : String}
    (hname : ∀ j ∈ below, (s.bindings j).get? name = none) :
    t.lookup env name = t.lookup i name ∧ t.resolve? env name = t.resolve? i name := by
  have houter : ∀ j ∈ below, t.outer j = s.outer j := fun j hj => outer_congr (hframes j hj)
  have hunbound : ∀ j ∈ below, (t.bindings j).get? name = none := by
    intro j hj
    rw [bindings_congr (hframes j hj), hname j hj]
  refine ⟨findSome?_chain_of_append _ h ht henv houter hunbound, ?_⟩
  rw [resolve?_eq_findSome?, resolve?_eq_findSome?]
  refine findSome?_chain_of_append _ h ht henv houter fun j hj => ?_
  simp [Bindings.contains, hunbound j hj]

end Store

namespace EvalM

variable {σ : Type} {text : String} {target : FrameId} {m : Machine σ}

theorem loadInto_of_ofText_ok {s : Snapshot} (h : Snapshot.ofText text = .ok s) :
    loadInto text target m = .ok () ⟨(m.store.restore target s m.supply).1,
      (m.store.restore target s m.supply).2, m.desk⟩ := by
  rw [loadInto, h]

theorem loadInto_of_ofText_error {fault : LoadFault} (h : Snapshot.ofText text = .error fault) :
    loadInto text target m = .error (.failed (.invalidSnapshot fault)) m := by
  rw [loadInto, h]
  rfl

/-- **Loading into a frame replaces it or changes nothing.** If a text describes no snapshot,
loading it into a frame of a linked store is refused as an invalid snapshot, and the machine stays
as it is. Otherwise the frame gets what the first block stands for; the frames of the other blocks
are new, and all other frames stay as they are. From the frame, only itself and new frames can be
reached. And where a chain comes to the frame, a name that is not bound before is found as it is
from the frame. -/
theorem loadInto_replaces (text : String) {m : Machine σ} (hm : m.store.Linked)
    (htarget : target < m.store.size) :
    (∀ fault, Snapshot.ofText text = .error fault →
      loadInto text target m = .error (.failed (.invalidSnapshot fault)) m) ∧
    ∀ s, Snapshot.ofText text = .ok s → ∃ m', loadInto text target m = .ok () m' ∧
      (∃ b f, s.blocks.head? = some b ∧ m'.store.frame? target = some f ∧
        b.Builds (Store.place target m.store.size) f) ∧
      (∀ k b, s.blocks[k + 1]? = some b → ∃ f, m'.store.frame? (m.store.size + k) = some f ∧
        b.Builds (Store.place target m.store.size) f) ∧
      (∀ i < m.store.size, i ≠ target → m'.store.frame? i = m.store.frame? i) ∧
      (∀ i, m'.store.Reaches target i →
        i = target ∨ m.store.size ≤ i ∧ i < m'.store.size) ∧
      ∀ env < m.store.size, ∀ below rest, m.store.chain env = below ++ target :: rest →
        target ∉ below → ∀ name, (∀ i ∈ below, (m.store.bindings i).get? name = none) →
          m'.store.lookup env name = m'.store.lookup target name ∧
            m'.store.resolve? env name = m'.store.resolve? target name := by
  refine ⟨fun fault => loadInto_of_ofText_error, fun s htext => ?_⟩
  obtain ⟨-, hs⟩ := Snapshot.ofText_eq_ok_iff.mp htext
  have hbuilt : ∀ k b, s.blocks[k]? = some b →
      ∃ f, (m.store.restore target s m.supply).1.frame? (Store.place target m.store.size k) =
        some f ∧ b.Builds (Store.place target m.store.size) f := by
    intro k b hb
    obtain ⟨_, n, hframe, rfl⟩ := Store.exists_frame?_restore htarget hb m.supply
    exact ⟨_, hframe, Store.builds_restoreEntries target m.store.size b n⟩
  have hsame : ∀ i < m.store.size, i ≠ target →
      (m.store.restore target s m.supply).1.frame? i = m.store.frame? i :=
    fun i hi hne => Store.frame?_restore_of_ne hi hne m.supply
  refine ⟨_, loadInto_of_ofText_ok htext, ?_, fun k b hb => hbuilt (k + 1) b hb, hsame, ?_, ?_⟩
  · obtain ⟨f, hframe, hf⟩ := hbuilt 0 _ (List.getElem?_eq_getElem hs.length_pos)
    exact ⟨_, f, List.head?_eq_getElem?.trans (List.getElem?_eq_getElem hs.length_pos), hframe, hf⟩
  · intro i hi
    obtain ⟨k, hk, rfl⟩ := Store.exists_place_of_reaches hs htarget hi
    cases k with
    | zero => exact .inl rfl
    | succ k =>
      exact .inr ⟨Nat.le_add_right _ _, Store.place_lt_size_restore htarget m.supply hk⟩
  · intro env henv below rest hchain htarget' name hname
    refine Store.lookup_of_chain_eq_append hchain (Store.linked_restore hs hm htarget m.supply)
      (henv.trans_le (Store.size_le_restore ..)) (fun i hi => ?_) hname
    have hmem : i ∈ m.store.chain env := hchain ▸ List.mem_append_left _ hi
    exact hsame i (hm.lt_of_mem_chain henv hmem) fun heq => htarget' (heq ▸ hi)

/-- The frame in the middle of a chain is replaced: its old parent can no longer be reached from it,
and the innermost frame sees the new one. An empty text changes nothing. -/
theorem loadInto_replaces_middle :
    let m : Machine Unit := ⟨⟨#[
      ⟨.ofList [("x", .bool false)], none⟩,
      ⟨.ofList [("g", .closure 0 0 [] (.symbol 1 "x"))], some 0⟩,
      ⟨.ofList [("y", .bool true)], some 1⟩]⟩, 2, ()⟩
    let text := "(!ENVCOUNT! 2\n(!SETENV! 0 1\n)\n(!SETENV! 1 -1\n(define x #t)\n)\n)"
    (∃ fault, loadInto "" 1 m = .error (.failed (.invalidSnapshot fault)) m) ∧
    ∃ m', loadInto text 1 m = .ok () m' ∧ m'.store.frame? 0 = m.store.frame? 0 ∧
      m'.store.outer 1 = some 3 ∧ m.store.Reaches 1 0 ∧ ¬ m'.store.Reaches 1 0 ∧
      m'.store.lookup 2 "x" = m'.store.lookup 1 "x" := by
  intro m text
  have hlinked : m.store.Linked := by decide
  let s : Snapshot := ⟨[⟨some 1, []⟩, ⟨none, [.data "x" (.bool true)]⟩]⟩
  have hwell : s.WellFormed := ⟨by decide, by decide, by decide⟩
  have hreread : s.reread = s := by
    simp only [Snapshot.reread, Snapshot.Block.reread, Snapshot.Entry.reread, s, List.map_cons,
      List.map_nil, (Datum.Readable.bool true).reread]
  have htext : s.text = text := by decide +kernel
  have hok := hwell.ofText_text
  rw [hreread, htext] at hok
  obtain ⟨-, hreplaced⟩ := loadInto_replaces text hlinked (by decide : 1 < m.store.size)
  obtain ⟨m', hload, ⟨b, f, hb, hf, hbuilds⟩, -, hsame, hreach, hlookup⟩ := hreplaced s hok
  have hread : Snapshot.ofText "" = .error (.unreadable [.endOfInput]) := by
    rw [Snapshot.ofText, Reading.ofText, Token.scan, String.toList_empty, Token.scanFrom]
    rfl
  obtain ⟨hempty, -⟩ := loadInto_replaces "" hlinked (by decide : 1 < m.store.size)
  refine ⟨⟨_, hempty _ hread⟩, m', hload, hsame 0 (by decide) (by decide), ?_, ?_, ?_, ?_⟩
  · obtain rfl := Option.some.inj hb
    rw [Store.outer, hf]
    exact hbuilds.outer
  · exact .single (by decide)
  · intro h
    rcases hreach 0 h with h | h
    · cases h
    · exact absurd h.1 (by decide)
  · exact (hlookup 2 (by decide) [2] [0] rfl (by decide) "x" (by decide)).1

end EvalM

end FrameLisp
