import FrameLisp.Proofs.Store.Discovery
import FrameLisp.Proofs.Store.Similar

/-!
# The text of a graph is canonical

Saving describes frames by the order in which they are discovered. Two isomorphic graphs are
discovered in lockstep: the same steps pass over the same frames and find corresponding ones, so
corresponding frames get the same positions and the descriptions are equal. Frame numbers,
identities and the host's table leave no trace.

Bindings to external functions are not described and lead to no frame, so a graph is saved as if
they had been deleted.

## Main definitions

* `Store.withoutExternals` — a store less its bindings to external functions
* `Store.Isomorphic` — roots with graphs of the same shape

## Main results

* `Store.discover_related` — discovery in lockstep
* `Store.save_withoutExternals` — bindings to external functions leave no trace
* `Store.save_eq_of_isomorphic` — isomorphic graphs have the same text, or the same error
-/

namespace FrameLisp

namespace Store

variable {s t : Store}

/-! ### Discovery in lockstep -/

section Discovery

variable {F : FrameId → FrameId → Prop} {unseen unseen' pending pending' : List FrameId}

/-- Corresponding pending frames are passed over together. -/
theorem dropWhile_related (hunseen : ∀ i j, F i j → (i ∈ unseen ↔ j ∈ unseen'))
    (hpending : List.Forall₂ F pending pending') :
    List.Forall₂ F (pending.dropWhile (· ∉ unseen)) (pending'.dropWhile (· ∉ unseen')) := by
  induction hpending with
  | nil => exact .nil
  | cons hij hrest ih =>
    simp only [List.dropWhile_cons, hunseen _ _ hij]
    split
    · exact ih
    · exact .cons hij hrest

theorem mem_erase_related (hF : Relator.BiUnique F) (hnodup : unseen.Nodup)
    (hnodup' : unseen'.Nodup) (hunseen : ∀ i j, F i j → (i ∈ unseen ↔ j ∈ unseen'))
    {i j : FrameId} (hij : F i j) :
    ∀ k l, F k l → (k ∈ unseen.erase i ↔ l ∈ unseen'.erase j) := by
  intro k l hkl
  have hne : k ≠ i ↔ l ≠ j := not_congr (Relator.rel_eq hF hkl hij)
  rw [hnodup.mem_erase_iff, hnodup'.mem_erase_iff, hunseen k l hkl, hne]

/-- **Discovery in lockstep.** From corresponding pending frames, and with corresponding frames
unseen, corresponding frames are found in the same order. -/
theorem discover_related (hF : Relator.BiUnique F)
    (hlinks : ∀ i j, F i j → List.Forall₂ F (s.links i) (t.links j)) (hnodup : unseen.Nodup)
    (hnodup' : unseen'.Nodup) (hunseen : ∀ i j, F i j → (i ∈ unseen ↔ j ∈ unseen'))
    (hpending : List.Forall₂ F pending pending') :
    List.Forall₂ F (s.discover unseen pending) (t.discover unseen' pending') := by
  fun_induction discover s unseen pending generalizing unseen' pending' with
  | case1 unseen pending hdrop =>
    have hdrop' := dropWhile_related hunseen hpending
    rw [hdrop, List.forall₂_nil_left_iff] at hdrop'
    rw [discover_of_dropWhile_nil hdrop']
    exact .nil
  | case2 unseen pending i rest hdrop ih =>
    -- both walks pass over the same number of frames, so the next ones found correspond
    have hdrop' := dropWhile_related hunseen hpending
    rw [hdrop, List.forall₂_cons_left_iff] at hdrop'
    obtain ⟨j, rest', hij, hrest, hdrop'⟩ := hdrop'
    rw [discover_of_dropWhile_cons hdrop']
    exact .cons hij (ih (hnodup.erase i) (hnodup'.erase j)
      (mem_erase_related hF hnodup hnodup' hunseen hij) (List.rel_append (hlinks i j hij) hrest))

/-- Corresponding frames have the same position in corresponding lists. -/
theorem idxOf_related (hF : Relator.BiUnique F) {order order' : List FrameId}
    (horder : List.Forall₂ F order order') {i j : FrameId} (hij : F i j) :
    order.idxOf i = order'.idxOf j := by
  induction horder with
  | nil => rfl
  | @cons k l _ _ hkl _ ih =>
    have hbeq : (k == i) = (l == j) := by
      rw [Bool.eq_iff_iff, beq_iff_eq, beq_iff_eq]
      exact Relator.rel_eq hF hkl hij
    rw [List.idxOf_cons, List.idxOf_cons, hbeq, ih]

end Discovery

/-! ### Similar stores are described alike -/

section Capture

variable {c : Correspondence} {order order' : List FrameId} {root root' : FrameId}

theorem Similar.reachable (h : Similar c s t) (hroot : c.frame root root') :
    List.Forall₂ c.frame (s.reachable root) (t.reachable root') := by
  refine discover_related h.unique (fun i j => h.links) List.nodup_range List.nodup_range
    (fun i j hij => ?_) (.cons hroot .nil)
  obtain ⟨hi, hj⟩ := h.range hij
  simp [hi, hj]

theorem captureEntry_eq (hc : Relator.BiUnique c.frame) (horder : List.Forall₂ c.frame order order')
    {v w : Value} (h : Value.Related c v w) (name : String) :
    captureEntry order name v = captureEntry order' name w := by
  cases h with
  | closure _ hframe _ hbody =>
    rw [captureEntry, captureEntry, idxOf_related hc horder hframe, hbody.toDatum_eq]
  | list hid hlength hitems =>
    have hlist := (Value.Related.list hid hlength hitems).toDatum_eq
    simp only [captureEntry, hlist]
  | _ => rfl

theorem Similar.captureBlock_eq (h : Similar c s t) (horder : List.Forall₂ c.frame order order')
    {i j : FrameId} (hij : c.frame i j) : s.captureBlock order i = t.captureBlock order' j := by
  have houter : (s.outer i).map order.idxOf = (t.outer j).map order'.idxOf := by
    have hrel := h.outer hij
    generalize s.outer i = o, t.outer j = o' at hrel
    cases hrel with
    | none => rfl
    | some hkl => rw [Option.map_some, Option.map_some, idxOf_related h.unique horder hkl]
  have hentries : ∀ (es es' : List (String × Value)),
      List.Forall₂ (fun e e' => e.1 = e'.1 ∧ Value.Related c e.2 e'.2) es es' →
      es.filterMap (fun e => captureEntry order e.1 e.2) =
        es'.filterMap fun e => captureEntry order' e.1 e.2 := by
    intro es es' hes
    induction hes with
    | nil => rfl
    | cons he _ ih =>
      rw [List.filterMap_cons, List.filterMap_cons, he.1,
        captureEntry_eq h.unique horder he.2, ih]
  rw [captureBlock, captureBlock, houter, hentries _ _ (h.bindings hij)]

/-- Graphs that correspond are described alike. -/
theorem Similar.capture_eq (h : Similar c s t) (hroot : c.frame root root') :
    s.capture root = t.capture root' := by
  have horder := h.reachable hroot
  have hblocks : (s.reachable root).map (s.captureBlock (s.reachable root)) =
      (t.reachable root').map (t.captureBlock (t.reachable root')) := by
    rw [← List.forall₂_eq_eq_eq, List.forall₂_map_left_iff, List.forall₂_map_right_iff]
    exact horder.imp fun _ _ => h.captureBlock_eq horder
  exact congrArg Snapshot.mk hblocks

end Capture

/-! ### Deleting bindings to external functions -/

end Store

/-- Keep the bindings to values that pass a test. -/
def Bindings.filter {α : Type} (b : Bindings α) (p : α → Bool) : Bindings α :=
  ⟨b.entries.filter fun e => p e.2, b.sorted.filter _⟩

/-- Whether a value is not an external function. -/
def Value.isInternal (v : Value) : Bool := v.kind ≠ .external

/-- A frame less its bindings to external functions. -/
def Frame.withoutExternals (f : Frame) : Frame :=
  { f with bindings := f.bindings.filter Value.isInternal }

namespace Store

/-- A store less its bindings to external functions. -/
def withoutExternals (s : Store) : Store := ⟨s.frames.map Frame.withoutExternals⟩

@[simp] theorem size_withoutExternals (s : Store) : s.withoutExternals.size = s.size :=
  Array.size_map ..

theorem frame?_withoutExternals (s : Store) (i : FrameId) :
    s.withoutExternals.frame? i = (s.frame? i).map Frame.withoutExternals :=
  Array.getElem?_map ..

@[simp] theorem bindings_withoutExternals (s : Store) (i : FrameId) :
    s.withoutExternals.bindings i = (s.bindings i).filter Value.isInternal := by
  rw [bindings, bindings, frame?_withoutExternals]
  cases s.frame? i <;> rfl

@[simp] theorem outer_withoutExternals (s : Store) (i : FrameId) :
    s.withoutExternals.outer i = s.outer i := by
  rw [outer, outer, frame?_withoutExternals]
  cases s.frame? i <;> rfl

theorem frames_eq_nil_of_external {v : Value} (h : ¬ v.isInternal = true) : v.frames = [] := by
  cases v <;> simp_all [Value.isInternal, Value.kind, Value.frames]

theorem captureEntry_eq_none_of_external (order : List FrameId) (name : String) {v : Value}
    (h : ¬ v.isInternal = true) : captureEntry order name v = none := by
  cases v <;> simp_all [Value.isInternal, Value.kind, captureEntry]

/-- External functions lead to no frame. -/
theorem flatMap_frames_filter (es : List (String × Value)) :
    (es.filter fun e => e.2.isInternal).flatMap (fun e => e.2.frames) =
      es.flatMap fun e => e.2.frames := by
  induction es with
  | nil => rfl
  | cons e es ih =>
    rw [List.filter_cons, List.flatMap_cons]
    split
    · rw [List.flatMap_cons, ih]
    next h => rw [frames_eq_nil_of_external h, ih, List.nil_append]

@[simp] theorem links_withoutExternals (s : Store) (i : FrameId) :
    s.withoutExternals.links i = s.links i := by
  rw [links, links, bindings_withoutExternals, outer_withoutExternals]
  exact congrArg (· ++ _) (flatMap_frames_filter _)

@[simp] theorem reachable_withoutExternals (s : Store) (root : FrameId) :
    s.withoutExternals.reachable root = s.reachable root := by
  have heq : Relator.BiUnique (Eq : FrameId → FrameId → Prop) :=
    ⟨fun _ _ _ h h' => h.trans h'.symm, fun _ _ _ h h' => h.symm.trans h'⟩
  rw [← List.forall₂_eq_eq_eq, reachable, reachable, size_withoutExternals]
  refine discover_related heq ?_ List.nodup_range List.nodup_range ?_ (.cons rfl .nil)
  · rintro i j rfl
    rw [links_withoutExternals, List.forall₂_eq_eq_eq]
  · rintro i j rfl
    exact Iff.rfl

@[simp] theorem captureBlock_withoutExternals (s : Store) (order : List FrameId) (i : FrameId) :
    s.withoutExternals.captureBlock order i = s.captureBlock order i := by
  rw [captureBlock, captureBlock, bindings_withoutExternals, outer_withoutExternals,
    Bindings.filter, List.filterMap_filter]
  congr 2
  funext e
  split
  · rfl
  next h => rw [captureEntry_eq_none_of_external order e.1 h]

theorem capture_withoutExternals (s : Store) (root : FrameId) :
    s.withoutExternals.capture root = s.capture root := by
  rw [capture, capture, reachable_withoutExternals]
  exact congrArg Snapshot.mk (List.map_congr_left fun i _ => captureBlock_withoutExternals ..)

/-- **Bindings to external functions leave no trace.** -/
theorem save_withoutExternals (s : Store) (root : FrameId) :
    s.withoutExternals.save root = s.save root := by
  rw [save, save, capture_withoutExternals]

/-! ### The main result -/

end Store

/-- Frames correspond as given, and nothing but the shape of values matters otherwise. -/
def Correspondence.ofFrames (F : FrameId → FrameId → Prop) : Correspondence where
  frame := F
  identity _ _ := True
  atom _ := True
  name _ := True
  external _ _ := True

namespace Store

/-- The graphs below two roots are isomorphic: some one-to-one correspondence of frames relates the
roots, and corresponding frames bind the same names to values of the same shape that refer to
corresponding frames, and have corresponding parents. -/
def Isomorphic (s : Store) (root : FrameId) (t : Store) (root' : FrameId) : Prop :=
  ∃ F : FrameId → FrameId → Prop, F root root' ∧ Similar (.ofFrames F) s t

/-- **The text of a graph is canonical.** If the graphs below two roots are isomorphic once all
bindings to external functions are deleted, then saving them gives the same text or the same
error. -/
theorem save_eq_of_isomorphic {s t : Store} {root root' : FrameId}
    (h : Isomorphic s.withoutExternals root t.withoutExternals root') :
    s.save root = t.save root' := by
  obtain ⟨F, hroot, hsimilar⟩ := h
  rw [← save_withoutExternals s, ← save_withoutExternals t, save, save,
    hsimilar.capture_eq hroot]

/-- Two frames that refer to each other, in one order and in the other, with other identities and
other functions of the host: their graphs have the same text. -/
theorem save_swapped :
    let s : Store := ⟨#[
      ⟨.ofList [("f", .closure 0 1 ["x"] (.symbol 1 "x")), ("host", .external 3)], none⟩,
      ⟨.ofList [("g", .closure 2 0 [] (.list 3 [.external 5, .bool true]))], some 0⟩]⟩
    let t : Store := ⟨#[
      ⟨.ofList [("g", .closure 9 1 [] (.list 8 [.external 0, .bool true]))], some 1⟩,
      ⟨.ofList [("f", .closure 7 0 ["x"] (.symbol 6 "x"))], none⟩]⟩
    Isomorphic s.withoutExternals 0 t.withoutExternals 1 ∧ s.save 0 = t.save 1 := by
  intro s t
  have h : Isomorphic s.withoutExternals 0 t.withoutExternals 1 := by
    refine ⟨fun i j => i + j = 1, rfl, ⟨⟨?_, ?_⟩, ?_, ?_, ?_⟩⟩
    · intro i j k hik hjk
      exact Nat.add_right_cancel (hik.trans hjk.symm)
    · intro i j k hij hik
      exact Nat.add_left_cancel (hij.trans hik.symm)
    · intro i j hij
      rw [size_withoutExternals, size_withoutExternals]
      obtain ⟨rfl, rfl⟩ | ⟨rfl, rfl⟩ := Nat.add_eq_one_iff.mp hij <;> exact ⟨by decide, by decide⟩
    · intro i j hij
      rw [bindings_withoutExternals, bindings_withoutExternals, Bindings.Related]
      obtain ⟨rfl, rfl⟩ | ⟨rfl, rfl⟩ := Nat.add_eq_one_iff.mp hij
      · exact .cons ⟨rfl, .closure trivial rfl (by simp [Correspondence.ofFrames])
          (.symbol trivial trivial)⟩ .nil
      · refine .cons ⟨rfl, .closure trivial rfl (by simp) ?_⟩ .nil
        exact Value.related_list_iff.mpr ⟨trivial, .cons (.external trivial) (.cons (.bool _) .nil)⟩
    · intro i j hij
      rw [outer_withoutExternals, outer_withoutExternals]
      obtain ⟨rfl, rfl⟩ | ⟨rfl, rfl⟩ := Nat.add_eq_one_iff.mp hij
      · exact .none
      · exact .some rfl
  exact ⟨h, save_eq_of_isomorphic h⟩

end Store

end FrameLisp
