import FrameLisp.Proofs.Snapshot.Canonical
import FrameLisp.Proofs.Snapshot.Text

/-!
# Saving and loading a graph

Loading what was saved gives the graph back: the frames below the new root correspond one to one to
those below the old one, in order of discovery. The argument has two halves. The description of a
graph is a well-formed snapshot, so its text is read as that snapshot, with its data as they are
reread; and the frames that a snapshot is restored to bind what the described frames bind, with
references between frames moved along.

For the first half it is enough that symbols are words. Then the frames, their parents and the names
bound in them are given back, and each value is *restored* to one that its text stands for. Some
graphs cannot be given back: external functions have no description, a closure inside a list or a
body is described as the form that makes it, and not every number or symbol reads back. A graph
without such values is *restorable*; bindings to external functions are left out.

## Main definitions

* `Value.Worded`, `Store.Worded` — what may be bound in a graph whose text has its structure
* `Value.restored` — what loading makes of a saved value
* `Value.Restorable`, `Store.Restorable` — what may be bound in a graph that is to be given back

## Main results

* `Value.related_instantiate` — plain data are given back
* `Store.wellFormed_capture` — worded graphs have well-formed descriptions
* `Store.frame?_restore` — where the blocks of a snapshot are put
* `Store.outer_restore_capture`, `Store.related_restore_capture` — what becomes of a saved frame
* `Store.load_save` — a restorable graph is given back
-/

namespace FrameLisp

/-! ### Values -/

/-- What of a bound value is written as data: of a closure only the body, because its parameters are
names, and names are checked. -/
def Value.writtenData : Value → Datum
  | .closure _ _ _ body => body.toDatum
  | v => v.toDatum

/-- What may be bound in a graph whose text has its structure: what is written as data is worded. -/
def Value.Worded (v : Value) : Prop := v.writtenData.Worded

instance (v : Value) : Decidable v.Worded := inferInstanceAs (Decidable v.writtenData.Worded)

/-- What loading makes of a saved value, with identities from the supply. A closure is restored as a
closure, in the frame that the block of its frame is put into; its body, and any other value, is
restored as the datum that is read from its text. -/
def Value.restored (order : List FrameId) (target next : FrameId) : Value → ℕ → Value
  | .closure _ frame params body, n =>
    .closure (instantiate body.toDatum.reread n).2 (Store.place target next (order.idxOf frame))
      params (instantiate body.toDatum.reread n).1
  | v, n => (instantiate v.toDatum.reread n).1

/-- What may be bound in a graph that is to be given back: an external function, which is left out;
a closure whose body is plain and readable; or a plain and readable value. -/
def Value.Restorable : Value → Prop
  | .external _ => True
  | .closure _ _ _ body => body.IsPlain ∧ body.toDatum.Readable
  | v => v.IsPlain ∧ v.toDatum.Readable

theorem Value.Restorable.worded {v : Value} (h : v.Restorable) : v.Worded := by
  cases v with
  | external ref => exact .symbol (by decide)
  | _ => exact h.2.worded

/-- **Plain data are given back.** A plain value has the shape of any instance of its datum. -/
theorem Value.related_instantiate (F : FrameId → FrameId → Prop) {v : Value} (h : v.IsPlain)
    (n : ℕ) : Related (.ofFrames F) v (instantiate v.toDatum n).1 := by
  induction v using Value.induction generalizing n with
  | atom p => exact .atom trivial
  | symbol id name => exact .symbol trivial trivial
  | number x => exact .number x
  | bool b => exact .bool b
  | list id items ih =>
    have hitems : ∀ (vs : List Value), (∀ v ∈ vs, v ∈ items) → ∀ n,
        List.Forall₂ (Related (.ofFrames F)) vs (instantiateAll (vs.map toDatum) n).1 := by
      intro vs hvs
      induction vs with
      | nil => exact fun _ => .nil
      | cons v vs ihvs =>
        intro n
        have hv : v ∈ items := hvs v List.mem_cons_self
        exact .cons (ih v hv (h.of_mem hv) n)
          (ihvs (fun u hu => hvs u (List.mem_cons_of_mem v hu)) _)
    rw [toDatum, toData_eq_map]
    exact related_list_iff.mpr ⟨trivial, hitems items (fun _ hv => hv) (n + 1)⟩
  | closure => exact absurd rfl (h _ (mem_parts_self _)).1
  | external => exact absurd rfl (h _ (mem_parts_self _)).2

namespace Bindings

variable {α : Type}

theorem insertEntry_of_lt {name : String} {value : α} {es : List (String × α)}
    (h : ∀ e ∈ es, e.1 < name) : insertEntry name value es = es ++ [(name, value)] := by
  induction es with
  | nil => rfl
  | cons e es ih =>
    have he : e.1 < name := h e List.mem_cons_self
    rw [insertEntry, if_neg (String.lt_asymm he), if_neg fun heq => String.lt_irrefl _ (heq ▸ he),
      ih fun d hd => h d (List.mem_cons_of_mem e hd), List.cons_append]

theorem entries_insertAll {b : Bindings α} {pairs : List (String × α)}
    (h : (b.entries ++ pairs).Pairwise fun p q => p.1 < q.1) :
    (b.insertAll pairs).entries = b.entries ++ pairs := by
  induction pairs generalizing b with
  | nil => rw [List.append_nil]; rfl
  | cons p pairs ih =>
    have hinsert : (b.insert p.1 p.2).entries = b.entries ++ [p] :=
      insertEntry_of_lt fun e he => (List.pairwise_append.mp h).2.2 e he p List.mem_cons_self
    have happend : (b.insert p.1 p.2).entries ++ pairs = b.entries ++ p :: pairs := by
      rw [hinsert, List.append_assoc, List.singleton_append]
    rw [← happend] at h ⊢
    exact ih h

/-- Names that are in order already are kept in that order. -/
theorem entries_ofList {pairs : List (String × α)} (h : pairs.Pairwise fun p q => p.1 < q.1) :
    (ofList pairs).entries = pairs :=
  entries_insertAll h

end Bindings

namespace Store

variable {s : Store} {root : FrameId}

/-- Everything bound below a root is worded. -/
def Worded (s : Store) (root : FrameId) : Prop :=
  ∀ i ∈ s.reachable root, ∀ e ∈ (s.bindings i).entries, e.2.Worded

/-- Everything bound below a root can be given back. -/
def Restorable (s : Store) (root : FrameId) : Prop :=
  ∀ i ∈ s.reachable root, ∀ e ∈ (s.bindings i).entries, e.2.Restorable

theorem Restorable.worded (h : s.Restorable root) : s.Worded root :=
  fun i hi e he => (h i hi e he).worded

/-! ### Descriptions are well-formed -/

theorem isReadable_of_save {text : String} (h : s.save root = .ok text) :
    text = (s.capture root).text ∧
      ∀ b ∈ (s.capture root).blocks, ∀ e ∈ b.entries, ∀ name ∈ e.names, isReadable name := by
  rw [save] at h
  split at h
  · simp at h
  next hnone =>
    refine ⟨(Except.ok.inj h).symm, fun b hb e he name hname => ?_⟩
    have hall := List.find?_eq_none.mp hnone name
      (List.mem_flatMap.mpr ⟨b, hb, List.mem_flatMap.mpr ⟨e, he, hname⟩⟩)
    simpa using hall

theorem save_of_reachable {order : List FrameId} (hreach : s.reachable root = order)
    (hnames : Snapshot.unreadableName? ⟨order.map (s.captureBlock order)⟩ = none) :
    s.save root = .ok (s.capture root).text := by
  rw [save, capture, hreach, hnames]

theorem wellFormed_captureEntry {order : List FrameId} {name : String} {v : Value}
    {e : Snapshot.Entry} (h : captureEntry order name v = some e) (hv : v.Worded)
    (hnames : ∀ n ∈ e.names, isReadable n) (hframes : ∀ i ∈ v.frames, i ∈ order) :
    e.WellFormed order.length := by
  cases v with
  | external => simp [captureEntry] at h
  | closure id frame params body =>
    obtain rfl := Option.some.inj h
    refine ⟨readsBack_of_isReadable (hnames name List.mem_cons_self), fun p hp => ?_, hv,
      List.idxOf_lt_length_of_mem (hframes frame List.mem_cons_self)⟩
    exact readsBack_of_isReadable (hnames p (List.mem_cons_of_mem name hp))
  | _ =>
    obtain rfl := Option.some.inj h
    exact ⟨readsBack_of_isReadable (hnames name List.mem_cons_self), hv⟩

theorem wellFormed_captureBlocks (hs : s.Linked) (hvalues : s.Worded root)
    (hnames : ∀ b ∈ (s.capture root).blocks, ∀ e ∈ b.entries, ∀ name ∈ e.names, isReadable name) :
    ∀ b ∈ (s.capture root).blocks, b.WellFormed (s.reachable root).length := by
  intro b hb
  have hb' := hnames b hb
  obtain ⟨i, hi, rfl⟩ := List.mem_map.mp hb
  constructor
  · intro k hk
    obtain ⟨j, hj, rfl⟩ := Option.map_eq_some_iff.mp hk
    exact List.idxOf_lt_length_of_mem (mem_reachable_of_link hs hi (mem_links_of_outer hj))
  · intro e he
    obtain ⟨⟨name, v⟩, hv, hcapture⟩ := List.mem_filterMap.mp he
    refine wellFormed_captureEntry hcapture (hvalues i hi _ hv) (hb' e he) fun j hj => ?_
    exact mem_reachable_of_link hs hi (mem_links_of_binding hv hj)

/-- **Worded graphs have well-formed descriptions.** -/
theorem wellFormed_capture (hs : s.Linked) (hroot : root < s.size)
    (hsize : (s.reachable root).length ≤ 2 ^ 53) (hvalues : s.Worded root)
    (hnames : ∀ b ∈ (s.capture root).blocks, ∀ e ∈ b.entries, ∀ name ∈ e.names, isReadable name) :
    (s.capture root).WellFormed := by
  have hlength : (s.capture root).blocks.length = (s.reachable root).length := List.length_map ..
  refine ⟨?_, hlength ▸ hsize, ?_⟩
  · obtain ⟨rest, hrest⟩ := reachable_eq_cons hroot
    rw [← List.length_pos_iff, hlength, hrest]
    exact Nat.succ_pos _
  · rw [hlength]
    exact wellFormed_captureBlocks hs hvalues hnames

/-! ### Where blocks are put -/

theorem lt_size_push (s : Store) (f : Frame) : s.size < (s.push f).size := by
  rw [size_push]
  exact Nat.lt_succ_self _

section Restore

variable {target next : FrameId}

theorem place_injective (h : target < next) : Function.Injective (place target next) := by
  have hne : ∀ k, target ≠ next + k := fun k => (h.trans_le (Nat.le_add_right next k)).ne
  intro k l hkl
  cases k with
  | zero =>
    cases l with
    | zero => rfl
    | succ l => exact absurd hkl (hne l)
  | succ k =>
    cases l with
    | zero => exact absurd hkl.symm (hne k)
    | succ l => rw [Nat.add_left_cancel hkl]

/-- The frames that blocks are restored to, up to the identities in them. -/
theorem forall₂_restoreFrames (target next : FrameId) (bs : List Snapshot.Block) (n : ℕ) :
    List.Forall₂ (fun b f => ∃ n, f = ⟨.ofList (restoreEntries target next b.entries n).1,
      b.outer.map (place target next)⟩) bs (restoreFrames target next bs n).1 := by
  induction bs generalizing n with
  | nil => exact .nil
  | cons b bs ih => exact .cons ⟨n, rfl⟩ (ih _)

/-- **Where the blocks of a snapshot are put.** -/
theorem frame?_restore (htarget : target < s.size) {snapshot : Snapshot} {n k : ℕ} {f : Frame}
    (h : (restoreFrames target s.size snapshot.blocks n).1[k]? = some f) :
    (s.restore target snapshot n).1.frame? (place target s.size k) = some f := by
  rw [restore]
  split
  next hnil => simp [hnil] at h
  next g gs m hcons =>
    rw [hcons] at h
    have hlength : (s.modify target fun _ => g).frames.toList.length = s.size := by
      rw [Array.length_toList]
      exact size_modify ..
    rw [frame?, ← Array.getElem?_toList, Array.toList_appendList, List.getElem?_append, hlength]
    -- the first block replaces the target, the others follow the frames that are there already
    cases k with
    | zero =>
      obtain rfl := Option.some.inj h
      have hframe : (s.modify target fun _ => g).frame? target = some g := by
        rw [frame?_modify, if_pos rfl]
        cases hf : s.frame? target with
        | none => exact absurd htarget (Nat.not_lt.mpr (frame?_eq_none.mp hf))
        | some _ => rfl
      rw [place, if_pos htarget, Array.getElem?_toList]
      exact hframe
    | succ k =>
      rw [place, if_neg (Nat.not_lt.mpr (Nat.le_add_right _ k)), Nat.add_sub_cancel_left]
      exact h

/-- A frame belongs to the one that its block is put into. -/
def Placed (order : List FrameId) (target next : FrameId) (i j : FrameId) : Prop :=
  i ∈ order ∧ j = place target next (order.idxOf i)

variable {order : List FrameId}

theorem biUnique_placed (h : target < next) : Relator.BiUnique (Placed order target next) := by
  constructor
  · rintro i i' j ⟨hi, rfl⟩ ⟨-, hj⟩
    exact List.idxOf_inj hi |>.mp (place_injective h hj)
  · rintro i j j' ⟨-, rfl⟩ ⟨-, rfl⟩
    rfl

theorem exists_getElem?_of_forall₂ {α β : Type} {R : α → β → Prop} {as : List α} {bs : List β}
    (h : List.Forall₂ R as bs) {k : ℕ} {a : α} (ha : as[k]? = some a) :
    ∃ b, bs[k]? = some b ∧ R a b := by
  induction h generalizing k with
  | nil => simp at ha
  | cons hab _ ih =>
    cases k with
    | zero =>
      obtain rfl := Option.some.inj ha
      exact ⟨_, rfl, hab⟩
    | succ k => exact ih ha

theorem placed_root (hroot : root < s.size) (target next : FrameId) :
    Placed (s.reachable root) target next root target := by
  obtain ⟨rest, hrest⟩ := reachable_eq_cons hroot
  refine ⟨mem_reachable_self hroot, ?_⟩
  rw [hrest, List.idxOf_cons_self, place]

/-! ### What frames are restored to -/

theorem restoreEntry_reread {name : String} {v : Value} {e : Snapshot.Entry}
    (h : captureEntry order name v = some e) (n : ℕ) :
    (restoreEntry target next e.reread n).1 = (name, v.restored order target next n) := by
  cases v with
  | external => simp [captureEntry] at h
  | _ =>
    obtain rfl := Option.some.inj h
    rfl

theorem exists_captureEntry (order : List FrameId) (name : String) {v : Value}
    (h : v.isInternal = true) : ∃ e, captureEntry order name v = some e := by
  cases v with
  | external => simp [Value.isInternal, Value.kind] at h
  | _ => exact ⟨_, rfl⟩

theorem forall₂_restoreEntries (order : List FrameId) (target next : FrameId)
    (es : List (String × Value)) (n : ℕ) :
    List.Forall₂ (fun e b => e.1 = b.1 ∧ ∃ n, b.2 = e.2.restored order target next n)
      (es.filter fun e => e.2.isInternal)
      (restoreEntries target next
        ((es.filterMap fun e => captureEntry order e.1 e.2).map Snapshot.Entry.reread) n).1 := by
  induction es generalizing n with
  | nil => exact .nil
  | cons e es ih =>
    rw [List.filter_cons, List.filterMap_cons]
    split
    next hinternal =>
      obtain ⟨entry, hentry⟩ := exists_captureEntry order e.1 hinternal
      have hfirst : (restoreEntry target next entry.reread n).1 = _ := restoreEntry_reread hentry n
      rw [hentry]
      exact .cons ⟨(congrArg Prod.fst hfirst).symm, n, congrArg Prod.snd hfirst⟩ (ih _)
    next hexternal =>
      rw [captureEntry_eq_none_of_external order e.1 hexternal]
      exact ih n

/-- A frame is restored to one that binds the same names, less those of external functions, to what
their values are restored to. -/
theorem related_restoreBindings (order : List FrameId) (target next : FrameId) (b : Bindings Value)
    (n : ℕ) :
    (b.filter Value.isInternal).Related (fun v w => ∃ n, w = v.restored order target next n)
      (.ofList (restoreEntries target next
        ((b.entries.filterMap fun e => captureEntry order e.1 e.2).map
          Snapshot.Entry.reread) n).1) := by
  have hrel := forall₂_restoreEntries order target next b.entries n
  generalize (restoreEntries target next _ n).1 = pairs at hrel ⊢
  have hnames : (b.filter Value.isInternal).entries.map Prod.fst = pairs.map Prod.fst := by
    rw [← List.forall₂_eq_eq_eq, List.forall₂_map_left_iff, List.forall₂_map_right_iff]
    exact hrel.imp fun _ _ he => he.1
  -- the names come in order, so putting the bindings together again moves none of them
  have hsorted : pairs.Pairwise fun p q => p.1 < q.1 := by
    rw [← List.pairwise_map (f := Prod.fst) (R := (· < ·)), ← hnames, List.pairwise_map]
    exact (b.filter Value.isInternal).sorted
  rw [Bindings.Related, Bindings.entries_ofList hsorted]
  exact hrel

variable {t : Store}

/-- Each frame below the root, after restoring what is read of the description. -/
theorem exists_frame?_restore_capture (htarget : target < t.size) {i : FrameId}
    (hi : i ∈ s.reachable root) (n : ℕ) :
    ∃ n', (t.restore target (s.capture root).reread n).1.frame?
        (place target t.size ((s.reachable root).idxOf i)) =
      some ⟨.ofList (restoreEntries target t.size
          (s.captureBlock (s.reachable root) i).reread.entries n').1,
        (s.captureBlock (s.reachable root) i).outer.map (place target t.size)⟩ := by
  have hframes := List.forall₂_map_left_iff.mp (List.forall₂_map_left_iff.mp
    (forall₂_restoreFrames target t.size (s.capture root).reread.blocks n))
  obtain ⟨f, hf, n', rfl⟩ := exists_getElem?_of_forall₂ hframes (List.getElem?_idxOf hi)
  exact ⟨n', frame?_restore htarget hf⟩

/-- The parent of a saved frame is restored. -/
theorem outer_restore_capture (htarget : target < t.size) {i : FrameId}
    (hi : i ∈ s.reachable root) (n : ℕ) :
    (t.restore target (s.capture root).reread n).1.outer
        (place target t.size ((s.reachable root).idxOf i)) =
      (s.outer i).map fun j => place target t.size ((s.reachable root).idxOf j) := by
  obtain ⟨n', hframe⟩ := exists_frame?_restore_capture htarget hi n
  rw [outer, hframe, Option.bind_some, captureBlock, Option.map_map]
  rfl

theorem rel_outer_restore_capture (hs : s.Linked) (htarget : target < t.size) {i : FrameId}
    (hi : i ∈ s.reachable root) (n : ℕ) :
    Option.Rel (Placed (s.reachable root) target t.size) (s.outer i)
      ((t.restore target (s.capture root).reread n).1.outer
        (place target t.size ((s.reachable root).idxOf i))) := by
  rw [outer_restore_capture htarget hi]
  cases houter : s.outer i with
  | none => exact .none
  | some k => exact .some ⟨mem_reachable_of_link hs hi (mem_links_of_outer houter), rfl⟩

/-- The bindings of a saved frame are restored, less those to external functions. -/
theorem related_restore_capture (htarget : target < t.size) {i : FrameId}
    (hi : i ∈ s.reachable root) (n : ℕ) :
    (s.withoutExternals.bindings i).Related
      (fun v w => ∃ n, w = v.restored (s.reachable root) target t.size n)
      ((t.restore target (s.capture root).reread n).1.bindings
        (place target t.size ((s.reachable root).idxOf i))) := by
  obtain ⟨n', hframe⟩ := exists_frame?_restore_capture htarget hi n
  rw [bindings_withoutExternals, bindings.eq_def (t.restore _ _ _).1, hframe]
  exact related_restoreBindings (s.reachable root) target t.size (s.bindings i) n'

/-- A restorable value is restored to a value of its shape. -/
theorem related_restored {v : Value} (hv : v.Restorable) (hinternal : v.isInternal = true)
    (hframes : ∀ i ∈ v.frames, i ∈ order) (n : ℕ) :
    Value.Related (.ofFrames (Placed order target next)) v (v.restored order target next n) := by
  cases v with
  | external => simp [Value.isInternal, Value.kind] at hinternal
  | closure id frame params body =>
    rw [Value.restored, hv.2.reread]
    exact .closure trivial ⟨hframes frame List.mem_cons_self, rfl⟩ (fun _ _ => trivial)
      (Value.related_instantiate _ hv.1 n)
  | _ =>
    simp only [Value.restored, hv.2.reread]
    exact Value.related_instantiate _ hv.1 n

/-- **Restoring what is read of the description of a restorable graph** gives a graph in which each
frame corresponds to the one that its block is put into. -/
theorem similar_restore (hs : s.Linked) (hvalues : s.Restorable root) (htarget : target < t.size)
    (n : ℕ) : Similar (.ofFrames (Placed (s.reachable root) target t.size)) s.withoutExternals
      (t.restore target (s.capture root).reread n).1 := by
  refine ⟨biUnique_placed htarget, ?_, ?_, ?_⟩
  · rintro i j ⟨hi, rfl⟩
    obtain ⟨n', hframe⟩ := exists_frame?_restore_capture htarget hi n
    refine ⟨by rw [size_withoutExternals]; exact lt_size_of_mem_reachable hi, ?_⟩
    refine Nat.lt_of_not_le fun hle => ?_
    simp [frame?_eq_none.mpr hle] at hframe
  · rintro i j ⟨hi, rfl⟩
    have hentries : ∀ e ∈ (s.withoutExternals.bindings i).entries,
        e.2.isInternal = true ∧ e ∈ (s.bindings i).entries := by
      intro e he
      rw [bindings_withoutExternals] at he
      exact (List.mem_filter.mp he).symm
    refine ((List.forall₂_and_left _ _).mpr ⟨hentries, related_restore_capture htarget hi n⟩).imp ?_
    rintro ⟨name, v⟩ ⟨name', w⟩ ⟨⟨hinternal, he⟩, rfl, n', rfl⟩
    exact ⟨rfl, related_restored (hvalues i hi _ he) hinternal
      (fun j hj => mem_reachable_of_link hs hi (mem_links_of_binding he hj)) n'⟩
  · rintro i j ⟨hi, rfl⟩
    rw [outer_withoutExternals]
    exact rel_outer_restore_capture hs htarget hi n

end Restore

/-! ### The main result -/

section Load

variable {σ : Type} {text : String}

/-- The text of a worded graph is loaded by restoring what is read of its description. -/
theorem exists_load_of_worded (hs : s.Linked) (hroot : root < s.size)
    (hsize : (s.reachable root).length ≤ 2 ^ 53) (hvalues : s.Worded root)
    (hsave : s.save root = .ok text) (m : Machine σ) :
    ∃ m', EvalM.load text m = .ok m.store.size m' ∧ m'.store =
      ((m.store.push ⟨∅, none⟩).restore m.store.size (s.capture root).reread m.supply).1 := by
  obtain ⟨rfl, hnames⟩ := isReadable_of_save hsave
  have hread := (wellFormed_capture hs hroot hsize hvalues hnames).ofText_text
  exact ⟨_, by rw [EvalM.load, hread], rfl⟩

/-- What was saved is loaded, and the new graph is similar to the old one. -/
theorem exists_load_of_save (hs : s.Linked) (hroot : root < s.size)
    (hsize : (s.reachable root).length ≤ 2 ^ 53) (hvalues : s.Restorable root)
    (hsave : s.save root = .ok text) (m : Machine σ) :
    ∃ root' m' F, EvalM.load text m = .ok root' m' ∧ F root root' ∧
      Similar (.ofFrames F) s.withoutExternals m'.store := by
  obtain ⟨m', hload, hstore⟩ := exists_load_of_worded hs hroot hsize hvalues.worded hsave m
  exact ⟨m.store.size, m', _, hload, placed_root hroot _ _,
    hstore ▸ similar_restore hs hvalues (lt_size_push ..) m.supply⟩

/-- **A restorable graph is given back.** If saving a graph of frames gives a text, then loading the
text succeeds, and some one-to-one correspondence of frames relates the two roots and the frames
below them, in order of discovery. Corresponding frames have corresponding parents and bind the
same names, less those of external functions, to the same data or to closures with the same
parameters, the same body and corresponding frames.

Positions of frames are written as numbers, which are exact only up to `2 ^ 53`. -/
theorem load_save (hs : s.Linked) (hroot : root < s.size)
    (hsize : (s.reachable root).length ≤ 2 ^ 53) (hvalues : s.Restorable root)
    (hsave : s.save root = .ok text) (m : Machine σ) :
    ∃ root' m' F, EvalM.load text m = .ok root' m' ∧ F root root' ∧
      Similar (.ofFrames F) s.withoutExternals m'.store ∧
      List.Forall₂ F (s.reachable root) (m'.store.reachable root') := by
  obtain ⟨root', m', F, hload, hF, hsimilar⟩ :=
    exists_load_of_save hs hroot hsize hvalues hsave m
  refine ⟨root', m', F, hload, hF, hsimilar, ?_⟩
  rw [← reachable_withoutExternals s]
  exact hsimilar.reachable hF

/-- A cycle of two frames, with a closure that captures its own frame and an external function:
its text, and what loading it gives. -/
theorem load_save_cycle :
    let s : Store := ⟨#[
      ⟨.ofList [("f", .closure 0 1 ["n"] (.list 1 [.atom (.builtin .add), .symbol 2 "n"])),
        ("host", .external 0), ("xs", .list 3 [.bool true, .list 4 []])], none⟩,
      ⟨.ofList [("self", .closure 5 1 [] (.symbol 6 "self"))], some 0⟩]⟩
    let text := "(!ENVCOUNT! 2\n(!SETENV! 0 -1\n(!FUNCENV! 1\n(define f (lambda (n) (+ n)))\n)\n" ++
      "(define xs (#t ()))\n)\n(!SETENV! 1 0\n(!FUNCENV! 1\n(define self (lambda () self))\n)\n)\n)"
    s.save 0 = .ok text ∧ ∃ root' m' F,
      EvalM.load text (⟨.empty, 0, ()⟩ : Machine Unit) = .ok root' m' ∧ F 0 root' ∧
      Similar (.ofFrames F) s.withoutExternals m'.store ∧
      List.Forall₂ F (s.reachable 0) (m'.store.reachable root') := by
  intro s text
  have hreach : s.reachable 0 = [0, 1] := by
    have h0 : s.reachable 0 = 0 :: s.discover [1] [1] := discover_of_dropWhile_cons rfl
    have h1 : s.discover [1] [1] = 1 :: s.discover [] [1, 0] := discover_of_dropWhile_cons rfl
    rw [h0, h1, discover_of_dropWhile_nil rfl]
  have hsave : s.save 0 = .ok text := by
    have hnames : Snapshot.unreadableName? ⟨[0, 1].map (s.captureBlock [0, 1])⟩ = none := by decide
    rw [save, capture, hreach, hnames]
    exact congrArg Except.ok (by decide +kernel)
  have hvalues : s.Restorable 0 := by
    intro i hi
    rw [hreach] at hi
    have hadd : Datum.Readable (.list [.atom (.builtin .add), .symbol "n"]) :=
      .list (List.forall_mem_cons.mpr ⟨.atom _, List.forall_mem_cons.mpr
        ⟨.symbol (readsBack_of_isReadable (by decide)), List.forall_mem_nil _⟩⟩)
    have hxs : Datum.Readable (.list [.bool true, .list []]) :=
      .list (List.forall_mem_cons.mpr ⟨.bool _, List.forall_mem_cons.mpr
        ⟨.list (List.forall_mem_nil _), List.forall_mem_nil _⟩⟩)
    have hself : Datum.Readable (.symbol "self") := .symbol (readsBack_of_isReadable (by decide))
    rcases List.mem_pair.mp hi with rfl | rfl
    · exact List.forall_mem_cons.mpr ⟨⟨by decide, hadd⟩, List.forall_mem_cons.mpr ⟨trivial,
        List.forall_mem_cons.mpr ⟨⟨by decide, hxs⟩, List.forall_mem_nil _⟩⟩⟩
    · exact List.forall_mem_cons.mpr ⟨⟨by decide, hself⟩, List.forall_mem_nil _⟩
  refine ⟨hsave, load_save (by decide) (by decide) ?_ hvalues hsave _⟩
  rw [hreach]
  decide

end Load

end Store

end FrameLisp
