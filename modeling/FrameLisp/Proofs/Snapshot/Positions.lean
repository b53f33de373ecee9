import FrameLisp.Proofs.Snapshot.Grammar
import FrameLisp.Snapshot.Graph

/-!
# Decoding by position

A form can also be taken apart by position: after its length is checked, its elements are looked up
by number, the elements behind the first ones are cut off, and lengths are subtracted from each
other. Afterwards the frame that a block refers to is looked up in the list of the new frames. Each
of these steps can go out of range. Beside the decoder stands one that works like this and fails
where it does. The two agree, so nothing is ever out of range: the lengths are checked before, and
the references in a described snapshot are to blocks that there are.

## Main definitions

* `Snapshot.DecodeFault` — what stops the decoder: a step out of range, or a fault of the form
* `Snapshot.textAt` — what a text describes, by position
* `EvalM.loadAt` — restoring a text into new frames, which are looked up by position

## Main results

* `Snapshot.textAt_eq` — decoding by position agrees with decoding
* `EvalM.loadAt_eq_ok_iff`, `EvalM.loadAt_eq_error_iff` — so does loading
-/

namespace FrameLisp

namespace Snapshot

/-- What stops a decoder that works by position. -/
inductive DecodeFault where
  /-- A step went out of range. -/
  | outOfRange
  /-- The form describes no snapshot. -/
  | rejected (fault : LoadFault)

/-! ### Steps that can go out of range -/

section

variable {α : Type}

/-- The element at a position. -/
def item (as : List α) (k : ℕ) : Except DecodeFault α :=
  match as[k]? with
  | some a => .ok a
  | none => .error .outOfRange

/-- The elements from a position on. -/
def itemsFrom (as : List α) (k : ℕ) : Except DecodeFault (List α) :=
  if k ≤ as.length then .ok (as.drop k) else .error .outOfRange

/-- What is left of a length. -/
def lengthLess (n k : ℕ) : Except DecodeFault ℕ :=
  if k ≤ n then .ok (n - k) else .error .outOfRange

theorem item_eq_ok {as : List α} {k : ℕ} {a : α} (h : as[k]? = some a) : item as k = .ok a := by
  rw [item, h]

end

/-! ### The decoder -/

/-- The elements of a list of three, or a fault if the form is anything else. -/
def threeItems (fault : LoadFault) : Datum → Except DecodeFault (Datum × Datum × Datum)
  | .list items =>
    if items.length = 3 then do
      let first ← item items 0
      let second ← item items 1
      let third ← item items 2
      .ok (first, second, third)
    else .error (.rejected fault)
  | _ => .error (.rejected fault)

/-- The name, the parameters and the body in the definition of a function. -/
def functionAt (definition : Datum) : Except DecodeFault (String × List String × Datum) := do
  let fault := LoadFault.functionShape definition
  match ← threeItems fault definition with
  | (.atom (.form .define), .symbol name, value) =>
    match ← threeItems fault value with
    | (.atom (.form .lambda), .list params, body) =>
      match symbolNames? params with
      | some params => .ok (name, params, body)
      | none => .error (.rejected fault)
    | _ => .error (.rejected fault)
  | _ => .error (.rejected fault)

/-- What an entry describes. -/
def entryAt (count : ℕ) (entry : Datum) : Except DecodeFault Entry := do
  let (head, second, third) ← threeItems (.entryShape entry) entry
  match head with
  | .atom (.form .define) =>
    match second with
    | .symbol name => .ok (.data name third)
    | _ => .error (.rejected (.entryName entry))
  | .symbol mark =>
    if mark = functionMark then
      match position? count second with
      | some k => do
        let (name, params, body) ← functionAt third
        .ok (.function name k params body)
      | none => .error (.rejected (.frameRange entry))
    else .error (.rejected (.entryHead entry))
  | _ => .error (.rejected (.entryHead entry))

/-- What the block at a position describes. -/
def blockAt (count position : ℕ) (block : Datum) : Except DecodeFault Block :=
  match block with
  | .list items =>
    if 3 ≤ items.length then do
      let head ← item items 0
      let number ← item items 1
      let outer ← item items 2
      match head with
      | .symbol mark =>
        if mark = blockMark then
          match index? number with
          | none => .error (.rejected (.blockShape block))
          | some k =>
            if k = position then
              match outer? count outer with
              | some o => do
                let entries ← itemsFrom items 3
                let es ← entries.mapM (entryAt count)
                .ok ⟨o, es⟩
              | none => .error (.rejected (.outerRange outer))
            else .error (.rejected (.blockNumber position number))
        else .error (.rejected (.blockHead block))
      | _ => .error (.rejected (.blockHead block))
    else .error (.rejected (.blockShape block))
  | _ => .error (.rejected (.blockShape block))

/-- What a form describes. Its first two elements may be missing, and are asked for as such. -/
def formAt : Datum → Except DecodeFault Snapshot
  | .list top =>
    match top.head? with
    | some (.symbol mark) =>
      if mark = headerMark then
        match top[1]? with
        | none => .error (.rejected .noCount)
        | some count =>
          match index? count with
          | some (.ofNat (n + 1)) => do
            let length ← lengthLess top.length 2
            if n + 1 = length then
              let blocks ← itemsFrom top 2
              let bs ← blocks.zipIdx.mapM fun b => blockAt (n + 1) b.2 b.1
              .ok ⟨bs⟩
            else .error (.rejected (.countMismatch (n + 1) length))
          | _ => .error (.rejected (.badCount count))
      else .error (.rejected .noHeader)
    | _ => .error (.rejected .noHeader)
  | _ => .error (.rejected .notList)

/-- What a text describes. -/
def textAt (text : String) : Except DecodeFault Snapshot :=
  match (Reading.ofText text).toExcept with
  | .ok d => formAt d
  | .error errors => .error (.rejected (.unreadable errors))

/-! ### Agreement of the decoders

Where the form has the length that is asked for, all look-ups succeed; where it has not, both
decoders report the same fault. -/

theorem threeItems_list (fault : LoadFault) (a b c : Datum) :
    threeItems fault (.list [a, b, c]) = .ok (a, b, c) := rfl

theorem threeItems_of_ne {fault : LoadFault} {d : Datum} (h : ∀ a b c, d ≠ .list [a, b, c]) :
    threeItems fault d = .error (.rejected fault) := by
  cases d with
  | list items =>
    refine if_neg fun hlength => ?_
    obtain ⟨a, b, c, rfl⟩ := List.length_eq_three.mp hlength
    exact h a b c rfl
  | _ => rfl

theorem functionAt_eq_ok {d : Datum} {parts : String × List String × Datum}
    (h : functionParts? d = some parts) : functionAt d = .ok parts := by
  obtain ⟨name, params, body⟩ := parts
  obtain rfl := functionParts?_eq_some_iff.mp h
  simp only [functionAt, Datum.lambda, threeItems_list, bind, Except.bind, symbolNames?_map]

theorem functionAt_eq_error {d : Datum} (h : functionParts? d = none) :
    functionAt d = .error (.rejected (.functionShape d)) := by
  have hnot : ∀ name params body,
      d ≠ .list [.atom (.form .define), .symbol name, .lambda params body] :=
    fun name params body hd => by simp [functionParts?_eq_some_iff.mpr hd] at h
  by_cases hd : ∃ a b c, d = .list [a, b, c]
  · obtain ⟨head, second, value, rfl⟩ := hd
    rw [functionAt, threeItems_list]
    simp only [bind, Except.bind]
    split
    next name value' heq =>
      cases heq
      by_cases hvalue : ∃ a b c, value = .list [a, b, c]
      · obtain ⟨head, second, body, rfl⟩ := hvalue
        rw [threeItems_list]
        simp only
        split
        next params body' heq =>
          cases heq
          split
          next names hnames =>
            rw [symbolNames?_eq_some_iff.mp hnames] at hnot
            exact absurd rfl (hnot name names body)
          next => rfl
        next => rfl
      · rw [threeItems_of_ne fun a b c hvalue' => hvalue ⟨a, b, c, hvalue'⟩]
    next => rfl
  · rw [functionAt, threeItems_of_ne fun a b c hd' => hd ⟨a, b, c, hd'⟩]
    rfl

theorem entryAt_eq (count : ℕ) (d : Datum) :
    entryAt count d = (Entry.ofDatum count d).mapError .rejected := by
  unfold Entry.ofDatum
  split
  next name value =>
    cases name <;> rfl
  next mark frame definition =>
    rw [entryAt, threeItems_list]
    simp only [bind, Except.bind]
    split
    next =>
      cases position? count frame with
      | some k =>
        cases hparts : functionParts? definition with
        | some parts =>
          rw [functionAt_eq_ok hparts]
          rfl
        | none =>
          rw [functionAt_eq_error hparts]
          rfl
      | none => rfl
    next => rfl
  next head second third hdefine hsymbol =>
    rw [entryAt, threeItems_list]
    simp only [bind, Except.bind]
    rfl
  next hne =>
    rw [entryAt, threeItems_of_ne hne]
    rfl

theorem mapM_entryAt (count : ℕ) (ds : List Datum) :
    ds.mapM (entryAt count) = (entriesOfData count ds).mapError .rejected := by
  induction ds with
  | nil => rfl
  | cons d ds ih =>
    rw [List.mapM_cons, entryAt_eq, ih, entriesOfData]
    cases Entry.ofDatum count d with
    | error fault => rfl
    | ok e => cases entriesOfData count ds <;> rfl

theorem blockAt_eq (count position : ℕ) (d : Datum) :
    blockAt count position d = (Block.ofDatum count position d).mapError .rejected := by
  unfold Block.ofDatum
  split
  next head number outer entries =>
    have hlength : 3 ≤ (head :: number :: outer :: entries).length :=
      Nat.le_add_left 3 entries.length
    rw [blockAt, if_pos hlength, item_eq_ok rfl, item_eq_ok rfl, item_eq_ok rfl, itemsFrom,
      if_pos hlength]
    simp only [bind, Except.bind, List.drop_succ_cons, List.drop_zero, mapM_entryAt]
    cases head with
    | symbol mark =>
      by_cases hmark : mark = blockMark
      · simp only [if_pos hmark]
        cases index? number with
        | none => rfl
        | some k =>
          by_cases hk : k = position
          · simp only [if_pos hk]
            cases outer? count outer with
            | some o => cases entriesOfData count entries <;> rfl
            | none => rfl
          · simp only [if_neg hk]
            rfl
      · simp only [if_neg hmark]
        rfl
    | _ => rfl
  next hne =>
    cases d with
    | list items =>
      rcases items with _ | ⟨head, _ | ⟨number, _ | ⟨outer, entries⟩⟩⟩
      · rfl
      · rfl
      · rfl
      · exact absurd rfl (hne head number outer entries)
    | _ => rfl

theorem mapM_blockAt (count position : ℕ) (ds : List Datum) :
    ((ds.zipIdx position).mapM fun d => blockAt count d.2 d.1) =
      (blocksOfData count position ds).mapError .rejected := by
  induction ds generalizing position with
  | nil => rfl
  | cons d ds ih =>
    rw [List.zipIdx_cons, List.mapM_cons, blockAt_eq, ih, blocksOfData]
    cases Block.ofDatum count position d with
    | error fault => rfl
    | ok b => cases blocksOfData count (position + 1) ds <;> rfl

theorem formAt_eq (d : Datum) : formAt d = (ofDatum d).mapError .rejected := by
  unfold ofDatum
  split
  next mark rest =>
    rw [formAt, List.head?_cons]
    by_cases hmark : mark = headerMark
    · simp only [if_pos hmark]
      cases rest with
      | nil => rfl
      | cons count blocks =>
        have hlength : lengthLess (Datum.symbol mark :: count :: blocks).length 2 =
            .ok blocks.length := if_pos (Nat.le_add_left 2 blocks.length)
        have hblocks : itemsFrom (Datum.symbol mark :: count :: blocks) 2 = .ok blocks :=
          if_pos (Nat.le_add_left 2 blocks.length)
        simp only [List.getElem?_cons_succ, List.getElem?_cons_zero, hlength, hblocks, bind,
          Except.bind, mapM_blockAt]
        cases index? count with
        | none => rfl
        | some k =>
          cases k with
          | negSucc k => rfl
          | ofNat k =>
            cases k with
            | zero => rfl
            | succ n =>
              by_cases hn : n + 1 = blocks.length
              · simp only [if_pos hn]
                cases blocksOfData (n + 1) 0 blocks <;> rfl
              · simp only [if_neg hn]
                rfl
    · simp only [if_neg hmark]
      rfl
  next items hne =>
    cases items with
    | nil => rfl
    | cons head rest =>
      cases head with
      | symbol mark => exact absurd rfl (hne mark rest)
      | _ => rfl
  next hne =>
    cases d with
    | list items => exact absurd rfl (hne items)
    | _ => rfl

/-- **Decoding by position agrees with decoding.** -/
theorem textAt_eq (text : String) : textAt text = (ofText text).mapError .rejected := by
  rw [textAt, ofText]
  cases (Reading.ofText text).toExcept with
  | ok d => exact formAt_eq d
  | error errors => rfl

end Snapshot

/-! ### Frames by position -/

namespace Store

open Snapshot (DecodeFault item)

/-- The frames that the blocks of a snapshot are put into, by position. -/
def shells (target next : FrameId) (count : ℕ) : List FrameId :=
  target :: List.range' next (count - 1)

/-- The binding an entry describes. -/
def restoreEntryAt (shells : List FrameId) :
    Snapshot.Entry → ℕ → Except DecodeFault ((String × Value) × ℕ)
  | .data name value, n =>
    let (v, n) := Value.instantiate value n
    .ok ((name, v), n)
  | .function name frame params body, n => do
    let i ← item shells frame
    let (b, n) := Value.instantiate body n
    .ok ((name, .closure n i params b), n + 1)

/-- The bindings that several entries describe. -/
def restoreEntriesAt (shells : List FrameId) :
    List Snapshot.Entry → ℕ → Except DecodeFault (List (String × Value) × ℕ)
  | [], n => .ok ([], n)
  | e :: es, n => do
    let (b, n) ← restoreEntryAt shells e n
    let (bs, n) ← restoreEntriesAt shells es n
    .ok (b :: bs, n)

/-- The parent of a frame. -/
def outerAt (shells : List FrameId) : Option ℕ → Except DecodeFault (Option FrameId)
  | none => .ok none
  | some k => do
    let i ← item shells k
    .ok (some i)

/-- The frames that several blocks describe. -/
def restoreFramesAt (shells : List FrameId) :
    List Snapshot.Block → ℕ → Except DecodeFault (List Frame × ℕ)
  | [], n => .ok ([], n)
  | b :: bs, n => do
    let (entries, n) ← restoreEntriesAt shells b.entries n
    let outer ← outerAt shells b.outer
    let (frames, n) ← restoreFramesAt shells bs n
    .ok (⟨.ofList entries, outer⟩ :: frames, n)

/-- Replace a frame by the first one of a list, and add the others. -/
def fill (s : Store) (target : FrameId) : List Frame → Store
  | [] => s
  | f :: fs => ⟨(s.modify target fun _ => f).frames ++ fs⟩

theorem restore_eq_fill (s : Store) (target : FrameId) (snapshot : Snapshot) (n : ℕ) :
    s.restore target snapshot n =
      (s.fill target (restoreFrames target s.size snapshot.blocks n).1,
        (restoreFrames target s.size snapshot.blocks n).2) := by
  rw [restore]
  split
  next h => rw [h, fill]
  next h => rw [h, fill]

section

variable {target next : FrameId} {count : ℕ}

/-- Every block has a frame. -/
theorem item_shells {k : ℕ} (hk : k < count) :
    item (shells target next count) k = .ok (place target next k) := by
  refine Snapshot.item_eq_ok ?_
  cases k with
  | zero => rfl
  | succ k =>
    rw [shells, List.getElem?_cons_succ, List.getElem?_range' (by omega), Nat.one_mul, place]

theorem restoreEntryAt_eq {d : Datum} {e : Snapshot.Entry} (h : Snapshot.Entry.Describes count d e)
    (n : ℕ) :
    restoreEntryAt (shells target next count) e n = .ok (restoreEntry target next e n) := by
  cases h with
  | data name value => rfl
  | function name params body hnumber hk =>
    rw [restoreEntryAt, item_shells hk]
    rfl

theorem restoreEntriesAt_eq {ds : List Datum} {es : List Snapshot.Entry}
    (h : List.Forall₂ (Snapshot.Entry.Describes count) ds es) (n : ℕ) :
    restoreEntriesAt (shells target next count) es n = .ok (restoreEntries target next es n) := by
  induction h generalizing n with
  | nil => rfl
  | cons he _ ih =>
    rw [restoreEntriesAt, restoreEntryAt_eq he]
    simp only [bind, Except.bind, ih]
    rfl

theorem outerAt_eq {d : Datum} {o : Option ℕ} (h : Snapshot.OuterDescribes count d o) :
    outerAt (shells target next count) o = .ok (o.map (place target next)) := by
  cases h with
  | none => rfl
  | some hnumber hk =>
    rw [outerAt, item_shells hk]
    rfl

theorem restoreFramesAt_eq {ds : List (Datum × ℕ)} {bs : List Snapshot.Block}
    (h : List.Forall₂ (fun d b => Snapshot.Block.Describes count d.2 d.1 b) ds bs) (n : ℕ) :
    restoreFramesAt (shells target next count) bs n = .ok (restoreFrames target next bs n) := by
  induction h generalizing n with
  | nil => rfl
  | cons hb _ ih =>
    obtain ⟨_, _, _, -, houter, hentries⟩ := hb.exists_parts
    rw [restoreFramesAt, restoreEntriesAt_eq hentries, outerAt_eq houter]
    simp only [bind, Except.bind, ih]
    rfl

/-- No block of a described snapshot refers to a block that there is not. -/
theorem restoreFramesAt_of_describes {d : Datum} {snapshot : Snapshot}
    (h : Snapshot.Describes d snapshot) (target next : FrameId) (n : ℕ) :
    restoreFramesAt (shells target next snapshot.blocks.length) snapshot.blocks n =
      .ok (restoreFrames target next snapshot.blocks n) := by
  obtain @⟨count, blocks, bs, -, -, hblocks⟩ := h
  rw [Snapshot.length_of_zipIdx hblocks]
  exact restoreFramesAt_eq hblocks n

end

end Store

namespace EvalM

variable {σ : Type}

/-- Restore the graph that a text describes into new frames, by position. -/
def loadAt (text : String) (m : Machine σ) :
    Except Snapshot.DecodeFault (FrameId × Machine σ) := do
  let snapshot ← Snapshot.textAt text
  let root := m.store.size
  let shells := Store.shells root (root + 1) snapshot.blocks.length
  let (frames, supply) ← Store.restoreFramesAt shells snapshot.blocks m.supply
  .ok (root, ⟨(m.store.push ⟨∅, none⟩).fill root frames, supply, m.desk⟩)

variable {text : String} {m : Machine σ}

theorem load_of_ofText_ok {s : Snapshot} (h : Snapshot.ofText text = .ok s) :
    load text m = .ok m.store.size
      ⟨((m.store.push ⟨∅, none⟩).restore m.store.size s m.supply).1,
        ((m.store.push ⟨∅, none⟩).restore m.store.size s m.supply).2, m.desk⟩ := by
  rw [load, h]

theorem load_of_ofText_error {fault : LoadFault} (h : Snapshot.ofText text = .error fault) :
    load text m = .error (.failed (.invalidSnapshot fault)) m := by
  rw [load, h]
  rfl

theorem loadAt_of_ofText_ok {s : Snapshot} (h : Snapshot.ofText text = .ok s) :
    loadAt text m = .ok (m.store.size,
      ⟨((m.store.push ⟨∅, none⟩).restore m.store.size s m.supply).1,
        ((m.store.push ⟨∅, none⟩).restore m.store.size s m.supply).2, m.desk⟩) := by
  have htext : Snapshot.textAt text = .ok s := by
    rw [Snapshot.textAt_eq, h]
    rfl
  obtain ⟨-, hdescribes⟩ := Snapshot.ofText_eq_ok_iff.mp h
  have hframes :=
    Store.restoreFramesAt_of_describes hdescribes m.store.size (m.store.size + 1) m.supply
  rw [loadAt, htext, Store.restore_eq_fill, Store.size_push]
  simp only [bind, Except.bind, hframes]

theorem loadAt_of_ofText_error {fault : LoadFault} (h : Snapshot.ofText text = .error fault) :
    loadAt text m = .error (.rejected fault) := by
  have htext : Snapshot.textAt text = .error (.rejected fault) := by
    rw [Snapshot.textAt_eq, h]
    rfl
  rw [loadAt, htext]
  rfl

/-- **Loading by position succeeds where loading does,** and as loading does. -/
theorem loadAt_eq_ok_iff {root : FrameId} {m' : Machine σ} :
    loadAt text m = .ok (root, m') ↔ load text m = .ok root m' := by
  cases h : Snapshot.ofText text with
  | ok s =>
    rw [load_of_ofText_ok h, loadAt_of_ofText_ok h]
    simp
  | error fault =>
    rw [load_of_ofText_error h, loadAt_of_ofText_error h]
    simp

/-- **It fails where loading does,** and never because something is out of range. -/
theorem loadAt_eq_error_iff {fault : Snapshot.DecodeFault} :
    loadAt text m = .error fault ↔
      ∃ f, fault = .rejected f ∧ load text m = .error (.failed (.invalidSnapshot f)) m := by
  cases h : Snapshot.ofText text with
  | ok s =>
    rw [load_of_ofText_ok h, loadAt_of_ofText_ok h]
    simp
  | error fault =>
    rw [load_of_ofText_error h, loadAt_of_ofText_error h]
    simp [eq_comm]

end EvalM

end FrameLisp
