import FrameLisp.Proofs.Number.Whole
import FrameLisp.Proofs.Snapshot.Text

/-!
# The grammar of snapshots

Which forms describe a snapshot, and which snapshot they describe, is said here as a relation
between data and snapshots: one rule per kind of list, with the marks, the numbers and the symbols
that have to stand in it, and nothing about how a form is taken apart. The decoder accepts exactly
the forms that describe something, and gives what they describe.

Blocks are numbered from zero by numbers of the language, of which `2 ^ 53 + 1` is not one. So no
form describes a snapshot of more than `2 ^ 53` blocks, and the limit that the decoder sets to whole
numbers is never met.

## Main definitions

* `Datum.IsWhole` — numbers with an integer as their value
* `Snapshot.Entry.Describes`, `Snapshot.Block.Describes`, `Snapshot.Describes` — the grammar

## Main results

* `Snapshot.Describes.length_le` — at most `2 ^ 53` blocks
* `Snapshot.ofDatum_eq_ok_iff` — forms are decoded exactly if they describe a snapshot
* `Snapshot.ofText_eq_ok_iff` — so are texts
-/

namespace FrameLisp

/-- A number whose value is the given integer. -/
def Datum.IsWhole : Datum → ℤ → Prop
  | .number x, k => Number.IsWhole x k
  | _, _ => False

namespace Snapshot

/-! ### The rules -/

/-- The forms that describe an entry, where there are `count` blocks: the definition of a name by
any datum; and the function mark, the number of a block, and the definition of a name by a `lambda`
form whose parameters are symbols. -/
inductive Entry.Describes (count : ℕ) : Datum → Entry → Prop where
  | data (name : String) (value : Datum) :
    Describes count (.list [.atom (.form .define), .symbol name, value]) (.data name value)
  | function {number : Datum} {k : ℕ} (name : String) (params : List String) (body : Datum)
    (hnumber : number.IsWhole k) (hk : k < count) :
    Describes count
      (.list [.symbol functionMark, number,
        .list [.atom (.form .define), .symbol name, .lambda params body]])
      (.function name k params body)

/-- The forms that describe a parent, where there are `count` blocks: minus one for none, and the
number of a block. -/
inductive OuterDescribes (count : ℕ) : Datum → Option ℕ → Prop where
  | none {number : Datum} (hnumber : number.IsWhole (-1)) : OuterDescribes count number none
  | some {number : Datum} {k : ℕ} (hnumber : number.IsWhole k) (hk : k < count) :
    OuterDescribes count number (some k)

/-- The forms that describe the block at a position, where there are `count` blocks: the block mark,
the position, the parent and the entries. -/
inductive Block.Describes (count position : ℕ) : Datum → Block → Prop where
  | intro {number outer : Datum} {entries : List Datum} {o : Option ℕ} {es : List Entry}
    (hnumber : number.IsWhole position) (houter : OuterDescribes count outer o)
    (hentries : List.Forall₂ (Entry.Describes count) entries es) :
    Describes count position (.list (.symbol blockMark :: number :: outer :: entries)) ⟨o, es⟩

/-- The forms that describe a snapshot: the header mark, the number of blocks, which is not zero,
and the blocks, each with its position. -/
inductive Describes : Datum → Snapshot → Prop where
  | intro {count : Datum} {blocks : List Datum} {bs : List Block}
    (hcount : count.IsWhole blocks.length) (hpos : 1 ≤ blocks.length)
    (hblocks : List.Forall₂ (fun d b => Block.Describes blocks.length d.2 d.1 b)
      blocks.zipIdx bs) :
    Describes (.list (.symbol headerMark :: count :: blocks)) ⟨bs⟩

variable {count position : ℕ} {d : Datum}

/-! ### Numbers -/

theorem index?_eq_some_iff {k : ℤ} :
    index? d = some k ↔ d.IsWhole k ∧ k.natAbs < 2 ^ 63 := by
  cases d with
  | number x => exact Number.toInt?_eq_some_iff
  | _ => simp [index?, Datum.IsWhole]

theorem not_isWhole_gap (d : Datum) : ¬ d.IsWhole (2 ^ 53 + 1) := by
  cases d with
  | number x => exact Number.not_isWhole_gap x
  | _ => exact not_false

theorem isWhole_of_position? {k : ℕ} (h : position? count d = some k) :
    d.IsWhole k ∧ k < count := by
  rw [position?] at h
  split at h
  next l hl =>
    split at h
    next hlt =>
      obtain rfl := Option.some.inj h
      exact ⟨(index?_eq_some_iff.mp hl).1, hlt⟩
    next => cases h
  next => cases h

theorem outerDescribes_of_outer? {o : Option ℕ} (h : outer? count d = some o) :
    OuterDescribes count d o := by
  rw [outer?] at h
  split at h
  next hindex =>
    obtain rfl := Option.some.inj h
    exact .none (index?_eq_some_iff.mp hindex).1
  next =>
    obtain ⟨k, hk, rfl⟩ := Option.map_eq_some_iff.mp h
    obtain ⟨hd, hlt⟩ := isWhole_of_position? hk
    exact .some hd hlt

section

variable (hcount : count ≤ 2 ^ 53)

include hcount

theorem index?_of_isWhole {k : ℕ} (hd : d.IsWhole k) (hk : k ≤ count) : index? d = some (k : ℤ) :=
  index?_eq_some_iff.mpr ⟨hd, by rw [Int.natAbs_natCast]; omega⟩

theorem position?_of_isWhole {k : ℕ} (hd : d.IsWhole k) (hk : k < count) :
    position? count d = some k := by
  have hindex : index? d = some (.ofNat k) := index?_of_isWhole hcount hd hk.le
  rw [position?, hindex]
  exact if_pos hk

theorem outer?_of_outerDescribes {o : Option ℕ} (h : OuterDescribes count d o) :
    outer? count d = some o := by
  cases h with
  | none hd => exact if_pos (index?_eq_some_iff.mpr ⟨hd, by decide⟩)
  | some hd hk =>
    have hne : index? d ≠ some (-1) := by
      rw [index?_of_isWhole hcount hd hk.le]
      simp
    rw [outer?, if_neg hne, position?_of_isWhole hcount hd hk, Option.map_some]

end

/-! ### Entries -/

theorem symbolNames?_eq_some_iff {ds : List Datum} {names : List String} :
    symbolNames? ds = some names ↔ ds = names.map .symbol := by
  constructor
  · intro h
    induction ds generalizing names with
    | nil =>
      obtain rfl := Option.some.inj h
      rfl
    | cons d ds ih =>
      cases d with
      | symbol name =>
        obtain ⟨rest, hrest, rfl⟩ := Option.map_eq_some_iff.mp h
        rw [ih hrest, List.map_cons]
      | _ => cases h
  · rintro rfl
    exact symbolNames?_map names

theorem functionParts?_eq_some_iff {name : String} {params : List String} {body : Datum} :
    functionParts? d = some (name, params, body) ↔
      d = .list [.atom (.form .define), .symbol name, .lambda params body] := by
  constructor
  · intro h
    unfold functionParts? at h
    split at h
    next =>
      obtain ⟨names, hnames, heq⟩ := Option.map_eq_some_iff.mp h
      cases heq
      rw [symbolNames?_eq_some_iff.mp hnames]
      rfl
    next => cases h
  · rintro rfl
    rw [Datum.lambda, functionParts?, symbolNames?_map, Option.map_some]

theorem Entry.describes_of_ofDatum {e : Entry} (h : Entry.ofDatum count d = .ok e) :
    Entry.Describes count d e := by
  unfold Entry.ofDatum at h
  split at h
  next name value =>
    split at h
    next name => cases h; exact .data name value
    next => cases h
  next mark number definition =>
    split at h
    next hmark =>
      subst hmark
      split at h
      next k hk =>
        split at h
        next name params body hparts =>
          cases h
          obtain ⟨hnumber, hlt⟩ := isWhole_of_position? hk
          rw [functionParts?_eq_some_iff.mp hparts]
          exact .function name params body hnumber hlt
        next => cases h
      next => cases h
    next => cases h
  next => cases h
  next => cases h

theorem Entry.Describes.ofDatum_eq (hcount : count ≤ 2 ^ 53) {e : Entry}
    (h : Entry.Describes count d e) : Entry.ofDatum count d = .ok e := by
  cases h with
  | data name value => rfl
  | function name params body hnumber hk =>
    have hparts := functionParts?_eq_some_iff.mpr (Eq.refl (Datum.list
      [.atom (.form .define), .symbol name, .lambda params body]))
    simp only [Entry.ofDatum, if_true, position?_of_isWhole hcount hnumber hk, hparts]

/-- What comes out of decoding one part and then the others. -/
theorem bind_cons_eq_ok_iff {ε α : Type} {x : Except ε α} {xs : Except ε (List α)} {as : List α} :
    (do let a ← x; let as ← xs; .ok (a :: as)) = .ok as ↔
      ∃ a as', x = .ok a ∧ xs = .ok as' ∧ as = a :: as' := by
  cases x with
  | error e => simp [bind, Except.bind]
  | ok a => cases xs <;> simp [bind, Except.bind, eq_comm]

theorem describes_of_entriesOfData {ds : List Datum} {es : List Entry}
    (h : entriesOfData count ds = .ok es) : List.Forall₂ (Entry.Describes count) ds es := by
  induction ds generalizing es with
  | nil => cases h; exact .nil
  | cons d ds ih =>
    obtain ⟨e, es, he, hes, rfl⟩ := bind_cons_eq_ok_iff.mp h
    exact .cons (Entry.describes_of_ofDatum he) (ih hes)

theorem entriesOfData_of_describes (hcount : count ≤ 2 ^ 53) {ds : List Datum} {es : List Entry}
    (h : List.Forall₂ (Entry.Describes count) ds es) : entriesOfData count ds = .ok es := by
  induction h with
  | nil => rfl
  | cons hd _ ih => exact bind_cons_eq_ok_iff.mpr ⟨_, _, hd.ofDatum_eq hcount, ih, rfl⟩

/-! ### Blocks -/

theorem Block.describes_of_ofDatum {b : Block} (h : Block.ofDatum count position d = .ok b) :
    Block.Describes count position d b := by
  unfold Block.ofDatum at h
  split at h
  next head number outer entries =>
    split at h
    next mark =>
      split at h
      next hmark =>
        split at h
        next => cases h
        next k hk =>
          split at h
          next hk' =>
            split at h
            next o ho =>
              cases hes : entriesOfData count entries with
              | error fault =>
                rw [hes] at h
                cases h
              | ok es =>
                rw [hes] at h
                cases h
                subst hmark hk'
                exact .intro (index?_eq_some_iff.mp hk).1 (outerDescribes_of_outer? ho)
                  (describes_of_entriesOfData hes)
            next => cases h
          next => cases h
      next => cases h
    next => cases h
  next => cases h

theorem Block.Describes.exists_parts {b : Block} (h : Block.Describes count position d b) :
    ∃ number outer entries, Datum.IsWhole number position ∧ OuterDescribes count outer b.outer ∧
      List.Forall₂ (Entry.Describes count) entries b.entries := by
  obtain ⟨hnumber, houter, hentries⟩ := h
  exact ⟨_, _, _, hnumber, houter, hentries⟩

theorem Block.Describes.ofDatum_eq (hcount : count ≤ 2 ^ 53) (hposition : position < count)
    {b : Block} (h : Block.Describes count position d b) :
    Block.ofDatum count position d = .ok b := by
  obtain ⟨hnumber, houter, hentries⟩ := h
  simp only [Block.ofDatum, if_true, index?_of_isWhole hcount hnumber hposition.le]
  rw [outer?_of_outerDescribes hcount houter, entriesOfData_of_describes hcount hentries]
  rfl

theorem describes_of_blocksOfData {ds : List Datum} {bs : List Block}
    (h : blocksOfData count position ds = .ok bs) :
    List.Forall₂ (fun d b => Block.Describes count d.2 d.1 b) (ds.zipIdx position) bs := by
  induction ds generalizing position bs with
  | nil => cases h; exact .nil
  | cons d ds ih =>
    obtain ⟨b, bs, hb, hbs, rfl⟩ := bind_cons_eq_ok_iff.mp h
    exact .cons (Block.describes_of_ofDatum hb) (ih hbs)

theorem blocksOfData_of_describes (hcount : count ≤ 2 ^ 53) {ds : List Datum} {bs : List Block}
    (hposition : position + ds.length ≤ count)
    (h : List.Forall₂ (fun d b => Block.Describes count d.2 d.1 b) (ds.zipIdx position) bs) :
    blocksOfData count position ds = .ok bs := by
  induction ds generalizing position bs with
  | nil => cases h; rfl
  | cons d ds ih =>
    rw [List.length_cons] at hposition
    cases h with
    | cons hb hbs =>
      exact bind_cons_eq_ok_iff.mpr ⟨_, _, hb.ofDatum_eq hcount (by omega), ih (by omega) hbs, rfl⟩

/-! ### Snapshots -/

theorem exists_mem_of_forall₂ {α β : Type} {R : α → β → Prop} {as : List α} {bs : List β}
    (h : List.Forall₂ R as bs) {b : β} (hb : b ∈ bs) : ∃ a ∈ as, R a b := by
  induction h with
  | nil => cases hb
  | cons hab _ ih =>
    rcases List.mem_cons.mp hb with rfl | hb
    · exact ⟨_, List.mem_cons_self, hab⟩
    · obtain ⟨a, ha, hab⟩ := ih hb
      exact ⟨a, List.mem_cons_of_mem _ ha, hab⟩

/-- Every form describes one block. -/
theorem length_of_zipIdx {α β : Type} {R : α × ℕ → β → Prop} {as : List α} {bs : List β}
    (h : List.Forall₂ R as.zipIdx bs) : bs.length = as.length :=
  h.length_eq.symm.trans List.length_zipIdx

/-- **At most `2 ^ 53` blocks.** With one more the count would be missing among the numbers, and
with two more the position of a block. -/
theorem Describes.length_le {s : Snapshot} (h : Describes d s) : s.blocks.length ≤ 2 ^ 53 := by
  obtain @⟨count, blocks, bs, hcount, -, hblocks⟩ := h
  have hlength : bs.length = blocks.length := length_of_zipIdx hblocks
  rw [hlength]
  by_contra hgt
  rcases Nat.lt_or_ge (2 ^ 53 + 1) blocks.length with hlt | hle
  · obtain ⟨-, hget⟩ := List.forall₂_iff_get.mp hblocks
    have hblock := hget (2 ^ 53 + 1) (by rw [List.length_zipIdx]; exact hlt) (hlength.symm ▸ hlt)
    rw [List.get_eq_getElem, List.getElem_zipIdx, Nat.zero_add] at hblock
    obtain ⟨number, -, -, hnumber, -, -⟩ := hblock.exists_parts
    exact not_isWhole_gap number hnumber
  · have heq : blocks.length = 2 ^ 53 + 1 := by omega
    rw [heq] at hcount
    exact not_isWhole_gap _ hcount

theorem Describes.length_pos {s : Snapshot} (h : Describes d s) : 0 < s.blocks.length := by
  obtain ⟨-, hpos, hblocks⟩ := h
  exact hpos.trans_eq (length_of_zipIdx hblocks).symm

theorem Describes.length_eq {head count : Datum} {blocks : List Datum} {s : Snapshot}
    (h : Describes (.list (head :: count :: blocks)) s) : s.blocks.length = blocks.length := by
  obtain ⟨-, -, hblocks⟩ := h
  exact length_of_zipIdx hblocks

theorem Describes.exists_block {s : Snapshot} (h : Describes d s) {b : Block} (hb : b ∈ s.blocks) :
    ∃ position d, Block.Describes s.blocks.length position d b := by
  obtain @⟨count, blocks, bs, -, -, hblocks⟩ := h
  obtain ⟨⟨d, position⟩, -, hblock⟩ := exists_mem_of_forall₂ hblocks hb
  exact ⟨position, d, (length_of_zipIdx hblocks).symm ▸ hblock⟩

theorem describes_of_ofDatum {s : Snapshot} (h : ofDatum d = .ok s) : Describes d s := by
  unfold ofDatum at h
  split at h
  next mark rest =>
    split at h
    next hmark =>
      subst hmark
      split at h
      next => cases h
      next count blocks =>
        split at h
        next n hindex =>
          split at h
          next hlength =>
            cases hbs : blocksOfData (n + 1) 0 blocks with
            | error fault =>
              rw [hbs] at h
              cases h
            | ok bs =>
              rw [hbs] at h
              cases h
              have hcount : count.IsWhole (n + 1 : ℕ) := (index?_eq_some_iff.mp hindex).1
              rw [hlength] at hcount hbs
              exact .intro hcount (by omega) (describes_of_blocksOfData hbs)
          next => cases h
        next => cases h
    next => cases h
  next => cases h
  next => cases h

theorem Describes.ofDatum_eq {s : Snapshot} (h : Describes d s) : ofDatum d = .ok s := by
  have hle := h.length_le
  obtain @⟨count, blocks, bs, hcount, hpos, hblocks⟩ := h
  rw [length_of_zipIdx hblocks] at hle
  obtain ⟨n, hn⟩ := Nat.exists_eq_add_of_le' hpos
  have hindex : index? count = some (.ofNat (n + 1)) :=
    hn ▸ index?_of_isWhole hle hcount le_rfl
  have hbs := blocksOfData_of_describes hle (Nat.zero_add _).le hblocks
  rw [hn] at hbs
  simp only [ofDatum, if_true, hindex, hn, hbs]
  rfl

/-- **Forms are decoded exactly if they describe a snapshot,** and as what they describe. -/
theorem ofDatum_eq_ok_iff {s : Snapshot} : ofDatum d = .ok s ↔ Describes d s :=
  ⟨describes_of_ofDatum, Describes.ofDatum_eq⟩

/-- **So are texts,** if they are read without errors. -/
theorem ofText_eq_ok_iff {text : String} {s : Snapshot} :
    ofText text = .ok s ↔
      (Reading.ofText text).errors = [] ∧ Describes (Reading.ofText text).value s := by
  rw [ofText, Reading.toExcept, Reading.isOk]
  cases (Reading.ofText text).errors with
  | nil => simpa using ofDatum_eq_ok_iff
  | cons e es => simp

end Snapshot

end FrameLisp
