import FrameLisp.Proofs.Reading.Forms
import FrameLisp.Snapshot.Basic

/-!
# Snapshots read back

The text of a snapshot is read as that snapshot with its data as they are reread, provided that its
names read back, its data are worded and its references point to its own blocks. As for data, the
text is scanned as the tokens of a form, and the form's value is taken apart by the decoder. So data
may come back changed, but never as something other than data.

Positions are written as numbers of the language, and those are exact up to `2 ^ 53`. A snapshot
with more blocks than that would not read back; no memory holds that many frames.

## Main definitions

* `Snapshot.form` — how a snapshot is written
* `Snapshot.WellFormed` — a snapshot whose text has its structure
* `Snapshot.reread` — the snapshot with its data as they are reread

## Main results

* `Snapshot.kinds_text` — scanning the text of a snapshot
* `Snapshot.WellFormed.ofDatum_form` — decoding what the text stands for
* `Snapshot.WellFormed.ofText_text` — reading the text of a well-formed snapshot
-/

namespace FrameLisp

namespace Snapshot

/-! ### How snapshots are written -/

/-- The form that defines a name. -/
def definitionForm (name : String) (value : Datum) : Form :=
  .group [.word SpecialForm.define.name, .word name, value.form]

/-- How an entry is written. -/
def Entry.form : Entry → Form
  | .data name value => definitionForm name value
  | .function name frame params body =>
    .group [.word functionMark, .word (toString frame), definitionForm name (.lambda params body)]

/-- How a block is written, given its position. -/
def Block.form (position : ℕ) (b : Block) : Form :=
  .group (.word blockMark :: .word (toString position) :: .word (outerText b.outer) ::
    b.entries.map Entry.form)

/-- How several blocks are written, given the position of the first. -/
def blocksForms : ℕ → List Block → List Form
  | _, [] => []
  | position, b :: bs => b.form position :: blocksForms (position + 1) bs

/-- How a snapshot is written. -/
def form (s : Snapshot) : Form :=
  .group (.word headerMark :: .word (toString s.blocks.length) :: blocksForms 0 s.blocks)

/-- An entry whose names read back, whose data are worded and which refers to one of `count`
blocks. -/
def Entry.WellFormed (count : ℕ) : Entry → Prop
  | .data name value => ReadsBack name ∧ value.Worded
  | .function name frame params body =>
    ReadsBack name ∧ (∀ p ∈ params, ReadsBack p) ∧ body.Worded ∧ frame < count

/-- A block whose entries are well-formed and whose parent is one of `count` blocks. -/
structure Block.WellFormed (count : ℕ) (b : Block) : Prop where
  outer : ∀ k ∈ b.outer, k < count
  entries : ∀ e ∈ b.entries, e.WellFormed count

/-- A snapshot whose text has its structure: there is a root, the blocks can be numbered, and each
of them is well-formed. -/
structure WellFormed (s : Snapshot) : Prop where
  root : s.blocks ≠ []
  size : s.blocks.length ≤ 2 ^ 53
  blocks : ∀ b ∈ s.blocks, b.WellFormed s.blocks.length

instance (count : ℕ) (e : Entry) : Decidable (e.WellFormed count) :=
  match e with
  | .data name value => inferInstanceAs (Decidable (ReadsBack name ∧ value.Worded))
  | .function name frame params body => inferInstanceAs (Decidable (ReadsBack name ∧
      (∀ p ∈ params, ReadsBack p) ∧ body.Worded ∧ frame < count))

instance (count : ℕ) (b : Block) : Decidable (b.WellFormed count) :=
  decidable_of_iff ((∀ k ∈ b.outer.toList, k < count) ∧ ∀ e ∈ b.entries, e.WellFormed count)
    ⟨fun h => ⟨by simpa using h.1, h.2⟩, fun h => ⟨by simpa using h.outer, h.entries⟩⟩

/-- An entry with its data as they are reread. -/
def Entry.reread : Entry → Entry
  | .data name value => .data name value.reread
  | .function name frame params body => .function name frame params body.reread

/-- A block with its data as they are reread. -/
def Block.reread (b : Block) : Block := ⟨b.outer, b.entries.map Entry.reread⟩

/-- A snapshot with its data as they are reread. -/
def reread (s : Snapshot) : Snapshot := ⟨s.blocks.map Block.reread⟩

/-! ### Scanning -/

theorem isWord_of_readsBack {name : String} (h : ReadsBack name) : Token.IsWord name :=
  (readsBack_iff.mp h).1

theorem isWord_outerText (o : Option ℕ) : Token.IsWord (outerText o) := by
  cases o with
  | none => decide
  | some k => exact Datum.isWord_toString k

theorem worded_lambda {params : List String} {body : Datum} (hp : ∀ p ∈ params, Token.IsWord p)
    (hb : body.Worded) : (Datum.lambda params body).Worded := by
  refine .list fun d hd => ?_
  simp only [List.mem_cons, List.not_mem_nil, or_false] at hd
  rcases hd with rfl | rfl | rfl
  · exact .atom _
  · refine .list fun d hd => ?_
    obtain ⟨p, hp', rfl⟩ := List.mem_map.mp hd
    exact .symbol (hp p hp')
  · exact hb

/-- A word after an opening parenthesis, and the space after it. -/
theorem kinds_open_word {w : String} (h : Token.IsWord w) (rest : List Char) :
    Token.kinds ('(' :: (w.toList ++ ' ' :: rest)) =
      .leftParen :: .word w :: Token.kinds rest := by
  rw [Token.kinds_open, Token.kinds_word h (Token.breaks_space rest), Token.kinds_space]

theorem kinds_definitionText {name : String} (hname : ReadsBack name) {value : Datum}
    (hvalue : value.Worded) (rest : List Char) :
    Token.kinds ((definitionText name value).toList ++ rest) =
      (definitionForm name value).kinds ++ Token.kinds rest := by
  have hopen : "(define ".toList = '(' :: (SpecialForm.define.name.toList ++ [' ']) := rfl
  have hclose : ")\n".toList = [')', '\n'] := rfl
  have hspace : " ".toList = [' '] := rfl
  have hdefine : Token.IsWord SpecialForm.define.name := Datum.isWord_atom (.form .define)
  rw [definitionText]
  simp only [String.toList_append, hopen, hclose, hspace, List.append_assoc, List.cons_append,
    List.nil_append]
  rw [kinds_open_word hdefine, Token.kinds_word (isWord_of_readsBack hname) (Token.breaks_space _),
    Token.kinds_space, hvalue.kinds_text (Token.breaks_close _), Token.kinds_close,
    Token.kinds_newline]
  simp [definitionForm, Form.kinds, Form.kindsOf]

theorem Entry.WellFormed.kinds_text {count : ℕ} {e : Entry} (h : e.WellFormed count)
    (rest : List Char) :
    Token.kinds (e.text.toList ++ rest) = e.form.kinds ++ Token.kinds rest := by
  cases e with
  | data name value => exact kinds_definitionText h.1 h.2 rest
  | function name frame params body =>
    obtain ⟨hname, hparams, hbody, -⟩ := h
    have hmark : Token.IsWord functionMark := by decide
    have hopen : "(".toList = ['('] := rfl
    have hclose : ")\n".toList = [')', '\n'] := rfl
    have hspace : " ".toList = [' '] := rfl
    have hnewline : "\n".toList = ['\n'] := rfl
    rw [text]
    simp only [String.toList_append, hopen, hclose, hspace, hnewline, List.append_assoc,
      List.cons_append, List.nil_append]
    rw [kinds_open_word hmark, Token.kinds_word (Datum.isWord_toString frame)
      (Token.breaks_newline _), Token.kinds_newline, kinds_definitionText hname
      (worded_lambda (fun p hp => isWord_of_readsBack (hparams p hp)) hbody), Token.kinds_close,
      Token.kinds_newline]
    simp [form, Form.kinds, Form.kindsOf]

theorem kinds_entries {count : ℕ} {es : List Entry} (h : ∀ e ∈ es, e.WellFormed count)
    (rest : List Char) :
    Token.kinds ((String.join (es.map Entry.text)).toList ++ rest) =
      Form.kindsOf (es.map Entry.form) ++ Token.kinds rest := by
  induction es with
  | nil => rfl
  | cons e es ih =>
    rw [List.map_cons, String.join_cons, String.toList_append, List.append_assoc,
      (h e List.mem_cons_self).kinds_text, ih fun d hd => h d (List.mem_cons_of_mem e hd),
      List.map_cons, Form.kindsOf, List.append_assoc]

theorem Block.WellFormed.kinds_text {count : ℕ} {b : Block} (h : b.WellFormed count) (position : ℕ)
    (rest : List Char) :
    Token.kinds ((b.text position).toList ++ rest) =
      (b.form position).kinds ++ Token.kinds rest := by
  have hmark : Token.IsWord blockMark := by decide
  have hopen : "(".toList = ['('] := rfl
  have hclose : ")\n".toList = [')', '\n'] := rfl
  have hspace : " ".toList = [' '] := rfl
  have hnewline : "\n".toList = ['\n'] := rfl
  rw [text]
  simp only [String.toList_append, hopen, hclose, hspace, hnewline, List.append_assoc,
    List.cons_append, List.nil_append]
  rw [kinds_open_word hmark, Token.kinds_word (Datum.isWord_toString position)
    (Token.breaks_space _), Token.kinds_space, Token.kinds_word (isWord_outerText b.outer)
    (Token.breaks_newline _), Token.kinds_newline, kinds_entries h.entries, Token.kinds_close,
    Token.kinds_newline]
  simp [form, Form.kinds, Form.kindsOf]

theorem kinds_blocksText {count : ℕ} {bs : List Block} (h : ∀ b ∈ bs, b.WellFormed count)
    (position : ℕ) (rest : List Char) :
    Token.kinds ((blocksText position bs).toList ++ rest) =
      Form.kindsOf (blocksForms position bs) ++ Token.kinds rest := by
  induction bs generalizing position with
  | nil => rfl
  | cons b bs ih =>
    rw [blocksText, String.toList_append, List.append_assoc,
      (h b List.mem_cons_self).kinds_text, ih fun d hd => h d (List.mem_cons_of_mem b hd),
      blocksForms, Form.kindsOf, List.append_assoc]

/-- **Scanning a snapshot.** The tokens of its text are those of the form it is written as. -/
theorem kinds_text {count : ℕ} {s : Snapshot} (h : ∀ b ∈ s.blocks, b.WellFormed count) :
    Token.kinds s.text.toList = s.form.kinds ++ [.eof] := by
  have hmark : Token.IsWord headerMark := by decide
  have hopen : "(".toList = ['('] := rfl
  have hclose : ")".toList = [')'] := rfl
  have hspace : " ".toList = [' '] := rfl
  have hnewline : "\n".toList = ['\n'] := rfl
  rw [text]
  simp only [String.toList_append, hopen, hclose, hspace, hnewline, List.append_assoc,
    List.cons_append, List.nil_append]
  rw [kinds_open_word hmark, Token.kinds_word (Datum.isWord_toString _)
    (Token.breaks_newline _), Token.kinds_newline, kinds_blocksText h, Token.kinds_close,
    Token.kinds_nil]
  simp [form, Form.kinds, Form.kindsOf]

/-! ### Decoding -/

/-- A number within the exact range, as it is read. -/
theorem index?_ofWord_toString {n : ℕ} (h : n ≤ 2 ^ 53) :
    index? (.ofWord (toString n)) = some (n : ℤ) := by
  rw [Datum.ofWord_toString, index?, Number.toInt?_whole h]
  rfl

theorem position?_ofWord_toString {count k : ℕ} (hcount : count ≤ 2 ^ 53) (hk : k < count) :
    position? count (.ofWord (toString k)) = some k := by
  rw [position?, index?_ofWord_toString (hk.le.trans hcount)]
  exact if_pos hk

theorem outer?_ofWord_outerText {count : ℕ} (hcount : count ≤ 2 ^ 53) {o : Option ℕ}
    (ho : ∀ k ∈ o, k < count) : outer? count (.ofWord (outerText o)) = some o := by
  cases o with
  | none =>
    have hread : Literal.ofChars? "-1".toList = some ⟨true, ⟨1, 0⟩⟩ := by decide
    have hindex : index? (.ofWord "-1") = some (-1) := by
      rw [Datum.ofWord_of_ofChars? hread, index?, Number.toInt?_whole (by norm_num)]
      rfl
    rw [outerText, outer?, if_pos hindex]
  | some k =>
    have hk : k < count := ho k rfl
    have hne : ¬ index? (.ofWord (toString k)) = some (-1) := by
      rw [index?_ofWord_toString (hk.le.trans hcount)]
      simp
    rw [outerText, outer?, if_neg hne, position?_ofWord_toString hcount hk]
    rfl

theorem ofWord_of_readsBack {name : String} (h : ReadsBack name) :
    Datum.ofWord name = .symbol name :=
  (readsBack_iff.mp h).2

theorem value_definitionForm {name : String} (hname : ReadsBack name) (value : Datum) :
    (definitionForm name value).value =
      .list [.atom (.form .define), .symbol name, value.reread] := by
  have hdefine : Datum.ofWord SpecialForm.define.name = .atom (.form .define) :=
    Datum.ofWord_atom (.form .define)
  simp [definitionForm, Form.value, Form.values, hdefine, ofWord_of_readsBack hname, Datum.reread]

/-- The form of a function with readable parameters is reread as the form of a function. -/
theorem reread_lambda {params : List String} (hparams : ∀ p ∈ params, ReadsBack p) (body : Datum) :
    (Datum.lambda params body).reread = .lambda params body.reread := by
  have hhead : (Datum.atom (.form .lambda)).reread = .atom (.form .lambda) :=
    (Datum.Readable.atom _).reread
  have hsymbols : (params.map Datum.symbol).map Datum.reread = params.map .symbol := by
    rw [List.map_map]
    exact List.map_congr_left fun p hp => (Datum.Readable.symbol (hparams p hp)).reread
  simp only [Datum.lambda, Datum.reread_list, List.map_cons, List.map_nil, hhead, hsymbols]

theorem symbolNames?_map (names : List String) :
    symbolNames? (names.map .symbol) = some names := by
  induction names with
  | nil => rfl
  | cons name names ih => rw [List.map_cons, symbolNames?, ih, Option.map_some]

theorem Entry.WellFormed.ofDatum_form {count : ℕ} (hcount : count ≤ 2 ^ 53) {e : Entry}
    (h : e.WellFormed count) : Entry.ofDatum count e.form.value = .ok e.reread := by
  cases e with
  | data name value => rw [form, value_definitionForm h.1, ofDatum, reread]
  | function name frame params body =>
    obtain ⟨hname, hparams, hbody, hframe⟩ := h
    have hmark : Datum.ofWord functionMark = .symbol functionMark :=
      ofWord_of_readsBack (readsBack_of_isReadable (by decide))
    have hparts : functionParts? (.list [.atom (.form .define), .symbol name,
        Datum.lambda params body.reread]) = some (name, params, body.reread) := by
      rw [Datum.lambda, functionParts?, symbolNames?_map, Option.map_some]
    simp only [form, Form.value, Form.values, hmark, value_definitionForm hname,
      reread_lambda hparams, ofDatum, if_true, position?_ofWord_toString hcount hframe, hparts,
      reread]

theorem entriesOfData_forms {count : ℕ} (hcount : count ≤ 2 ^ 53) {es : List Entry}
    (h : ∀ e ∈ es, e.WellFormed count) :
    entriesOfData count (Form.values (es.map Entry.form)) = .ok (es.map Entry.reread) := by
  induction es with
  | nil => rfl
  | cons e es ih =>
    rw [List.map_cons, Form.values, entriesOfData,
      (h e List.mem_cons_self).ofDatum_form hcount, ih fun d hd => h d (List.mem_cons_of_mem e hd)]
    rfl

theorem Block.WellFormed.ofDatum_form {count : ℕ} (hcount : count ≤ 2 ^ 53) {b : Block}
    (h : b.WellFormed count) {position : ℕ} (hposition : position ≤ 2 ^ 53) :
    Block.ofDatum count position (b.form position).value = .ok b.reread := by
  have hmark : Datum.ofWord blockMark = .symbol blockMark :=
    ofWord_of_readsBack (readsBack_of_isReadable (by decide))
  simp only [form, Form.value, Form.values, hmark, ofDatum, if_true,
    index?_ofWord_toString hposition, outer?_ofWord_outerText hcount h.outer,
    entriesOfData_forms hcount h.entries]
  rfl

theorem blocksOfData_forms {count : ℕ} (hcount : count ≤ 2 ^ 53) {bs : List Block}
    (h : ∀ b ∈ bs, b.WellFormed count) {position : ℕ} (hposition : position + bs.length ≤ 2 ^ 53) :
    blocksOfData count position (Form.values (blocksForms position bs)) =
      .ok (bs.map Block.reread) := by
  induction bs generalizing position with
  | nil => rfl
  | cons b bs ih =>
    have hrest : position + 1 + bs.length ≤ 2 ^ 53 := by
      rw [List.length_cons] at hposition
      omega
    rw [blocksForms, Form.values, blocksOfData,
      (h b List.mem_cons_self).ofDatum_form hcount (by omega),
      ih (fun d hd => h d (List.mem_cons_of_mem b hd)) hrest]
    rfl

theorem length_values_blocksForms (position : ℕ) (bs : List Block) :
    (Form.values (blocksForms position bs)).length = bs.length := by
  induction bs generalizing position with
  | nil => rfl
  | cons b bs ih => rw [blocksForms, Form.values, List.length_cons, ih, List.length_cons]

/-- **Decoding a snapshot.** What its text stands for describes the snapshot, with its data as they
are reread. -/
theorem WellFormed.ofDatum_form {s : Snapshot} (h : s.WellFormed) :
    ofDatum s.form.value = .ok s.reread := by
  have hmark : Datum.ofWord headerMark = .symbol headerMark :=
    ofWord_of_readsBack (readsBack_of_isReadable (by decide))
  obtain ⟨n, hn⟩ : ∃ n, s.blocks.length = n + 1 :=
    Nat.exists_eq_succ_of_ne_zero (List.length_pos_iff.mpr h.root).ne'
  have hindex : index? (.ofWord (toString (n + 1))) = some (.ofNat (n + 1)) :=
    index?_ofWord_toString (hn ▸ h.size)
  have hblocks := blocksOfData_forms h.size h.blocks ((Nat.zero_add _).trans_le h.size)
  rw [hn] at hblocks
  simp only [form, Form.value, Form.values, hmark, hn, ofDatum, if_true, hindex,
    length_values_blocksForms, hblocks]
  rfl

/-- **Snapshots read back.** The text of a well-formed snapshot is read as that snapshot, with its
data as they are reread. -/
theorem WellFormed.ofText_text {s : Snapshot} (h : s.WellFormed) :
    ofText s.text = .ok s.reread := by
  rw [ofText, Reading.toExcept_of_kinds (kinds_text h.blocks)]
  exact h.ofDatum_form

end Snapshot

end FrameLisp
