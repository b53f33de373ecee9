import FrameLisp.Proofs.Number.ReadBack
import FrameLisp.Proofs.Reading.Scanning
import FrameLisp.Reader

/-!
# Reading written forms

A datum and its text meet in the middle, in a *form*: a tree of words, as the parentheses group
them. A form has tokens and it has a value. Scanning a text gives the tokens of the form that is
written there, and reading the tokens of a form gives its value. The layout between the tokens plays
no part, so a text that breaks its lines differently is read back as well.

A datum is *worded* if its symbols are words. Its text is then scanned as its form, so reading it
gives a datum of the same structure, though a word may stand for something else: a symbol named `5`
comes back as a number, and infinity comes back as a symbol. A datum is *readable* if this happens
nowhere in it: its symbols read back and its numbers are finite.

## Main definitions

* `Form` — words grouped by parentheses, with `Form.kinds` and `Form.value`
* `ReadsBack` — a name that the reader reads as its symbol
* `Datum.form`, `Datum.reread` — how a datum is written; what is read from its text
* `Datum.Worded`, `Datum.Readable` — a datum that can be written; one that is read back

## Main results

* `Reader.advance_form` — reading the tokens of a form
* `Reading.toExcept_of_kinds` — a text with the tokens of a form is read as the form's value
* `Datum.Worded.kinds_text`, `Datum.Worded.toExcept_text` — scanning and reading a datum's text
* `Datum.Worded.reread_eq_self_iff` — exactly the readable data are read back
* `readsBack_iff` — the names that read back
-/

namespace FrameLisp

/-- Words grouped by parentheses. -/
inductive Form where
  | word (w : String)
  | group (items : List Form)

namespace Form

mutual

/-- The kinds of the tokens a form is written with. -/
def kinds : Form → List TokenKind
  | .word w => [.word w]
  | .group items => .leftParen :: (kindsOf items ++ [.rightParen])

/-- The kinds of the tokens several forms are written with. -/
def kindsOf : List Form → List TokenKind
  | [] => []
  | f :: fs => kinds f ++ kindsOf fs

end

mutual

/-- What a form stands for. -/
def value : Form → Datum
  | .word w => .ofWord w
  | .group items => .list (values items)

/-- What several forms stand for. -/
def values : List Form → List Datum
  | [] => []
  | f :: fs => value f :: values fs

end

@[simp] theorem values_eq_map (fs : List Form) : values fs = fs.map value := by
  induction fs with
  | nil => rfl
  | cons f fs ih => rw [values, ih, List.map_cons]

end Form

/-- A name that, read as a text, is the symbol of that name and nothing else. -/
def ReadsBack (name : String) : Prop := (Reading.ofText name).toExcept = .ok (.symbol name)

namespace Datum

/-! ### Words -/

/-- A word that reads as a literal stands for the number. -/
theorem ofWord_of_ofChars? {w : String} {l : Literal} (h : Literal.ofChars? w.toList = some l) :
    ofWord w = .number l.toFloat := by
  have ht : w ≠ "#t" := by
    rintro rfl
    exact Option.some_ne_none l (h.symm.trans (by decide))
  have hf : w ≠ "#f" := by
    rintro rfl
    exact Option.some_ne_none l (h.symm.trans (by decide))
  rw [ofWord, if_neg ht, if_neg hf, h]

theorem ofWord_atom (p : Primitive) : ofWord p.name = .atom p := by
  have hwords : p.name ≠ "#t" ∧ p.name ≠ "#f" ∧ Literal.ofChars? p.name.toList = none := by
    rcases p with f | b
    · cases f <;> decide
    · cases b <;> decide
  rw [ofWord, if_neg hwords.1, if_neg hwords.2.1, hwords.2.2, Primitive.ofName?_name]

theorem isWord_atom (p : Primitive) : Token.IsWord p.name := by
  rcases p with f | b
  · cases f <;> decide
  · cases b <;> decide

theorem ofWord_eq_symbol {w name : String} (h : ofWord w = .symbol name) : w = name := by
  rw [ofWord] at h
  split at h
  · cases h
  · split at h
    · cases h
    · split at h
      · cases h
      · split at h
        · cases h
        · exact Datum.symbol.inj h

theorem isSymbol_ofWord_iff {w : String} : (ofWord w).isSymbol ↔ ofWord w = .symbol w := by
  cases hd : ofWord w with
  | symbol name => simp [isSymbol, ofWord_eq_symbol hd]
  | _ => simp [isSymbol]

theorem ofWord_of_isReadable {name : String} (h : isReadable name) :
    ofWord name = .symbol name := by
  simp only [isReadable, Bool.and_eq_true] at h
  exact isSymbol_ofWord_iff.mp h.2

theorem isWordChar_of_isDigit {c : Char} (h : Literal.isDigit c) : Token.isWordChar c := by
  have hrange : 48 ≤ c.toNat ∧ c.toNat ≤ 57 := by
    simpa [Literal.isDigit, Char.le_def, UInt32.le_iff_toNat_le] using h
  by_contra hcon
  simp only [Token.isWordChar, Token.isDelimiter, Bool.not_eq_true, Bool.not_eq_false',
    Bool.or_eq_true, beq_iff_eq] at hcon
  rcases hcon with (((rfl | ((((rfl | rfl) | rfl) | hc) | hc) | hc) | rfl) | rfl) | rfl
  all_goals first | omega | exact absurd hrange (by decide)

theorem isWord_number_of_isFinite {x : Float} (hx : Binary.isFinite x) :
    Token.IsWord (Number.text x) := by
  obtain ⟨whole, fraction, hchars, hne, hwhole, hfraction, -⟩ := Number.exists_text_chars hx
  refine ⟨?_, ?_⟩
  · intro h
    rw [h] at hchars
    simp [hne] at hchars
  · intro c hc
    rw [hchars, List.mem_append, List.mem_append] at hc
    rcases hc with hsign | hc | hc
    · split at hsign
      · rw [List.mem_singleton.mp hsign]
        decide
      · cases hsign
    · exact isWordChar_of_isDigit (hwhole c hc)
    · rw [Literal.fractionChars] at hc
      split at hc
      · cases hc
      · rcases List.mem_cons.mp hc with rfl | hc
        · decide
        · exact isWordChar_of_isDigit (hfraction c hc)

/-- A number without a literal is written as one of three words. -/
theorem text_of_not_isFinite {x : Float} (hx : ¬ Binary.isFinite x) :
    Number.text x ∈ ["NaN", "inf", "-inf"] := by
  have hle : Binary.infinity ≤ Binary.magnitude x := by simpa [Binary.isFinite] using hx
  rw [Number.text]
  split
  · simp
  next hnan =>
    rw [if_pos (Nat.le_antisymm (Nat.not_lt.mp hnan) hle)]
    split <;> simp

theorem isWord_number (x : Float) : Token.IsWord (Number.text x) := by
  by_cases hx : Binary.isFinite x
  · exact isWord_number_of_isFinite hx
  · have hwords : ∀ w ∈ ["NaN", "inf", "-inf"], Token.IsWord w := by decide
    exact hwords _ (text_of_not_isFinite hx)

/-- A word for a number without a literal stands for a symbol. -/
theorem ofWord_number_of_not_isFinite {x : Float} (hx : ¬ Binary.isFinite x) :
    ofWord (Number.text x) = .symbol (Number.text x) := by
  have hwords : ∀ w ∈ ["NaN", "inf", "-inf"], isReadable w := by decide
  exact ofWord_of_isReadable (hwords _ (text_of_not_isFinite hx))

/-- The digits of a natural number are a word for it. -/
theorem isWord_toString (n : ℕ) : Token.IsWord (toString n) := by
  rw [Nat.toString_eq_repr]
  refine ⟨Nat.repr_ne_empty, fun c hc => ?_⟩
  rw [Nat.toList_repr] at hc
  exact isWordChar_of_isDigit (Literal.isDigit_of_mem_toDigits hc)

theorem ofWord_toString (n : ℕ) :
    ofWord (toString n) = .number (Literal.toFloat ⟨false, ⟨n, 0⟩⟩) := by
  refine ofWord_of_ofChars? ?_
  rw [Nat.toString_eq_repr, Nat.toList_repr, Literal.ofChars?_toDigits]

end Datum

/-! ### Names -/

namespace Reader

/-- With a list open, the form that reading completes is a list. -/
theorem list_of_advance_open {items : List Datum} {more : List (List Datum)} {ts rest : List Token}
    {d : Datum} (h : advance (items :: more) ts = .form d rest) : ∃ ds, d = .list ds := by
  generalize hp : items :: more = pending at h
  fun_induction advance pending ts generalizing items more with
  | case1 => cases h
  | case2 => cases h
  | case3 pending t ts _ ih => exact ih rfl h
  | case4 => cases hp
  | case5 t ts items' _ => cases h; exact ⟨_, rfl⟩
  | case6 t ts _ items' outer more' ih => exact ih rfl h
  | case7 => cases hp
  | case8 t ts w _ items' more' ih => exact ih rfl h

section

variable {t : Token} {w : String} (rest : List Token)

theorem advance_eof (h : t.kind = .eof) (pending : List (List Datum)) :
    advance pending (t :: rest) = .ended pending := by
  simp [advance, h]

theorem advance_open (h : t.kind = .leftParen) (pending : List (List Datum)) :
    advance pending (t :: rest) = advance ([] :: pending) rest := by
  simp [advance, h]

theorem advance_stray (h : t.kind = .rightParen) : advance [] (t :: rest) = .strayClose rest := by
  simp [advance, h]

theorem advance_close_last (h : t.kind = .rightParen) (items : List Datum) :
    advance [items] (t :: rest) = .form (.list items.reverse) rest := by
  simp [advance, h]

theorem advance_close (h : t.kind = .rightParen) (items outer : List Datum)
    (more : List (List Datum)) :
    advance (items :: outer :: more) (t :: rest) =
      advance ((.list items.reverse :: outer) :: more) rest := by
  simp [advance, h]

theorem advance_word_last (h : t.kind = .word w) :
    advance [] (t :: rest) = .form (.ofWord w) rest := by
  simp [advance, h]

theorem advance_word (h : t.kind = .word w) (items : List Datum) (more : List (List Datum)) :
    advance (items :: more) (t :: rest) = advance ((.ofWord w :: items) :: more) rest := by
  simp [advance, h]

end

/-- Without an open list, a form that is no list is a single word. -/
theorem word_of_advance {ts rest : List Token} {d : Datum} (h : advance [] ts = .form d rest)
    (hd : ∀ ds, d ≠ .list ds) : ∃ t w, ts = t :: rest ∧ t.kind = .word w ∧ d = .ofWord w := by
  cases ts with
  | nil => cases h
  | cons t ts =>
    cases hk : t.kind with
    | leftParen =>
      rw [advance_open ts hk] at h
      obtain ⟨ds, hds⟩ := list_of_advance_open h
      exact absurd hds (hd ds)
    | rightParen =>
      rw [advance_stray ts hk] at h
      cases h
    | word w =>
      rw [advance_word_last ts hk] at h
      cases h
      exact ⟨t, w, rfl, hk, rfl⟩
    | eof =>
      rw [advance_eof ts hk] at h
      cases h

theorem leftovers_of_map_kind {ts : List Token} (h : ts.map Token.kind = [.eof]) :
    leftovers ts = [] := by
  obtain ⟨t, rfl, ht⟩ := List.map_eq_singleton_iff.mp h
  simp [leftovers, body, ht]

end Reader

/-- A reading that succeeds comes from a complete form. -/
theorem Reading.exists_advance_of_toExcept {s : String} {d : Datum}
    (h : (ofText s).toExcept = .ok d) :
    ∃ rest, Reader.advance [] (Token.scan s) = .form d rest := by
  rw [toExcept] at h
  split at h
  next hok =>
    have hvalue : (ofText s).value = d := Except.ok.inj h
    rw [isOk, ofText, Reader.read] at hok
    rw [ofText, Reader.read] at hvalue
    split at hok
    next value rest hadv =>
      rw [hadv] at hvalue
      exact ⟨rest, by rw [hadv, show value = d from hvalue]⟩
    next => cases hok
    next => cases hok
    next pending hne hadv =>
      cases pending with
      | nil => exact absurd rfl hne
      | cons items more => cases hok
  next => cases h

/-- A name reads back exactly if it is a word and stands for its symbol. -/
theorem readsBack_iff {name : String} :
    ReadsBack name ↔ Token.IsWord name ∧ Datum.ofWord name = .symbol name := by
  constructor
  · intro h
    obtain ⟨rest, hadv⟩ := Reading.exists_advance_of_toExcept h
    obtain ⟨t, w, hscan, ht, hw⟩ := Reader.word_of_advance hadv (by simp)
    obtain rfl := Datum.ofWord_eq_symbol hw.symm
    have hmem : t ∈ Token.scan w := by
      rw [hscan]
      exact List.mem_cons_self
    exact ⟨Token.isWord_of_mem_scanFrom hmem ht, hw.symm⟩
  · rintro ⟨hword, hsymbol⟩
    have hkinds := Token.kinds_word hword Token.breaks_nil
    rw [List.append_nil, Token.kinds_nil, ← Token.map_kind_scan] at hkinds
    obtain ⟨t, rest, hscan, ht, hrest⟩ := List.map_eq_cons_iff.mp hkinds
    rw [ReadsBack, Reading.ofText, hscan, Reader.read, Reader.advance_word_last rest ht]
    simp [Reading.toExcept, Reading.isOk, Reader.leftovers_of_map_kind hrest, hsymbol]

instance (name : String) : Decidable (ReadsBack name) :=
  decidable_of_iff (Token.IsWord name ∧ (Datum.ofWord name).isSymbol)
    ((and_congr_right fun _ => Datum.isSymbol_ofWord_iff).trans readsBack_iff.symm)

theorem readsBack_of_isReadable {name : String} (h : isReadable name) : ReadsBack name :=
  readsBack_iff.mpr ⟨Token.isWord_of_isReadable h, Datum.ofWord_of_isReadable h⟩

/-! ### Reading tokens -/

namespace Reader

mutual

/-- **Reading a form.** Tokens that begin with those of a form are read as the form's value: alone
it is the value read, and inside a list it is the next element. -/
theorem advance_form : ∀ (f : Form) {ts : List Token} {ks : List TokenKind},
    ts.map Token.kind = f.kinds ++ ks →
      ∃ rest, rest.map Token.kind = ks ∧ advance [] ts = .form f.value rest ∧
        ∀ items more, advance (items :: more) ts = advance ((f.value :: items) :: more) rest
  | .word w, ts, ks, hts => by
    obtain ⟨t, rest, rfl, ht, hrest⟩ := List.map_eq_cons_iff.mp hts
    exact ⟨rest, hrest, advance_word_last rest ht, advance_word rest ht⟩
  | .group fs, ts, ks, hts => by
    rw [Form.kinds, List.cons_append, List.append_assoc] at hts
    obtain ⟨t, ts', rfl, ht, hts'⟩ := List.map_eq_cons_iff.mp hts
    obtain ⟨close, hclose, hitems⟩ := advance_forms fs hts'
    obtain ⟨c, rest, rfl, hc, hrest⟩ := List.map_eq_cons_iff.mp hclose
    refine ⟨rest, hrest, ?_, fun items more => ?_⟩
    · rw [advance_open _ ht, hitems, advance_close_last _ hc, List.append_nil, List.reverse_reverse,
        Form.value]
    · rw [advance_open _ ht, hitems, advance_close _ hc, List.append_nil, List.reverse_reverse,
        Form.value]

/-- Elements are added to the innermost open list, one after the other. -/
theorem advance_forms : ∀ (fs : List Form) {ts : List Token} {ks : List TokenKind},
    ts.map Token.kind = Form.kindsOf fs ++ ks →
      ∃ rest, rest.map Token.kind = ks ∧ ∀ items more,
        advance (items :: more) ts = advance (((Form.values fs).reverse ++ items) :: more) rest
  | [], ts, ks, hts => ⟨ts, hts, fun _ _ => rfl⟩
  | f :: fs, ts, ks, hts => by
    rw [Form.kindsOf, List.append_assoc] at hts
    obtain ⟨rest, hrest, -, hf⟩ := advance_form f hts
    obtain ⟨rest', hrest', hfs⟩ := advance_forms fs hrest
    refine ⟨rest', hrest', fun items more => ?_⟩
    rw [hf, hfs, Form.values, List.reverse_cons, List.append_assoc, List.singleton_append]

end

end Reader

/-- **Reading a text.** A text whose tokens are those of a form is read as the form's value,
whatever its layout. -/
theorem Reading.toExcept_of_kinds {s : String} {f : Form}
    (h : Token.kinds s.toList = f.kinds ++ [.eof]) : (ofText s).toExcept = .ok f.value := by
  obtain ⟨rest, hrest, hadv, -⟩ := Reader.advance_form f h
  rw [ofText, Reader.read, show Reader.advance [] (Token.scan s) = _ from hadv]
  simp [toExcept, isOk, Reader.leftovers_of_map_kind hrest]

/-! ### Data -/

namespace Datum

mutual

/-- How a datum is written. -/
def form : Datum → Form
  | .list items => .group (forms items)
  | d => .word d.text

/-- How several data are written. -/
def forms : List Datum → List Form
  | [] => []
  | d :: ds => form d :: forms ds

end

@[simp] theorem forms_eq_map (ds : List Datum) : forms ds = ds.map form := by
  induction ds with
  | nil => rfl
  | cons d ds ih => rw [forms, ih, List.map_cons]

theorem form_leaf {d : Datum} (h : ∀ items, d ≠ .list items) : d.form = .word d.text := by
  cases d with
  | list items => exact absurd rfl (h items)
  | _ => rfl

/-- What the form that a datum is written as stands for. -/
def reread (d : Datum) : Datum := d.form.value

theorem reread_leaf {d : Datum} (h : ∀ items, d ≠ .list items) : d.reread = ofWord d.text := by
  rw [reread, form_leaf h, Form.value]

@[simp] theorem reread_list (items : List Datum) :
    (list items).reread = .list (items.map reread) := by
  rw [reread, form, Form.value, forms_eq_map, Form.values_eq_map, List.map_map]
  rfl

/-- A datum whose symbols are words, so that its text has the structure of the datum. -/
inductive Worded : Datum → Prop where
  | atom (p : Primitive) : Worded (.atom p)
  | symbol {name : String} (h : Token.IsWord name) : Worded (.symbol name)
  | number (x : Float) : Worded (.number x)
  | bool (b : Bool) : Worded (.bool b)
  | list {items : List Datum} (h : ∀ d ∈ items, Worded d) : Worded (.list items)

/-- A datum that can be written without loss: its symbols read back and its numbers are finite. -/
inductive Readable : Datum → Prop where
  | atom (p : Primitive) : Readable (.atom p)
  | symbol {name : String} (h : ReadsBack name) : Readable (.symbol name)
  | number {x : Float} (h : Binary.isFinite x) : Readable (.number x)
  | bool (b : Bool) : Readable (.bool b)
  | list {items : List Datum} (h : ∀ d ∈ items, Readable d) : Readable (.list items)

mutual

/-- Whether a datum is worded can be computed. -/
def decidableWorded : (d : Datum) → Decidable d.Worded
  | .atom p => .isTrue (.atom p)
  | .symbol _ => decidable_of_iff _ ⟨.symbol, fun | .symbol h => h⟩
  | .number x => .isTrue (.number x)
  | .bool b => .isTrue (.bool b)
  | .list items =>
    @decidable_of_iff _ _ ⟨.list, fun | .list h => h⟩ (decidableAllWorded items)

def decidableAllWorded : (ds : List Datum) → Decidable (∀ d ∈ ds, d.Worded)
  | [] => .isTrue (List.forall_mem_nil _)
  | d :: ds =>
    @decidable_of_iff _ _ List.forall_mem_cons.symm
      (@instDecidableAnd _ _ (decidableWorded d) (decidableAllWorded ds))

end

mutual

/-- Whether a datum is readable can be computed. -/
def decidableReadable : (d : Datum) → Decidable d.Readable
  | .atom p => .isTrue (.atom p)
  | .symbol _ => decidable_of_iff _ ⟨.symbol, fun | .symbol h => h⟩
  | .number _ => decidable_of_iff _ ⟨.number, fun | .number h => h⟩
  | .bool b => .isTrue (.bool b)
  | .list items =>
    @decidable_of_iff _ _ ⟨.list, fun | .list h => h⟩ (decidableAllReadable items)

def decidableAllReadable : (ds : List Datum) → Decidable (∀ d ∈ ds, d.Readable)
  | [] => .isTrue (List.forall_mem_nil _)
  | d :: ds =>
    @decidable_of_iff _ _ List.forall_mem_cons.symm
      (@instDecidableAnd _ _ (decidableReadable d) (decidableAllReadable ds))

end

instance (d : Datum) : Decidable d.Worded := decidableWorded d

instance (d : Datum) : Decidable d.Readable := decidableReadable d

theorem Readable.worded {d : Datum} (h : d.Readable) : d.Worded := by
  induction h with
  | atom p => exact .atom p
  | symbol h => exact .symbol (readsBack_iff.mp h).1
  | number h => exact .number _
  | bool b => exact .bool b
  | list _ ih => exact .list ih

/-- A readable datum that is no list is written as a word that stands for it. -/
theorem Readable.ofWord_text {d : Datum} (h : d.Readable) (hd : ∀ items, d ≠ .list items) :
    ofWord d.text = d := by
  cases h with
  | atom p => exact ofWord_atom p
  | symbol h => exact (readsBack_iff.mp h).2
  | number h =>
    obtain ⟨l, hl, hx⟩ := Number.exists_ofChars?_text h
    rw [text, ofWord_of_ofChars? hl, hx]
  | bool b => cases b <;> rfl
  | list h => exact absurd rfl (hd _)

theorem Readable.reread_leaf {d : Datum} (h : d.Readable) (hd : ∀ items, d ≠ .list items) :
    d.reread = d := by
  rw [Datum.reread_leaf hd, h.ofWord_text hd]

/-- How a readable datum is written stands for that datum. -/
theorem Readable.reread {d : Datum} (h : d.Readable) : d.reread = d := by
  induction h with
  | atom p => exact reread_leaf (.atom p) (by simp)
  | symbol h => exact reread_leaf (.symbol h) (by simp)
  | number h => exact reread_leaf (.number h) (by simp)
  | bool b => exact reread_leaf (.bool b) (by simp)
  | list h ih =>
    rw [reread_list]
    exact congrArg Datum.list ((List.map_congr_left ih).trans (List.map_id _))

/-- **Exactly the readable data are read back.** -/
theorem Worded.reread_eq_self_iff {d : Datum} (h : d.Worded) : d.reread = d ↔ d.Readable := by
  refine ⟨fun heq => ?_, Readable.reread⟩
  induction h with
  | atom p => exact .atom p
  | symbol hword =>
    rw [Datum.reread_leaf (by simp)] at heq
    exact .symbol (readsBack_iff.mpr ⟨hword, heq⟩)
  | number x =>
    rw [Datum.reread_leaf (by simp), text] at heq
    by_cases hx : Binary.isFinite x
    · exact .number hx
    · rw [ofWord_number_of_not_isFinite hx] at heq
      cases heq
  | bool b => exact .bool b
  | @list items h ih =>
    rw [reread_list, Datum.list.injEq] at heq
    refine .list fun d hd => ih d hd ?_
    simpa using List.map_inj_left.mp (heq.trans (List.map_id items).symm) d hd

/-- The elements of a list, scanned one after the other up to the parenthesis that closes it. -/
theorem kinds_texts {ds : List Datum} {rest : List Char}
    (h : ∀ d ∈ ds, ∀ rest, Token.Breaks rest →
      Token.kinds (d.text.toList ++ rest) = d.form.kinds ++ Token.kinds rest) :
    Token.kinds ((" ".intercalate (ds.map text)).toList ++ ')' :: rest) =
      Form.kindsOf (forms ds) ++ .rightParen :: Token.kinds rest := by
  induction ds with
  | nil => exact Token.kinds_close rest
  | cons d ds ih =>
    have ih := ih fun e he => h e (List.mem_cons_of_mem d he)
    have hd := h d List.mem_cons_self
    cases ds with
    | nil =>
      rw [List.map_cons, List.map_nil, String.intercalate_singleton, hd _ (Token.breaks_close rest),
        Token.kinds_close, forms, forms, Form.kindsOf, Form.kindsOf, List.append_nil]
    | cons e es =>
      rw [List.map_cons, List.map_cons, String.intercalate_cons_cons, String.toList_append,
        String.toList_append, List.append_assoc, List.append_assoc, forms, Form.kindsOf,
        List.append_assoc, ← ih]
      exact (hd _ (Token.breaks_space _)).trans (congrArg _ (Token.kinds_space _))

/-- A worded datum that is no list is written as one word. -/
theorem Worded.isWord_text {d : Datum} (h : d.Worded) (hd : ∀ items, d ≠ .list items) :
    Token.IsWord d.text := by
  cases h with
  | atom p => exact isWord_atom p
  | symbol h => exact h
  | number x => exact isWord_number x
  | bool b => cases b <;> decide
  | list h => exact absurd rfl (hd _)

theorem Worded.kinds_text_leaf {d : Datum} (h : d.Worded) (hd : ∀ items, d ≠ .list items)
    {rest : List Char} (hrest : Token.Breaks rest) :
    Token.kinds (d.text.toList ++ rest) = d.form.kinds ++ Token.kinds rest := by
  rw [Token.kinds_word (h.isWord_text hd) hrest, form_leaf hd]
  rfl

/-- **Scanning a datum.** The text of a worded datum, followed by a break, is scanned as the tokens
the datum is written with. -/
theorem Worded.kinds_text {d : Datum} (h : d.Worded) {rest : List Char}
    (hrest : Token.Breaks rest) :
    Token.kinds (d.text.toList ++ rest) = d.form.kinds ++ Token.kinds rest := by
  induction h generalizing rest with
  | atom p => exact kinds_text_leaf (.atom p) (by simp) hrest
  | symbol h => exact kinds_text_leaf (.symbol h) (by simp) hrest
  | number x => exact kinds_text_leaf (.number x) (by simp) hrest
  | bool b => exact kinds_text_leaf (.bool b) (by simp) hrest
  | list h ih =>
    rw [text_list, String.toList_append, String.toList_append, List.append_assoc, List.append_assoc,
      form, Form.kinds, List.cons_append, List.append_assoc]
    exact (Token.kinds_open _).trans (congrArg _ (kinds_texts fun d hd rest => ih d hd))

/-- **Reading a datum.** -/
theorem Worded.toExcept_text {d : Datum} (h : d.Worded) :
    (Reading.ofText d.text).toExcept = .ok d.reread := by
  refine Reading.toExcept_of_kinds ?_
  have hkinds := h.kinds_text Token.breaks_nil
  rwa [List.append_nil, Token.kinds_nil] at hkinds

/-- The text of readable data is read back as the data. -/
theorem Readable.toExcept_text {d : Datum} (h : d.Readable) :
    (Reading.ofText d.text).toExcept = .ok d := by
  rw [h.worded.toExcept_text, h.reread]

end Datum

end FrameLisp
