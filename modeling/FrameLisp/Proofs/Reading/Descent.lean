import FrameLisp.Proofs.Reading.Balanced

/-!
# Reading by recursive descent

A reader can also follow the nesting of forms with its own recursion: it keeps a place in the tokens
and a list of faults, reads a form where it stands, and reads a list by reading forms until the list
is closed. An element that raised a fault is left out of its list.

Such a reader asks for tokens by number, in a loop within a recursion, so it is not clear that it
ever comes to an end, nor that the tokens it asks for are there. It is written here with a bound on
how many calls may be under way at once, each round of a loop counted as a call, and has no result
if that is exceeded or a token is missing. Twice the number of the tokens is always enough, and the
result is then the reading of `Reader.read`.

The proof goes along the tokens that are left. A cursor is then the same as a suffix of the tokens,
and each function of the descent is described by the outcome of `Reader.advance` on that suffix,
with just one list open: what the reader on a stack keeps below is in the hands of the callers here.

## Main definitions

* `Reader.Descent.Cursor` — a place in the tokens, with the faults so far
* `Reader.Descent.readForm`, `Reader.Descent.readList`, `Reader.Descent.parse` — the descent
* `Reader.Descent.parses` — the descent, a number of times on the same tokens

## Main results

* `Reader.Descent.parse_place` — the descent always ends, within the tokens, with the same reading
* `Reader.Descent.parses_place` — so it does each time
* `Reader.read_exactly_forms` — the reader accepts exactly the tokens of one form
-/

namespace FrameLisp

namespace Reader

namespace Descent

/-- A place in the tokens, and the faults that were found on the way there. -/
structure Cursor where
  place : ℕ
  errors : List ReadError

namespace Cursor

/-- One more fault. -/
def report (c : Cursor) (e : ReadError) : Cursor := { c with errors := c.errors ++ [e] }

/-- Past the next token. -/
def advance (c : Cursor) : Cursor := { c with place := c.place + 1 }

end Cursor

/-- What a token is read as that opens no list. -/
def single (k : TokenKind) (c : Cursor) : Datum × Cursor :=
  match k with
  | .word w => (.ofWord w, c)
  | .rightParen => (.nil, c.report .unexpectedClose)
  | .leftParen | .eof => (.nil, c)

section

variable (ts : List Token)

/-- Whether there are no more tokens before the end marker. -/
def atEnd (c : Cursor) : Bool :=
  match ts[c.place]? with
  | some t => t.kind == .eof
  | none => true

/-- Whether the next token closes a list. -/
def atClose (c : Cursor) : Bool :=
  match ts[c.place]? with
  | some t => t.kind == .rightParen
  | none => false

mutual

/-- Read the form at the cursor. -/
def readForm : ℕ → Cursor → Option (Datum × Cursor)
  | 0, _ => none
  | fuel + 1, c =>
    if atEnd ts c then some (.nil, c.report .endOfInput)
    else do
      let t ← ts[c.place]?
      if t.kind = .leftParen then readList fuel [] c.advance else some (single t.kind c.advance)

/-- Read the list at the cursor to its end, given the elements so far. -/
def readList : ℕ → List Datum → Cursor → Option (Datum × Cursor)
  | 0, _, _ => none
  | fuel + 1, items, c =>
    if atEnd ts c then some (.nil, c.report (.unmatchedOpen items.getLast?))
    else if atClose ts c then do
      let _ ← ts[c.place]?
      some (.list items, c.advance)
    else do
      let (item, c') ← readForm fuel c
      -- an element that raised a fault is left out
      readList fuel (if c'.errors.length = c.errors.length then items ++ [item] else items) c'

end

/-- Report all tokens that are left. -/
def reportRest : ℕ → Cursor → Option Cursor
  | 0, _ => none
  | fuel + 1, c =>
    if atEnd ts c then some c
    else do
      let t ← ts[c.place]?
      reportRest fuel (c.advance.report (.leftover t.lexeme))

/-- Report whatever follows a form. -/
def reportTrailing (fuel : ℕ) (c : Cursor) : Option Cursor :=
  if atEnd ts c then some c else reportRest ts fuel (c.report .trailingInput)

/-- Read one form from the given place on, and report whatever follows it. Also gives the place
where the reader then stands. -/
def parse (fuel place : ℕ) : Option (Reading × ℕ) := do
  let (value, c) ← readForm ts fuel ⟨place, []⟩
  let c ← reportTrailing ts fuel c
  some (⟨value, c.errors⟩, c.place)

/-- Read a number of times, each time from the place where the reader stood after the time
before. -/
def parses (fuel : ℕ) : ℕ → ℕ → Option (List Reading)
  | _, 0 => some []
  | place, n + 1 => do
    let (r, place) ← parse ts fuel place
    let more ← parses fuel place n
    some (r :: more)

end

/-! ### Cursors as suffixes -/

variable {ts rem rest : List Token} {t : Token} {errors : List ReadError} {d : Datum} {fuel : ℕ}

/-- The cursor before a suffix of the tokens. -/
def before (ts rem : List Token) (errors : List ReadError) : Cursor :=
  ⟨ts.length - rem.length, errors⟩

@[simp] theorem place_before : (before ts rem errors).place = ts.length - rem.length := rfl

@[simp] theorem errors_before : (before ts rem errors).errors = errors := rfl

theorem report_before (e : ReadError) :
    (before ts rem errors).report e = before ts rem (errors ++ [e]) := rfl

/-- **A token that is left is there.** -/
theorem getElem?_before (h : rem <:+ ts) : ts[(before ts rem errors).place]? = rem.head? := by
  obtain ⟨pre, rfl⟩ := h
  rw [place_before, List.length_append, Nat.add_sub_cancel, List.getElem?_append_right le_rfl,
    Nat.sub_self, List.head?_eq_getElem?]

theorem atEnd_before (h : rem <:+ ts) : atEnd ts (before ts rem errors) = (body rem).isEmpty := by
  rw [atEnd, getElem?_before h]
  cases rem with
  | nil => rfl
  | cons t rem => cases hk : t.kind <;> simp [body, hk]

theorem atClose_before (h : t :: rem <:+ ts) :
    atClose ts (before ts (t :: rem) errors) = (t.kind == .rightParen) := by
  rw [atClose, getElem?_before h]
  rfl

theorem advance_before (h : t :: rem <:+ ts) :
    (before ts (t :: rem) errors).advance = before ts rem errors := by
  have hplace : ts.length - (t :: rem).length + 1 = ts.length - rem.length := by
    have hlength := h.length_le
    rw [List.length_cons] at hlength ⊢
    omega
  exact congrArg (Cursor.mk · errors) hplace

/-! ### Outcomes -/

/-- The faults of lists that are still open at the end, or of no form at all. -/
def complaints : List (List Datum) → List ReadError
  | [] => [.endOfInput]
  | items :: more => (items :: more).map fun items => .unmatchedOpen items.head?

/-- Where the descent stands after an outcome of reading the tokens `rem`, and what it gives. -/
def landing (ts rem : List Token) (errors : List ReadError) : ReadOutcome → Datum × Cursor
  | .form d rest => (d, before ts rest errors)
  | .strayClose rest => (.nil, before ts rest (errors ++ [.unexpectedClose]))
  | .ended pending => (.nil, before ts (remaining rem) (errors ++ complaints pending))

/-- Only where the tokens end matters to where the descent stands. -/
theorem landing_of_remaining (h : remaining rest = remaining rem) (o : ReadOutcome) :
    landing ts rest errors o = landing ts rem errors o := by
  cases o with
  | ended pending => rw [landing, landing, h]
  | _ => rfl

/-- A token that is passed over makes no difference to that. -/
theorem landing_cons (h : t.kind ≠ .eof) (o : ReadOutcome) :
    landing ts (t :: rem) errors o = landing ts rem errors o :=
  landing_of_remaining (remaining_cons h rem) o

/-! ### The descent, one step at a time -/

section

variable (h : t :: rem <:+ ts)
include h

theorem readForm_open (hk : t.kind = .leftParen) :
    readForm ts (fuel + 1) (before ts (t :: rem) errors) =
      readList ts fuel [] (before ts rem errors) := by
  rw [readForm, atEnd_before h, getElem?_before h, advance_before h]
  simp [body, hk]

theorem readForm_close (hk : t.kind = .rightParen) :
    readForm ts (fuel + 1) (before ts (t :: rem) errors) =
      some (.nil, before ts rem (errors ++ [.unexpectedClose])) := by
  rw [readForm, atEnd_before h, getElem?_before h, advance_before h]
  simp [body, hk, single, report_before]

theorem readForm_word {w : String} (hk : t.kind = .word w) :
    readForm ts (fuel + 1) (before ts (t :: rem) errors) =
      some (.ofWord w, before ts rem errors) := by
  rw [readForm, atEnd_before h, getElem?_before h, advance_before h]
  simp [body, hk, single]

theorem readList_close (hk : t.kind = .rightParen) (items : List Datum) :
    readList ts (fuel + 1) items (before ts (t :: rem) errors) =
      some (.list items, before ts rem errors) := by
  rw [readList, atEnd_before h, atClose_before h, getElem?_before h, advance_before h]
  simp [body, hk]

/-- An element that was read without a fault is added to the list. -/
theorem readList_element (heof : t.kind ≠ .eof) (hclose : t.kind ≠ .rightParen)
    (hform : readForm ts fuel (before ts (t :: rem) errors) = some (d, before ts rest errors))
    (items : List Datum) :
    readList ts (fuel + 1) items (before ts (t :: rem) errors) =
      readList ts fuel (items ++ [d]) (before ts rest errors) := by
  rw [readList, atEnd_before h, atClose_before h, hform]
  simp [body, heof, hclose]

/-- An element that raised a fault is left out. -/
theorem readList_fault (heof : t.kind ≠ .eof) (hclose : t.kind ≠ .rightParen)
    {faults : List ReadError} (hfaults : faults ≠ [])
    (hform : readForm ts fuel (before ts (t :: rem) errors) =
      some (d, before ts rest (errors ++ faults)))
    (items : List Datum) :
    readList ts (fuel + 1) items (before ts (t :: rem) errors) =
      readList ts fuel items (before ts rest (errors ++ faults)) := by
  rw [readList, atEnd_before h, atClose_before h, hform]
  simp [body, heof, hclose, hfaults]

end

theorem readForm_atEnd (h : rem <:+ ts) (hbody : body rem = []) :
    readForm ts (fuel + 1) (before ts rem errors) =
      some (.nil, before ts rem (errors ++ [.endOfInput])) := by
  rw [readForm, atEnd_before h, hbody]
  rfl

theorem readList_atEnd (h : rem <:+ ts) (hbody : body rem = []) (items : List Datum) :
    readList ts (fuel + 1) items (before ts rem errors) =
      some (.nil, before ts rem (errors ++ [.unmatchedOpen items.getLast?])) := by
  rw [readList, atEnd_before h, hbody]
  rfl

/-! ### The descent as a whole -/

theorem landing_atEnd (hbody : body rem = []) (items : List Datum) :
    landing ts rem errors (advance [items.reverse] rem) =
      (.nil, before ts rem (errors ++ [.unmatchedOpen items.getLast?])) := by
  rw [advance_of_body hbody, landing, remaining_of_body hbody, ← List.head?_reverse]
  rfl

/-- **Lists.** The descent reads a list as the reader does that has only this list on its stack. -/
theorem readList_before (h : rem <:+ ts) (hfuel : 2 * rem.length < fuel) (items : List Datum) :
    readList ts fuel items (before ts rem errors) =
      some (landing ts rem errors (advance [items.reverse] rem)) := by
  -- an element that is a list is reached through `readForm`, two calls down
  induction fuel using Nat.strong_induction_on generalizing rem items errors with
  | _ n ih =>
    obtain ⟨fuel, rfl⟩ := Nat.exists_eq_add_one.mpr (Nat.zero_lt_of_lt hfuel)
    by_cases hbody : body rem = []
    · rw [readList_atEnd h hbody, landing_atEnd hbody]
    cases rem with
    | nil => exact absurd rfl hbody
    | cons t rem =>
      have hrem : rem <:+ ts := (List.suffix_cons t rem).trans h
      rw [List.length_cons] at hfuel
      obtain ⟨fuel, rfl⟩ := Nat.exists_eq_add_one.mpr (show 0 < fuel by omega)
      cases hk : t.kind with
      | eof => exact absurd (by simp [body, hk]) hbody
      | rightParen =>
        rw [readList_close h hk, advance_close_last rem hk, List.reverse_reverse, landing]
      | word w =>
        rw [readList_element h (by simp [hk]) (by simp [hk]) (readForm_word h hk),
          ih _ (by omega) hrem (by omega), List.reverse_concat, advance_word rem hk,
          landing_cons (by simp [hk])]
      | leftParen =>
        have hform : readForm ts (fuel + 1) (before ts (t :: rem) errors) =
            some (landing ts rem errors (advance [[]] rem)) :=
          (readForm_open h hk).trans (ih fuel (by omega) hrem (by omega) [])
        rw [advance_open rem hk, landing_cons (by simp [hk])]
        rcases advance_open_cases [] [] rem with ⟨d, rest, hadv⟩ | ⟨inner, pending, hadv⟩
        · -- the element is complete, and reading goes on behind it
          obtain ⟨hsuffix, hremaining⟩ := suffix_of_advance hadv
          have hle : rest.length ≤ rem.length := hsuffix.length_le
          rw [hadv, landing] at hform
          rw [readList_element h (by simp [hk]) (by simp [hk]) hform,
            ih _ (by omega) (hsuffix.trans hrem) (by omega), List.reverse_concat,
            landing_of_remaining hremaining]
          exact congrArg _ (congrArg _ (advance_append_form (List.cons_ne_nil _ _) hadv _ _).symm)
        · -- the element is never closed, so neither is the list
          have hend : body (remaining rem) = [] := body_remaining rem
          rw [hadv, landing] at hform
          rw [readList_fault h (by simp [hk]) (by simp [hk]) (by simp [complaints]) hform,
            readList_atEnd ((remaining_suffix rem).trans hrem) hend,
            show advance [[], items.reverse] rem = _ from advance_append_ended hadv [items.reverse]]
          simp [landing, complaints]

/-- **Forms.** The descent reads a form as the reader does that begins with an empty stack. -/
theorem readForm_before (h : rem <:+ ts) (hfuel : 2 * rem.length < fuel) :
    readForm ts fuel (before ts rem errors) = some (landing ts rem errors (advance [] rem)) := by
  obtain ⟨fuel, rfl⟩ := Nat.exists_eq_add_one.mpr (Nat.zero_lt_of_lt hfuel)
  cases rem with
  | nil => rw [readForm_atEnd h rfl]; rfl
  | cons t rem =>
    have hrem : rem <:+ ts := (List.suffix_cons t rem).trans h
    rw [List.length_cons] at hfuel
    cases hk : t.kind with
    | eof =>
      have hbody : body (t :: rem) = [] := by simp [body, hk]
      rw [readForm_atEnd h hbody, advance_eof rem hk, landing, remaining_of_body hbody]
      rfl
    | rightParen => rw [readForm_close h hk, advance_stray rem hk, landing]
    | word w => rw [readForm_word h hk, advance_word_last rem hk, landing]
    | leftParen =>
      rw [readForm_open h hk, readList_before hrem (by omega), advance_open rem hk,
        landing_cons (by simp [hk])]
      rfl

/-- All tokens that are left are reported. -/
theorem reportRest_before (h : rem <:+ ts) (hfuel : rem.length < fuel) :
    reportRest ts fuel (before ts rem errors) =
      some (before ts (remaining rem) (errors ++ (body rem).map (.leftover ·.lexeme))) := by
  induction rem generalizing fuel errors with
  | nil =>
    obtain ⟨fuel, rfl⟩ := Nat.exists_eq_add_one.mpr hfuel
    rw [reportRest, atEnd_before h]
    simp [body, remaining]
  | cons t rem ih =>
    have hrem : rem <:+ ts := (List.suffix_cons t rem).trans h
    obtain ⟨fuel, rfl⟩ := Nat.exists_eq_add_one.mpr (Nat.zero_lt_of_lt hfuel)
    rw [reportRest, atEnd_before h, getElem?_before h, advance_before h]
    by_cases hk : t.kind = .eof
    · simp [body, remaining, hk]
    · have hbody : body (t :: rem) = t :: body rem := List.takeWhile_cons_of_pos (by simp [hk])
      simp [hbody, report_before, ih hrem (Nat.lt_of_succ_lt_succ hfuel), remaining_cons hk]

theorem reportTrailing_before (h : rem <:+ ts) (hfuel : rem.length < fuel) :
    reportTrailing ts fuel (before ts rem errors) =
      some (before ts (remaining rem) (errors ++ leftovers rem)) := by
  rw [reportTrailing, atEnd_before h, report_before, reportRest_before h hfuel, leftovers]
  cases hbody : body rem with
  | nil => simp [remaining_of_body hbody]
  | cons t more => simp

/-- **The descent always ends, within the tokens, with the same reading.** -/
theorem parse_place (h : rem <:+ ts) (hfuel : 2 * rem.length < fuel) :
    parse ts fuel (ts.length - rem.length) =
      some (read rem, ts.length - (remaining rem).length) := by
  have hform : readForm ts fuel ⟨ts.length - rem.length, []⟩ =
      some (landing ts rem [] (advance [] rem)) := readForm_before h hfuel
  have htrailing : ∀ {rest errors}, rest <:+ rem → reportTrailing ts fuel (before ts rest errors) =
      some (before ts (remaining rest) (errors ++ leftovers rest)) := by
    intro rest errors hrest
    have hle : rest.length ≤ rem.length := hrest.length_le
    exact reportTrailing_before (hrest.trans h) (by omega)
  rw [parse, hform, read]
  cases hadv : advance [] rem with
  | form d rest =>
    obtain ⟨hsuffix, hremaining⟩ := suffix_of_advance hadv
    simp [landing, htrailing hsuffix, hremaining]
  | strayClose rest =>
    obtain ⟨t, rfl, hk⟩ := exists_cons_of_strayClose hadv
    have hkind : t.kind ≠ .eof := by simp [hk]
    simp [landing, htrailing (List.suffix_cons t rest), remaining_cons hkind]
  | ended pending =>
    have hbody := body_remaining rem
    simp only [landing, Option.bind_eq_bind, Option.bind_some, htrailing (remaining_suffix rem),
      leftovers_eq_nil_iff.mpr hbody, remaining_of_body hbody]
    cases pending <;> simp [complaints]

/-- **Reading on comes to the same,** however often. -/
theorem parses_place (h : rem <:+ ts) (hfuel : 2 * rem.length < fuel) (n : ℕ) :
    parses ts fuel (ts.length - rem.length) n = some (readings rem n) := by
  induction n generalizing rem with
  | zero => rfl
  | succ n ih =>
    have hsuffix := remaining_suffix rem
    have hle := hsuffix.length_le
    have hmore := ih (hsuffix.trans h) (by omega)
    rw [parses, parse_place h hfuel, readings]
    simp [hmore]

end Descent

/-! ### What the reader accepts -/

/-- **The reader accepts exactly the tokens of one form.** It reports nothing if and only if the
tokens before the first end marker can be grouped to a form, a word or a pair of parentheses around
forms, and then the value is that of the form: the same tree, with every word replaced by what it
stands for.

Reading by recursive descent comes to the same result from every place in the tokens. In particular,
it always ends, with no more than two calls under way for each token that is left and one besides,
and never asks for a token behind the last one. -/
theorem read_exactly_forms (ts : List Token) :
    ((read ts).errors = [] ↔ ∃ f : Form, (body ts).map Token.kind = f.kinds) ∧
    (∀ f : Form, (body ts).map Token.kind = f.kinds → (read ts).value = f.value) ∧
    ∀ n ≤ ts.length, ∀ fuel > 2 * (ts.length - n),
      Descent.parse ts fuel n = some (read (ts.drop n), n + (body (ts.drop n)).length) := by
  refine ⟨⟨fun h => ?_, ?_⟩, fun f hf => ?_, fun n hn fuel hfuel => ?_⟩
  · obtain ⟨f, hkinds, -⟩ := read_eq_ok_iff.mp (congrArg (Reading.mk (read ts).value) h)
    exact ⟨f, hkinds⟩
  · rintro ⟨f, hkinds⟩
    rw [read_eq_ok_iff.mpr ⟨f, hkinds, rfl⟩]
  · rw [read_eq_ok_iff.mpr ⟨f, hf, rfl⟩]
  · rw [← List.length_drop] at hfuel
    have hparse := Descent.parse_place (List.drop_suffix n ts) hfuel
    have hlength := congrArg List.length (body_append_remaining (ts.drop n))
    rw [List.length_append, List.length_drop] at hlength
    rw [List.length_drop, Nat.sub_sub_self hn] at hparse
    rw [hparse]
    congr 2
    omega

/-- A list with a word and an empty list in it, and an end marker that comes early: what lies behind
the marker is not looked at. -/
theorem read_exactly_forms_early :
    let ts : List Token := [⟨.leftParen, "(", ⟨1, 1⟩⟩, ⟨.word "a", "a", ⟨1, 2⟩⟩,
      ⟨.leftParen, "(", ⟨1, 4⟩⟩, ⟨.rightParen, ")", ⟨1, 5⟩⟩, ⟨.rightParen, ")", ⟨1, 6⟩⟩,
      ⟨.eof, "", ⟨1, 7⟩⟩, ⟨.rightParen, ")", ⟨2, 1⟩⟩]
    (body ts).map Token.kind = (Form.group [.word "a", .group []]).kinds ∧
      (read ts).errors = [] ∧ (read ts).value = .list [.symbol "a", .list []] ∧
      Descent.parse ts 15 0 = some (read ts, 5) := by
  intro ts
  have hkinds : (body ts).map Token.kind = (Form.group [.word "a", .group []]).kinds := by decide
  have hword : Datum.ofWord "a" = .symbol "a" := Datum.ofWord_of_isReadable (by decide)
  obtain ⟨haccepts, hvalue, hdescent⟩ := read_exactly_forms ts
  refine ⟨hkinds, haccepts.mpr ⟨_, hkinds⟩, ?_, hdescent 0 (Nat.zero_le _) 15 (by decide)⟩
  rw [hvalue _ hkinds]
  simp [Form.value, Form.values, hword]

end Reader

end FrameLisp
