import FrameLisp.Datum
import FrameLisp.Token
import Mathlib.Data.List.TakeWhile

/-!
# Scanning written text

What is written is scanned back piece by piece. Positions play no part in reading, so scanning is
described by the kinds of the tokens alone, and each character or word that is written has an
equation for what it contributes.

A word ends where the next character is none of a word's. Every statement about a piece of text that
may end in a word therefore speaks of the text that follows as well, and asks that it *breaks*:
that it is empty or begins with a character that ends a word.

## Main definitions

* `Token.kinds` — the kinds of the tokens of some characters
* `Token.Breaks` — text that ends the word before it
* `Token.IsWord` — text that is scanned as one word

## Main results

* `Token.kinds_word` — a word is scanned as one token
* `Token.exists_suffix_of_mem_scanFrom` — where words stand in a text
* `Token.isWord_of_mem_scanFrom` — whatever is scanned as a word is one
-/

namespace FrameLisp

namespace Token

/-- The kinds of the tokens of some characters, the end marker included. -/
def kinds (cs : List Char) : List TokenKind := (scanFrom .start cs).map kind

/-- Where the characters begin makes no difference to what they are. -/
theorem map_kind_scanFrom (p : Position) (cs : List Char) :
    (scanFrom p cs).map kind = kinds cs := by
  suffices h : ∀ p q : Position, (scanFrom p cs).map kind = (scanFrom q cs).map kind from h p .start
  intro p q
  fun_induction scanFrom p cs generalizing q with
  | case1 p => rw [scanFrom]; rfl
  | case2 p cs ih => rw [scanFrom, if_pos rfl]; exact ih _
  | case3 p c cs h h' ih => rw [scanFrom, if_neg h, if_pos h']; exact ih _
  | case4 p cs h h' ih =>
    rw [scanFrom, if_neg h, if_neg h', if_pos rfl, List.map_cons, List.map_cons, ih]
  | case5 p cs h h' h'' ih =>
    rw [scanFrom, if_neg h, if_neg h', if_neg h'', if_pos rfl, List.map_cons, List.map_cons, ih]
  | case6 p cs h h' h'' h''' ih =>
    rw [scanFrom, if_neg h, if_neg h', if_neg h'', if_neg h''', if_pos rfl]
    exact ih _
  | case7 p c cs h h' h'' h''' h'''' w ih =>
    rw [scanFrom, if_neg h, if_neg h', if_neg h'', if_neg h''', if_neg h'''']
    rw [List.map_cons, List.map_cons, ih]

theorem map_kind_scan (s : String) : (scan s).map kind = kinds s.toList := rfl

/-! ### Single characters -/

@[simp] theorem kinds_nil : kinds [] = [.eof] := by
  rw [kinds, scanFrom]
  rfl

theorem kinds_newline (cs : List Char) : kinds ('\n' :: cs) = kinds cs := by
  rw [kinds, scanFrom, if_pos rfl, map_kind_scanFrom]

theorem kinds_delimiter {c : Char} (hc : isDelimiter c) (cs : List Char) :
    kinds (c :: cs) = kinds cs := by
  have hne : c ≠ '\n' := by
    rintro rfl
    exact absurd hc (by decide)
  rw [kinds, scanFrom, if_neg hne, if_pos hc, map_kind_scanFrom]

theorem kinds_space (cs : List Char) : kinds (' ' :: cs) = kinds cs :=
  kinds_delimiter (by decide) cs

theorem kinds_open (cs : List Char) : kinds ('(' :: cs) = .leftParen :: kinds cs := by
  rw [kinds, scanFrom, if_neg (by decide), if_neg (by decide), if_pos rfl, List.map_cons,
    map_kind_scanFrom]

theorem kinds_close (cs : List Char) : kinds (')' :: cs) = .rightParen :: kinds cs := by
  rw [kinds, scanFrom, if_neg (by decide), if_neg (by decide), if_neg (by decide), if_pos rfl,
    List.map_cons, map_kind_scanFrom]

/-! ### Words -/

/-- Text that ends the word before it: there is none, or it begins with a character that belongs to
no word. -/
def Breaks (cs : List Char) : Prop := ∀ c ∈ cs.head?, ¬ isWordChar c

@[simp] theorem breaks_nil : Breaks [] := by simp [Breaks]

theorem breaks_cons {c : Char} (hc : ¬ isWordChar c) (cs : List Char) : Breaks (c :: cs) := by
  simpa [Breaks] using hc

theorem breaks_space (cs : List Char) : Breaks (' ' :: cs) := breaks_cons (by decide) cs

theorem breaks_newline (cs : List Char) : Breaks ('\n' :: cs) := breaks_cons (by decide) cs

theorem breaks_close (cs : List Char) : Breaks (')' :: cs) := breaks_cons (by decide) cs

theorem Breaks.span {cs : List Char} (h : Breaks cs) :
    cs.takeWhile isWordChar = [] ∧ cs.dropWhile isWordChar = cs := by
  cases cs with
  | nil => exact ⟨rfl, rfl⟩
  | cons c cs =>
    have hc : ¬ isWordChar c := h c rfl
    exact ⟨List.takeWhile_cons_of_neg hc, List.dropWhile_cons_of_neg hc⟩

/-- A text that is scanned as one word. -/
def IsWord (w : String) : Prop := w ≠ "" ∧ ∀ c ∈ w.toList, isWordChar c

-- the characters of the word are run through, not all characters
instance (w : String) : Decidable (IsWord w) :=
  @instDecidableAnd _ _ inferInstance (List.decidableBAll (isWordChar · = true) w.toList)

/-- None of the tests that come before the one for words applies to a character of a word. -/
theorem tests_of_isWordChar {c : Char} (h : isWordChar c) :
    c ≠ '\n' ∧ ¬ isDelimiter c ∧ c ≠ '(' ∧ c ≠ ')' ∧ c ≠ ';' := by
  simpa [isWordChar, not_or, and_assoc] using h

theorem scanFrom_word_cons {c : Char} (h : isWordChar c) (p : Position) (cs : List Char) :
    scanFrom p (c :: cs) =
      ⟨.word (String.ofList (c :: cs.takeWhile isWordChar)),
        String.ofList (c :: cs.takeWhile isWordChar), p⟩ ::
        scanFrom (p.right (c :: cs.takeWhile isWordChar).length) (cs.dropWhile isWordChar) := by
  obtain ⟨h1, h2, h3, h4, h5⟩ := tests_of_isWordChar h
  rw [scanFrom, if_neg h1, if_neg h2, if_neg h3, if_neg h4, if_neg h5]

/-- **Words are scanned back.** A word that is followed by a break is scanned as one token. -/
theorem kinds_word {w : String} (hw : IsWord w) {rest : List Char} (hrest : Breaks rest) :
    kinds (w.toList ++ rest) = .word w :: kinds rest := by
  obtain ⟨hne, hchars⟩ := hw
  obtain ⟨htake, hdrop⟩ := hrest.span
  cases hcs : w.toList with
  | nil => exact absurd (String.toList_eq_nil_iff.mp hcs) hne
  | cons c cs =>
    rw [hcs] at hchars
    have hall : ∀ d ∈ cs, isWordChar d := fun d hd => hchars d (List.mem_cons_of_mem c hd)
    rw [List.cons_append, kinds, scanFrom_word_cons (hchars c List.mem_cons_self),
      List.takeWhile_append_of_pos hall, List.dropWhile_append_of_pos hall, htake, hdrop,
      List.append_nil, List.map_cons, map_kind_scanFrom, ← hcs, String.ofList_toList]

/-- Each word begins some end of the text, and goes on as long as word characters do. -/
theorem exists_suffix_of_mem_scanFrom {p : Position} {cs : List Char} {t : Token} {w : String}
    (ht : t ∈ scanFrom p cs) (hk : t.kind = .word w) :
    ∃ c rest, c :: rest <:+ cs ∧ isWordChar c ∧
      w = String.ofList (c :: rest.takeWhile isWordChar) := by
  have hlater : ∀ {ds es : List Char}, ds <:+ es →
      (∃ c rest, c :: rest <:+ ds ∧ isWordChar c ∧
        w = String.ofList (c :: rest.takeWhile isWordChar)) →
      ∃ c rest, c :: rest <:+ es ∧ isWordChar c ∧
        w = String.ofList (c :: rest.takeWhile isWordChar) :=
    fun hsuffix ⟨c, rest, hrest, h⟩ => ⟨c, rest, hrest.trans hsuffix, h⟩
  fun_induction scanFrom p cs with
  | case1 p =>
    rw [List.mem_singleton.mp ht] at hk
    cases hk
  | case2 p cs ih => exact hlater (List.suffix_cons _ cs) (ih ht)
  | case3 p c cs _ _ ih => exact hlater (List.suffix_cons c cs) (ih ht)
  | case4 p cs _ _ ih =>
    rcases List.mem_cons.mp ht with rfl | ht
    · cases hk
    · exact hlater (List.suffix_cons _ cs) (ih ht)
  | case5 p cs _ _ _ ih =>
    rcases List.mem_cons.mp ht with rfl | ht
    · cases hk
    · exact hlater (List.suffix_cons _ cs) (ih ht)
  | case6 p cs _ _ _ _ ih =>
    exact hlater ((List.dropWhile_suffix _).trans (List.suffix_cons _ cs)) (ih ht)
  | case7 p c cs h1 h2 h3 h4 h5 v ih =>
    rcases List.mem_cons.mp ht with rfl | ht
    · cases hk
      exact ⟨c, cs, List.suffix_rfl, by simp [isWordChar, h1, h2, h3, h4, h5], rfl⟩
    · exact hlater ((List.dropWhile_suffix _).trans (List.suffix_cons c cs)) (ih ht)

theorem isWord_of_mem_scanFrom {p : Position} {cs : List Char} {t : Token} {w : String}
    (ht : t ∈ scanFrom p cs) (hk : t.kind = .word w) : IsWord w := by
  obtain ⟨c, rest, -, hc, rfl⟩ := exists_suffix_of_mem_scanFrom ht hk
  refine ⟨by simp, fun d hd => ?_⟩
  rw [String.toList_ofList] at hd
  rcases List.mem_cons.mp hd with rfl | hd
  · exact hc
  · exact List.mem_takeWhile_imp hd

/-- Words are made of characters of the text. -/
theorem subset_of_mem_scanFrom {p : Position} {cs : List Char} {t : Token} {w : String}
    (ht : t ∈ scanFrom p cs) (hk : t.kind = .word w) : w.toList ⊆ cs := by
  obtain ⟨c, rest, hsuffix, -, rfl⟩ := exists_suffix_of_mem_scanFrom ht hk
  rw [String.toList_ofList]
  exact List.Subset.trans (List.cons_subset_cons c (List.takeWhile_subset _)) hsuffix.subset

/-! ### Names -/

/-- Whatever ends a word is kept out of readable names. -/
theorem isNameBreak_of_not_isWordChar {c : Char} (h : ¬ isWordChar c) : isNameBreak c := by
  simp only [isWordChar, isDelimiter, Bool.not_eq_true, Bool.not_eq_false', Bool.or_eq_true,
    beq_iff_eq] at h
  rcases h with (((rfl | ((((rfl | rfl) | rfl) | hvt) | hff) | hnul) | rfl) | rfl) | rfl
  · decide
  · decide
  · decide
  · decide
  · simp [isNameBreak, Text.isBlank, Text.blankRanges, hvt]
  · simp [isNameBreak, Text.isBlank, Text.blankRanges, hff]
  · simp [isNameBreak, hnul]
  · decide
  · decide
  · decide

theorem isWord_of_isReadable {name : String} (h : isReadable name) : IsWord name := by
  simp only [isReadable, Bool.and_eq_true, Bool.not_eq_true', List.any_eq_false] at h
  obtain ⟨⟨hne, hchars⟩, -⟩ := h
  refine ⟨by rintro rfl; exact absurd hne (by decide), fun c hc => ?_⟩
  by_contra hcon
  exact hchars c hc (isNameBreak_of_not_isWordChar hcon)

end Token

end FrameLisp
