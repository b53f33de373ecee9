import FrameLisp.Proofs.Reading.Forms

/-!
# Number words

The words that stand for numbers are those of a grammar: an optional sign, a coefficient, and an
optional exponent. The grammar does not say what a digit is. With the ten ASCII digits it describes
the words that the reader takes for numbers, and nothing else.

With a wider class of digits the grammar describes more words, among them some that no conversion to
a double accepts. The two conditions together, a word of the wider grammar that a conversion
accepts, come down to the narrow grammar, as long as the wider class adds no ASCII digit and the
conversion refuses whatever is not ASCII.

## Main definitions

* `Numeral` — the words of the grammar, for a class of digits
* `WidensDigits`, `ConvertsNumerals` — what is asked of a wider class and of a conversion

## Main results

* `Literal.isSome_ofChars?_iff` — the literals are the words of the grammar
* `Datum.number_words_exactly` — the words that stand for numbers
-/

namespace FrameLisp

namespace Numeral

/-- A sign that may be left out. -/
inductive Sign : List Char → Prop
  | absent : Sign []
  | plus : Sign ['+']
  | minus : Sign ['-']

variable (digit : Char → Bool)

/-- One or more digits. -/
structure Digits (ds : List Char) : Prop where
  /-- There is a digit. -/
  ne_nil : ds ≠ []
  /-- There is nothing else. -/
  all : ∀ c ∈ ds, digit c

/-- Digits, digits with a point and further digits, if any, or a point and digits. -/
inductive Coefficient : List Char → Prop
  | whole {ds : List Char} (h : Digits digit ds) : Coefficient ds
  | fraction {ds fs : List Char} (h : Digits digit ds) (hf : ∀ c ∈ fs, digit c) :
      Coefficient (ds ++ '.' :: fs)
  | point {fs : List Char} (h : Digits digit fs) : Coefficient ('.' :: fs)

/-- Nothing, or a letter, an optional sign and digits. -/
inductive Exponent : List Char → Prop
  | absent : Exponent []
  | present {e : Char} {sign ds : List Char} (he : e = 'e' ∨ e = 'E') (hs : Sign sign)
      (hd : Digits digit ds) : Exponent (e :: (sign ++ ds))

end Numeral

open Numeral in
/-- A sign, a coefficient and an exponent, of which the first and the last may be left out. -/
inductive Numeral (digit : Char → Bool) : List Char → Prop
  | mk {sign coefficient exponent : List Char} (hs : Sign sign)
      (hm : Coefficient digit coefficient) (he : Exponent digit exponent) :
      Numeral digit (sign ++ (coefficient ++ exponent))

namespace Numeral

variable {digit digit' : Char → Bool} {cs ds rest : List Char}

/-! ### The characters of a numeral -/

/-- The characters of a numeral that are not digits. -/
def marks : List Char := ['+', '-', '.', 'e', 'E']

theorem toNat_lt_of_mem_marks {c : Char} (h : c ∈ marks) : c.toNat < 128 := by
  simp only [marks, List.mem_cons, List.not_mem_nil, or_false] at h
  rcases h with rfl | rfl | rfl | rfl | rfl <;> decide

theorem Sign.mem_marks {c : Char} (h : Sign cs) (hc : c ∈ cs) : c ∈ marks := by
  cases h <;> simp_all [marks]

theorem Coefficient.mem {c : Char} (h : Coefficient digit cs) (hc : c ∈ cs) :
    digit c ∨ c ∈ marks := by
  cases h with
  | whole h => exact .inl (h.all c hc)
  | fraction h hf =>
    simp only [List.mem_append, List.mem_cons] at hc
    rcases hc with hc | rfl | hc
    · exact .inl (h.all c hc)
    · exact .inr (by decide)
    · exact .inl (hf c hc)
  | point h =>
    rcases List.mem_cons.mp hc with rfl | hc
    · exact .inr (by decide)
    · exact .inl (h.all c hc)

theorem Exponent.mem {c : Char} (h : Exponent digit cs) (hc : c ∈ cs) :
    digit c ∨ c ∈ marks := by
  cases h with
  | absent => simp at hc
  | present he hs hd =>
    simp only [List.mem_cons, List.mem_append] at hc
    rcases hc with rfl | hc | hc
    · rcases he with rfl | rfl <;> exact .inr (by decide)
    · exact .inr (hs.mem_marks hc)
    · exact .inl (hd.all c hc)

theorem mem {c : Char} (h : Numeral digit cs) (hc : c ∈ cs) : digit c ∨ c ∈ marks := by
  obtain ⟨hs, hm, he⟩ := h
  simp only [List.mem_append] at hc
  rcases hc with hc | hc | hc
  · exact .inr (hs.mem_marks hc)
  · exact hm.mem hc
  · exact he.mem hc

theorem Digits.exists_mem (h : Digits digit ds) : ∃ c ∈ ds, digit c := by
  obtain ⟨c, hc⟩ := List.exists_mem_of_ne_nil ds h.ne_nil
  exact ⟨c, hc, h.all c hc⟩

theorem exists_digit (h : Numeral digit cs) : ∃ c ∈ cs, digit c := by
  obtain ⟨hs, hm, he⟩ := h
  cases hm with
  | whole h | fraction h hf | point h =>
    obtain ⟨c, hc, hdigit⟩ := h.exists_mem
    exact ⟨c, by simp [hc], hdigit⟩

theorem Digits.getLast (h : Digits digit ds) (front : List Char) :
    ∃ c ∈ (front ++ ds).getLast?, digit c := by
  refine ⟨ds.getLast h.ne_nil, ?_, h.all _ (List.getLast_mem h.ne_nil)⟩
  simp [List.getLast?_append, List.getLast?_eq_some_getLast h.ne_nil]

/-- A numeral ends in a digit or in a point. -/
theorem getLast (h : Numeral digit cs) : ∃ c ∈ cs.getLast?, digit c ∨ c = '.' := by
  obtain @⟨sign, m, e, hs, hm, he⟩ := h
  cases he with
  | @present letter sign' ds _ _ hd =>
    obtain ⟨c, hc, hdigit⟩ := hd.getLast (sign ++ (m ++ letter :: sign'))
    exact ⟨c, by simpa using hc, .inl hdigit⟩
  | absent =>
    rw [List.append_nil]
    cases hm with
    | whole h =>
      obtain ⟨c, hc, hdigit⟩ := h.getLast sign
      exact ⟨c, hc, .inl hdigit⟩
    | point h =>
      obtain ⟨c, hc, hdigit⟩ := h.getLast (sign ++ ['.'])
      exact ⟨c, by simpa using hc, .inl hdigit⟩
    | @fraction ds fs h hf =>
      -- The only numerals that end in a point have nothing after it.
      by_cases hfs : fs = []
      · exact ⟨'.', by simp [hfs], .inr rfl⟩
      · obtain ⟨c, hc, hdigit⟩ := (Digits.mk hfs hf).getLast (sign ++ (ds ++ ['.']))
        exact ⟨c, by simpa using hc, .inl hdigit⟩

/-! ### Changing the class of digits -/

theorem Digits.congr (h : Digits digit ds) (heq : ∀ c ∈ ds, digit c → digit' c) :
    Digits digit' ds :=
  ⟨h.ne_nil, fun c hc => heq c hc (h.all c hc)⟩

theorem Coefficient.congr (h : Coefficient digit cs) (heq : ∀ c ∈ cs, digit c → digit' c) :
    Coefficient digit' cs := by
  cases h with
  | whole h => exact .whole (h.congr heq)
  | fraction h hf =>
    refine .fraction (h.congr fun c hc => heq c (by simp [hc])) fun c hc => ?_
    exact heq c (by simp [hc]) (hf c hc)
  | point h => exact .point (h.congr fun c hc => heq c (by simp [hc]))

theorem Exponent.congr (h : Exponent digit cs) (heq : ∀ c ∈ cs, digit c → digit' c) :
    Exponent digit' cs := by
  cases h with
  | absent => exact .absent
  | present he hs hd => exact .present he hs (hd.congr fun c hc => heq c (by simp [hc]))

/-- Only the digits that occur in a word matter. -/
theorem congr (h : Numeral digit cs) (heq : ∀ c ∈ cs, digit c → digit' c) :
    Numeral digit' cs := by
  obtain ⟨hs, hm, he⟩ := h
  exact ⟨hs, hm.congr fun c hc => heq c (by simp [hc]), he.congr fun c hc => heq c (by simp [hc])⟩

end Numeral

/-! ### Literals are numerals -/

namespace Literal

open Numeral

variable {cs ds rest : List Char}

theorem toNat_lt_of_isDigit {c : Char} (h : isDigit c) : c.toNat < 128 := by
  simp only [isDigit, Bool.and_eq_true, decide_eq_true_eq] at h
  have hle : c.toNat ≤ '9'.toNat := h.2
  exact hle.trans_lt (by decide)

theorem ne_sign_of_isDigit {c : Char} (h : isDigit c) : c ≠ '+' ∧ c ≠ '-' := by
  constructor <;> rintro rfl <;> exact absurd h (by decide)

/-- Digits end where something else begins. -/
theorem span_digits (h : ∀ c ∈ ds, isDigit c) (hrest : ∀ c ∈ rest.head?, ¬ isDigit c) :
    (ds ++ rest).takeWhile isDigit = ds ∧ (ds ++ rest).dropWhile isDigit = rest := by
  rw [List.takeWhile_append_of_pos h, List.dropWhile_append_of_pos h]
  cases rest with
  | nil => simp
  | cons c rest =>
    have hc : ¬ isDigit c := hrest c rfl
    simp [hc]

theorem exists_sign (cs : List Char) : ∃ sign, Sign sign ∧ cs = sign ++ (splitSign cs).2 := by
  unfold splitSign
  split
  · exact ⟨_, .plus, rfl⟩
  · exact ⟨_, .minus, rfl⟩
  · exact ⟨_, .absent, rfl⟩

theorem splitSign_append {sign : List Char} (hs : Sign sign)
    (hrest : ∀ c ∈ rest.head?, c ≠ '+' ∧ c ≠ '-') : (splitSign (sign ++ rest)).2 = rest := by
  cases hs with
  | plus | minus => rfl
  | absent =>
    rw [List.nil_append]
    unfold splitSign
    split
    · exact absurd rfl (hrest _ rfl).1
    · exact absurd rfl (hrest _ rfl).2
    · rfl

theorem isSome_exponent?_iff : (exponent? cs).isSome ↔ Exponent isDigit cs := by
  constructor
  · intro h
    cases cs with
    | nil => exact .absent
    | cons e cs =>
      obtain ⟨sign, hs, hcs⟩ := exists_sign cs
      simp only [exponent?] at h
      split at h
      · rename_i he
        split at h
        · simp at h
        · rename_i hd
          simp only [List.isEmpty_iff, List.any_eq_true, not_or, not_exists, not_and] at hd
          rw [hcs]
          exact .present he hs ⟨hd.1, fun c hc => by simpa using hd.2 c hc⟩
      · simp at h
  · intro h
    cases h with
    | absent => rfl
    | @present e sign ds he hs hd =>
      have hsplit : (splitSign (sign ++ ds)).2 = ds := by
        refine splitSign_append hs fun c hc => ?_
        exact ne_sign_of_isDigit (hd.all c (List.mem_of_mem_head? hc))
      have hall : ¬ (ds.isEmpty ∨ ds.any (!isDigit ·)) := by
        simpa [hd.ne_nil] using hd.all
      simp only [exponent?, if_pos he, hsplit, if_neg hall, Option.isSome_some]

/-- A digit comes first, or after a point that comes first. -/
def HasDigits (cs : List Char) : Prop :=
  cs.takeWhile isDigit ≠ [] ∨ (splitFraction (cs.dropWhile isDigit)).1 ≠ []

/-- What is left once the digits and the point are taken away. -/
def afterDigits (cs : List Char) : List Char := (splitFraction (cs.dropWhile isDigit)).2

theorem isSome_ofChars?_iff_parts :
    (ofChars? cs).isSome ↔ HasDigits (splitSign cs).2 ∧
      (exponent? (afterDigits (splitSign cs).2)).isSome := by
  simp only [ofChars?, HasDigits, afterDigits, List.isEmpty_iff]
  split
  · rename_i h
    simp [h.1, h.2]
  · rename_i h
    simp only [Option.isSome_map, iff_and_self]
    exact fun _ => not_and_or.mp h

theorem exists_coefficient (h : HasDigits cs) :
    ∃ m, Coefficient isDigit m ∧ cs = m ++ afterDigits cs := by
  have hcs : cs.takeWhile isDigit ++ cs.dropWhile isDigit = cs := List.takeWhile_append_dropWhile
  have hwhole : ∀ c ∈ cs.takeWhile isDigit, isDigit c := fun c hc => List.mem_takeWhile_imp hc
  rw [HasDigits] at h
  rw [afterDigits]
  -- From here on only the two parts matter, and not that they were split off.
  generalize cs.takeWhile isDigit = whole at h hcs hwhole
  generalize cs.dropWhile isDigit = tail at h hcs
  subst hcs
  unfold splitFraction at h ⊢
  split at h
  · rename_i fs
    have hfs : ∀ c ∈ fs.takeWhile isDigit, isDigit c := fun c hc => List.mem_takeWhile_imp hc
    by_cases hne : whole = []
    · refine ⟨_, .point ⟨h.resolve_left (not_not.mpr hne), hfs⟩, ?_⟩
      simp [hne]
    · exact ⟨_, .fraction ⟨hne, hwhole⟩ hfs, by simp⟩
  · exact ⟨_, .whole ⟨h.resolve_right (by simp), hwhole⟩, rfl⟩

/-- A coefficient ends before anything that is neither a digit nor a point. -/
theorem split_coefficient {m : List Char} (hm : Coefficient isDigit m)
    (hrest : ∀ c ∈ rest.head?, ¬ isDigit c ∧ c ≠ '.') :
    HasDigits (m ++ rest) ∧ afterDigits (m ++ rest) = rest := by
  have hdigits : ∀ c ∈ rest.head?, ¬ isDigit c := fun c hc => (hrest c hc).1
  cases hm with
  | whole h =>
    obtain ⟨htake, hdrop⟩ := span_digits h.all hdigits
    have hfraction : splitFraction rest = ([], rest) := by
      unfold splitFraction
      split
      · exact absurd rfl (hrest _ rfl).2
      · rfl
    rw [HasDigits, afterDigits, htake, hdrop, hfraction]
    exact ⟨.inl h.ne_nil, rfl⟩
  | @fraction ds fs h hf =>
    have hpoint : ∀ c ∈ ('.' :: (fs ++ rest)).head?, ¬ isDigit c := by
      rintro c hc
      cases hc
      decide
    obtain ⟨htake, hdrop⟩ := span_digits h.all hpoint
    rw [List.append_assoc, List.cons_append, HasDigits, afterDigits, htake, hdrop, splitFraction,
      (span_digits hf hdigits).2]
    exact ⟨.inl h.ne_nil, rfl⟩
  | @point fs h =>
    have hdrop : ('.' :: (fs ++ rest)).dropWhile isDigit = '.' :: (fs ++ rest) := rfl
    obtain ⟨hfs, hafter⟩ := span_digits h.all hdigits
    rw [List.cons_append, HasDigits, afterDigits, hdrop, splitFraction, hfs, hafter]
    exact ⟨.inr h.ne_nil, rfl⟩

theorem head_coefficient {m : List Char} (hm : Coefficient isDigit m) (tail : List Char) :
    ∀ c ∈ (m ++ tail).head?, c ≠ '+' ∧ c ≠ '-' := by
  cases hm with
  | point h =>
    rintro c hc
    cases hc
    decide
  | whole h | fraction h hf =>
    obtain ⟨d, ds, rfl⟩ := List.exists_cons_of_ne_nil h.ne_nil
    rintro c hc
    cases hc
    exact ne_sign_of_isDigit (h.all _ List.mem_cons_self)

theorem head_exponent (he : Exponent isDigit cs) : ∀ c ∈ cs.head?, ¬ isDigit c ∧ c ≠ '.' := by
  cases he with
  | absent => simp
  | present he hs hd =>
    rintro c hc
    cases hc
    rcases he with rfl | rfl <;> decide

/-- The words that read as literals are the numerals with ASCII digits. -/
theorem isSome_ofChars?_iff : (ofChars? cs).isSome ↔ Numeral isDigit cs := by
  rw [isSome_ofChars?_iff_parts, isSome_exponent?_iff]
  constructor
  · rintro ⟨hdigits, he⟩
    obtain ⟨sign, hs, hcs⟩ := exists_sign cs
    obtain ⟨m, hm, hbody⟩ := exists_coefficient hdigits
    rw [hcs, hbody]
    exact ⟨hs, hm, he⟩
  · rintro ⟨hs, hm, he⟩
    rw [splitSign_append hs (head_coefficient hm _)]
    obtain ⟨hdigits, hafter⟩ := split_coefficient hm (head_exponent he)
    exact ⟨hdigits, hafter.symm ▸ he⟩

instance : DecidablePred (Numeral isDigit) := fun _ => decidable_of_iff _ isSome_ofChars?_iff

end Literal

theorem Numeral.toNat_lt {c : Char} {cs : List Char} (h : Numeral Literal.isDigit cs)
    (hc : c ∈ cs) : c.toNat < 128 :=
  (h.mem hc).elim Literal.toNat_lt_of_isDigit toNat_lt_of_mem_marks

/-- An exponent without digits does not end as a numeral does. -/
theorem Numeral.Sign.not_last {front sign : List Char} {e c : Char} (hs : Sign sign)
    (he : e = 'e' ∨ e = 'E') (hc : c ∈ (front ++ e :: sign).getLast?) :
    ¬ (Literal.isDigit c ∨ c = '.') := by
  cases hs with
  | absent =>
    have hce : e = c := by simpa using hc
    subst hce
    rcases he with rfl | rfl <;> decide
  | plus | minus =>
    have hsign := Option.mem_def.mp hc
    simp only [List.getLast?_append, List.getLast?_cons_cons, List.getLast?_singleton,
      Option.some_or, Option.some.injEq] at hsign
    subst hsign
    decide

/-! ### Words -/

/-- A class of digits with the ten ASCII digits in it and no other ASCII character. -/
def WidensDigits (digit : Char → Bool) : Prop :=
  ∀ c : Char, c.toNat < 128 → digit c = Literal.isDigit c

/-- A conversion that accepts every numeral with ASCII digits and refuses what is not ASCII. It may
accept more, as one does that knows infinity by name. -/
structure ConvertsNumerals (convert : String → Option Float) : Prop where
  /-- Numerals are accepted. -/
  accepts : ∀ w : String, Numeral Literal.isDigit w.toList → (convert w).isSome
  /-- A character that is not ASCII is refused. -/
  refuses : ∀ w : String, (∃ c ∈ w.toList, 128 ≤ c.toNat) → convert w = none

/-- A numeral of a wider class that a conversion accepts has ASCII digits only. -/
theorem Numeral.and_convert_iff {digit : Char → Bool} {convert : String → Option Float}
    (hdigit : WidensDigits digit) (hconvert : ConvertsNumerals convert) (w : String) :
    Numeral digit w.toList ∧ (convert w).isSome ↔ Numeral Literal.isDigit w.toList := by
  constructor
  · rintro ⟨h, hsome⟩
    have hascii : ∀ c ∈ w.toList, c.toNat < 128 := by
      intro c hc
      by_contra hlt
      rw [hconvert.refuses w ⟨c, hc, not_lt.mp hlt⟩] at hsome
      simp at hsome
    exact h.congr fun c hc hd => (hdigit c (hascii c hc)).symm.trans hd
  · intro h
    refine ⟨h.congr fun c _ hd => ?_, hconvert.accepts w h⟩
    exact (hdigit c (Literal.toNat_lt_of_isDigit hd)).trans hd

namespace Datum

theorem exists_number_iff {w : String} :
    (∃ x, ofWord w = .number x) ↔ Numeral Literal.isDigit w.toList := by
  rw [← Literal.isSome_ofChars?_iff, Option.isSome_iff_exists]
  constructor
  · rintro ⟨x, h⟩
    rw [ofWord] at h
    split at h
    · cases h
    · split at h
      · cases h
      · split at h
        · exact ⟨_, ‹_›⟩
        · split at h <;> cases h
  · rintro ⟨l, h⟩
    exact ⟨_, ofWord_of_ofChars? h⟩

/-- **Number words**. A word stands for a number exactly if it is a numeral with ASCII digits. So a
word without an ASCII digit does not, such as a bare sign, a bare point or a name of infinity; nor
does one with a character that is not ASCII, nor one whose exponent has no digits. A word that
names a primitive stands for the primitive. To match a pattern with a wider class of digits and to
be accepted by a conversion comes to the same. -/
theorem number_words_exactly (w : String) :
    ((∃ x, ofWord w = .number x) ↔ Numeral Literal.isDigit w.toList) ∧
    ((∀ c ∈ w.toList, ¬ Literal.isDigit c) → ∀ x, ofWord w ≠ .number x) ∧
    ((∃ c ∈ w.toList, 128 ≤ c.toNat) → ∀ x, ofWord w ≠ .number x) ∧
    (∀ front e sign, (e = 'e' ∨ e = 'E') → Numeral.Sign sign → w.toList = front ++ e :: sign →
      ∀ x, ofWord w ≠ .number x) ∧
    (∀ p, Primitive.ofName? w = some p → ofWord w = .atom p) ∧
    (∀ digit convert, WidensDigits digit → ConvertsNumerals convert →
      ((∃ x, ofWord w = .number x) ↔ Numeral digit w.toList ∧ (convert w).isSome)) := by
  have hnumeral {x : Float} (h : ofWord w = .number x) : Numeral Literal.isDigit w.toList :=
    exists_number_iff.mp ⟨x, h⟩
  refine ⟨exists_number_iff, ?_, ?_, ?_, ?_, ?_⟩
  · intro hnone x h
    obtain ⟨c, hc, hdigit⟩ := (hnumeral h).exists_digit
    exact hnone c hc hdigit
  · rintro ⟨c, hc, hlarge⟩ x h
    exact hlarge.not_gt ((hnumeral h).toNat_lt hc)
  · intro front e sign he hs hw x h
    obtain ⟨c, hc, hlast⟩ := (hnumeral h).getLast
    rw [hw] at hc
    exact hs.not_last he hc hlast
  · intro p hp
    rw [← Primitive.name_of_ofName? hp]
    exact ofWord_atom p
  · intro digit convert hdigit hconvert
    rw [exists_number_iff, Numeral.and_convert_iff hdigit hconvert]

/-- The ten ASCII digits and the ten Arabic-Indic ones. -/
def arabicDigit (c : Char) : Bool := Literal.isDigit c || ('٠' ≤ c && c ≤ '٩')

theorem widensDigits_arabicDigit : WidensDigits arabicDigit := by
  intro c hc
  have hsmall : ¬ '٠' ≤ c := by
    intro h
    have hle : '٠'.toNat ≤ c.toNat := h
    exact absurd (hle.trans_lt hc) (by decide)
  simp [arabicDigit, hsmall]

theorem convertsNumerals_literal :
    ConvertsNumerals fun w => (Literal.ofChars? w.toList).map Literal.toFloat where
  accepts w h := by simpa using Literal.isSome_ofChars?_iff.mpr h
  refuses w := by
    rintro ⟨c, hc, hlarge⟩
    rw [Option.map_eq_none_iff, ← Option.not_isSome_iff_eq_none, Literal.isSome_ofChars?_iff]
    exact fun h => hlarge.not_gt (h.toNat_lt hc)

/-- An Arabic-Indic three matches the wider pattern and stands for no number; neither does a word
with a dangling exponent or a name of infinity. A minus sign is the primitive. -/
theorem number_words_exactly_foreign :
    Numeral arabicDigit "٣".toList ∧ (∀ x, ofWord "٣" ≠ .number x) ∧
    (∃ x, ofWord "-2.e+3" = .number x) ∧ (∀ x, ofWord "5e+" ≠ .number x) ∧
    (∀ x, ofWord "inf" ≠ .number x) ∧ (∃ p, ofWord "-" = .atom p) ∧
    (Numeral arabicDigit "-2.e+3".toList ∧
      ((Literal.ofChars? "-2.e+3".toList).map Literal.toFloat).isSome) := by
  have hthree : Numeral.Digits arabicDigit ['٣'] :=
    ⟨by decide, fun c hc => List.mem_singleton.mp hc ▸ (by decide)⟩
  have hwide : Numeral arabicDigit "٣".toList := by
    rw [show "٣".toList = [] ++ (['٣'] ++ []) by decide]
    exact ⟨.absent, .whole hthree, .absent⟩
  have hnumber := (number_words_exactly "-2.e+3").1.mpr (by decide)
  obtain ⟨p, hp⟩ := Option.isSome_iff_exists.mp
    (show (Primitive.ofName? "-").isSome by decide)
  refine ⟨hwide, ?_, hnumber, ?_, ?_, ⟨p, ?_⟩, ?_⟩
  · exact (number_words_exactly "٣").2.2.1 ⟨'٣', by decide, by decide⟩
  · exact (number_words_exactly "5e+").2.2.2.1 ['5'] 'e' ['+'] (.inl rfl) .plus (by decide)
  · exact (number_words_exactly "inf").2.1 (by simp [Literal.isDigit])
  · exact (number_words_exactly "-").2.2.2.2.1 p hp
  · exact ((number_words_exactly "-2.e+3").2.2.2.2.2 _ _ widensDigits_arabicDigit
      convertsNumerals_literal).mp hnumber

end Datum

end FrameLisp
