import FrameLisp.Proofs.Reading.Scanning

/-!
# Scanning in separate passes

The tokens of a text can also be found in three passes: delete the comments, put a space on either
side of every parenthesis, and split what is left at the gaps. Every piece is then a token. The
scanner does the same in a single pass, and decides at each character what it is looking at.

A word is where the two could part: the scanner ends it at a parenthesis or a semicolon, whereas the
passes only split at gaps. They agree since what ends a word has become a gap, or nothing at all, by
the time the text is split: a space was put before a parenthesis, and a comment is deleted up to the
end of its line.

## Main definitions

* `Token.dropComments`, `Token.spaceParens`, `Token.splitAtGaps` — the three passes
* `Token.passes` — one after the other
* `Token.pieceKind` — what a piece is

## Main results

* `Token.passes_append_word` — a word is a piece, whatever ends it
* `Token.scan_eq_passes` — the scanner finds the same tokens
-/

namespace FrameLisp

namespace Token

/-! ### The passes -/

/-- The text without its comments. A comment runs from a semicolon up to the end of the line, which
is not part of it. -/
def dropComments : List Char → List Char
  | [] => []
  | c :: cs =>
    if c = ';' then dropComments (cs.dropWhile (· ≠ '\n')) else c :: dropComments cs
termination_by cs => cs.length
decreasing_by
  · exact Nat.lt_succ_of_le (List.dropWhile_sublist _).length_le
  · exact Nat.lt_succ_self _

/-- The text with a space on either side of every parenthesis. -/
def spaceParens (cs : List Char) : List Char :=
  cs.flatMap fun c => if c = '(' ∨ c = ')' then [' ', c, ' '] else [c]

/-- The white space between tokens: NUL, tab, newline, vertical tab, form feed, carriage return and
space. -/
def isGap (c : Char) : Bool := c.toNat ∈ [0x00, 0x09, 0x0A, 0x0B, 0x0C, 0x0D, 0x20]

/-- The pieces between gaps. -/
def splitAtGaps (cs : List Char) : List (List Char) := (cs.splitOnP isGap).filter (· ≠ [])

/-- The pieces of a text, in three passes. -/
def passes (cs : List Char) : List (List Char) := splitAtGaps (spaceParens (dropComments cs))

/-- What a piece of a text is. -/
def pieceKind (piece : List Char) : TokenKind :=
  if piece = ['('] then .leftParen
  else if piece = [')'] then .rightParen
  else .word (String.ofList piece)

/-! ### Gaps -/

theorem isGap_iff {c : Char} : isGap c ↔ c = '\n' ∨ isDelimiter c := by
  have hchar : ∀ d : Char, c = d ↔ c.toNat = d.toNat := fun d => Char.toNat_inj.symm
  simp only [isGap, isDelimiter, decide_eq_true_eq, List.mem_cons, List.not_mem_nil, or_false,
    Bool.or_eq_true, beq_iff_eq, hchar]
  simp only [Char.reduceToNat]
  omega

theorem isGap_eq_false {c : Char} (h : isWordChar c) : isGap c = false := by
  obtain ⟨hline, hdelimiter, -⟩ := tests_of_isWordChar h
  rw [Bool.eq_false_iff, Ne, isGap_iff, not_or]
  exact ⟨hline, hdelimiter⟩

theorem splitAtGaps_gap {c : Char} (h : isGap c) (cs : List Char) :
    splitAtGaps (c :: cs) = splitAtGaps cs := by
  rw [splitAtGaps, List.splitOnP_cons_eq_if_modifyHead, if_pos h]
  rfl

/-- What stands between gaps is a piece. -/
theorem splitAtGaps_append {w rest : List Char} (hw : w ≠ []) (h : ∀ c ∈ w, isGap c = false)
    (hrest : ∀ c ∈ rest.head?, isGap c) : splitAtGaps (w ++ rest) = w :: splitAtGaps rest := by
  cases rest with
  | nil =>
    rw [splitAtGaps, List.append_nil, List.splitOnP_eq_singleton h]
    simp [hw, splitAtGaps]
  | cons c cs =>
    have hc : isGap c := hrest c rfl
    rw [splitAtGaps_gap hc, splitAtGaps, List.splitOnP_append_cons_of_forall_mem h c hc cs]
    simp [hw, splitAtGaps]

/-! ### Pieces of a text -/

theorem dropComments_cons {c : Char} (h : c ≠ ';') (cs : List Char) :
    dropComments (c :: cs) = c :: dropComments cs := by
  rw [dropComments, if_neg h]

theorem dropComments_comment (cs : List Char) :
    dropComments (';' :: cs) = dropComments (cs.dropWhile (· ≠ '\n')) := by
  rw [dropComments, if_pos rfl]

theorem spaceParens_paren {c : Char} (h : c = '(' ∨ c = ')') (cs : List Char) :
    spaceParens (c :: cs) = ' ' :: c :: ' ' :: spaceParens cs := by
  rw [spaceParens, List.flatMap_cons, if_pos h]
  rfl

theorem spaceParens_cons {c : Char} (h : ¬ (c = '(' ∨ c = ')')) (cs : List Char) :
    spaceParens (c :: cs) = c :: spaceParens cs := by
  rw [spaceParens, List.flatMap_cons, if_neg h]
  rfl

/-- The first two passes leave gaps as they are. -/
theorem firstPasses_gap {c : Char} (h : isGap c) (cs : List Char) :
    spaceParens (dropComments (c :: cs)) = c :: spaceParens (dropComments cs) := by
  have hcomment : c ≠ ';' := by
    rintro rfl
    exact absurd h (by decide)
  have hparen : ¬ (c = '(' ∨ c = ')') := by
    rintro (rfl | rfl) <;> exact absurd h (by decide)
  rw [dropComments_cons hcomment, spaceParens_cons hparen]

theorem firstPasses_paren {c : Char} (h : c = '(' ∨ c = ')') (cs : List Char) :
    spaceParens (dropComments (c :: cs)) = ' ' :: c :: ' ' :: spaceParens (dropComments cs) := by
  have hcomment : c ≠ ';' := by
    rintro rfl
    exact absurd h (by decide)
  rw [dropComments_cons hcomment, spaceParens_paren h]

/-- They leave the characters of words as they are. -/
theorem firstPasses_append_word {w : List Char} (h : ∀ c ∈ w, isWordChar c) (rest : List Char) :
    spaceParens (dropComments (w ++ rest)) = w ++ spaceParens (dropComments rest) := by
  induction w with
  | nil => rfl
  | cons c w ih =>
    obtain ⟨hc, hw⟩ := List.forall_mem_cons.mp h
    obtain ⟨-, -, hopen, hclose, hcomment⟩ := tests_of_isWordChar hc
    rw [List.cons_append, dropComments_cons hcomment,
      spaceParens_cons (not_or.mpr ⟨hopen, hclose⟩), ih hw, List.cons_append]

/-- What ends a word is a gap, or nothing at all, after the first two passes. -/
theorem isGap_of_breaks {rest : List Char} (h : Breaks rest) :
    ∀ c ∈ (spaceParens (dropComments rest)).head?, isGap c := by
  cases rest with
  | nil => simp [dropComments, spaceParens]
  | cons c cs =>
    by_cases hgap : isGap c
    · simpa [firstPasses_gap hgap] using hgap
    · by_cases hparen : c = '(' ∨ c = ')'
      · simp [firstPasses_paren hparen, isGap]
      · -- a comment is left, and what follows it is the end of the line or of the text
        have hcomment : c = ';' := by
          have hword : ¬ isWordChar c := h c rfl
          rw [isGap_iff] at hgap
          simpa [isWordChar, not_or.mp hgap, not_or.mp hparen] using hword
        rw [hcomment, dropComments_comment]
        cases hline : cs.dropWhile (· ≠ '\n') with
        | nil => simp [dropComments, spaceParens]
        | cons d ds =>
          have hd := List.head?_dropWhile_not (· ≠ '\n') cs
          rw [hline] at hd
          obtain rfl : d = '\n' := by simpa using hd
          simp [firstPasses_gap, isGap]

@[simp] theorem passes_nil : passes [] = [] := by
  rw [passes, dropComments]
  rfl

theorem passes_gap {c : Char} (h : isGap c) (cs : List Char) : passes (c :: cs) = passes cs := by
  rw [passes, firstPasses_gap h, splitAtGaps_gap h, passes]

theorem passes_paren {c : Char} (h : c = '(' ∨ c = ')') (cs : List Char) :
    passes (c :: cs) = [c] :: passes cs := by
  have hpiece : ∀ d ∈ [c], isGap d = false := by
    rw [List.forall_mem_singleton]
    rcases h with rfl | rfl <;> decide
  rw [passes, firstPasses_paren h, splitAtGaps_gap (by decide)]
  refine (splitAtGaps_append (List.cons_ne_nil c []) hpiece ?_).trans ?_
  · simp [isGap]
  · rw [splitAtGaps_gap (by decide), passes]

theorem passes_comment (cs : List Char) :
    passes (';' :: cs) = passes (cs.dropWhile (· ≠ '\n')) := by
  rw [passes, dropComments_comment, passes]

/-- **A word is a piece,** whatever ends it. -/
theorem passes_append_word {w rest : List Char} (hw : w ≠ []) (h : ∀ c ∈ w, isWordChar c)
    (hrest : Breaks rest) : passes (w ++ rest) = w :: passes rest := by
  rw [passes, firstPasses_append_word h,
    splitAtGaps_append hw (fun c hc => isGap_eq_false (h c hc)) (isGap_of_breaks hrest), passes]

theorem breaks_dropWhile (cs : List Char) : Breaks (cs.dropWhile isWordChar) := by
  have h := List.head?_dropWhile_not isWordChar cs
  intro c hc
  simpa [Option.mem_def.mp hc] using h

theorem passes_word {c : Char} (h : isWordChar c) (cs : List Char) :
    passes (c :: cs) = (c :: cs.takeWhile isWordChar) :: passes (cs.dropWhile isWordChar) := by
  have hw : ∀ d ∈ c :: cs.takeWhile isWordChar, isWordChar d :=
    List.forall_mem_cons.mpr ⟨h, fun _ hd => List.mem_takeWhile_imp hd⟩
  have hpiece := passes_append_word (List.cons_ne_nil c _) hw (breaks_dropWhile cs)
  rwa [List.cons_append, List.takeWhile_append_dropWhile] at hpiece

/-- A piece that begins with a character of a word is a word. -/
theorem pieceKind_word {c : Char} (h : isWordChar c) (cs : List Char) :
    pieceKind (c :: cs) = .word (String.ofList (c :: cs)) := by
  obtain ⟨-, -, hopen, hclose, -⟩ := tests_of_isWordChar h
  rw [pieceKind, if_neg (by simp [hopen]), if_neg (by simp [hclose])]

/-! ### The scanner -/

/-- The scanner goes through the pieces one by one, wherever it starts to count lines. -/
theorem scanFrom_eq_passes (p : Position) (cs : List Char) :
    (scanFrom p cs).map (fun t => (t.kind, t.lexeme)) =
      (passes cs).map (fun piece => (pieceKind piece, String.ofList piece)) ++ [(.eof, "")] := by
  fun_induction scanFrom p cs with
  | case1 p => rw [passes_nil]; rfl
  | case2 p cs ih => rw [ih, passes_gap (by decide)]
  | case3 p c cs _ hc ih => rw [ih, passes_gap (isGap_iff.mpr (.inr hc))]
  | case4 p cs _ _ ih => rw [List.map_cons, ih, passes_paren (.inl rfl)]; rfl
  | case5 p cs _ _ _ ih => rw [List.map_cons, ih, passes_paren (.inr rfl)]; rfl
  | case6 p cs _ _ _ _ ih => rw [ih, passes_comment]
  | case7 p c cs hline hdelimiter hopen hclose hcomment w ih =>
    have hc : isWordChar c := by simp [isWordChar, hline, hdelimiter, hopen, hclose, hcomment]
    rw [List.map_cons, ih, passes_word hc, List.map_cons, pieceKind_word hc]
    rfl

/-- **The scanner finds what the three passes find.** Delete every comment, put a space on either
side of every parenthesis, and split at white space: the pieces are the tokens, in order, and each
token carries the piece it was made from as its lexeme. One end marker follows, made from
nothing. -/
theorem scan_eq_passes (s : String) :
    (scan s).map (fun t => (t.kind, t.lexeme)) =
      (splitAtGaps (spaceParens (dropComments s.toList))).map
        (fun piece => (pieceKind piece, String.ofList piece)) ++ [(.eof, "")] :=
  scanFrom_eq_passes .start s.toList

end Token

end FrameLisp
