import FrameLisp.Proofs.Reading.Passes

/-!
# Where tokens stand

A token carries a line and a column. They lead back to the text: lines are counted by newlines and
columns by the characters since the last one, both from one, and the characters found there are the
lexeme of the token.

The scanner keeps no text, only a position that it moves on by steps of different kinds. So the
position is described by what has been passed over, `Position.after`. A text is then *laid out* as a
sequence of silent characters and tokens, and scanning is one way through this layout: each step
passes over silent characters or takes the next token. Everything about positions is read off the
layout.

A character is *silent* if it is a newline or a delimiter, or part of a comment. No token contains a
semicolon, so a character is part of a comment exactly if a semicolon comes before it on its line,
or it is one itself.

## Main definitions

* `Position.after` — the place just past some characters
* `Token.Silent` — the characters that belong to no token
* `Token.Site` — a token with the number of characters before it
* `Token.Site.Faithful` — a site at which the token is really found, and a word in full
* `Token.Laid` — the layout of a text from some character on

## Main results

* `Position.after_take_inj` — no two characters have the same place
* `Token.exists_laid` — the scanner goes through the layout
* `Token.Laid.covered_iff` — the characters in tokens are those that are not silent
* `Token.positions_faithful` — positions lead back to the text
-/

namespace FrameLisp

/-! ### Places -/

/-- What the last line of some characters holds, the last character first. -/
def lastLine (front : List Char) : List Char := front.reverse.takeWhile (· ≠ '\n')

@[simp] theorem lastLine_newline (front : List Char) : lastLine (front ++ ['\n']) = [] := by
  simp [lastLine]

theorem lastLine_append {cs : List Char} (h : '\n' ∉ cs) (front : List Char) :
    lastLine (front ++ cs) = cs.reverse ++ lastLine front := by
  have hline : ∀ c ∈ cs.reverse, decide (c ≠ '\n') = true := by
    intro c hc
    simpa using fun heq : c = '\n' => h (heq ▸ List.mem_reverse.mp hc)
  rw [lastLine, List.reverse_append, List.takeWhile_append_of_pos hline, lastLine]

namespace Position

variable {front cs text : List Char} {j k : ℕ}

/-- The place just past some characters, at the beginning of a text: lines are counted by newlines
and columns by the characters since the last newline, both from one. -/
def after (front : List Char) : Position := ⟨front.count '\n' + 1, (lastLine front).length + 1⟩

theorem after_newline (front : List Char) : after (front ++ ['\n']) = (after front).nextLine := by
  simp [after, nextLine]

theorem after_append (h : '\n' ∉ cs) (front : List Char) :
    after (front ++ cs) = (after front).right cs.length := by
  simp only [after, right, lastLine_append h, List.count_append, List.count_eq_zero.mpr h,
    List.length_append, List.length_reverse, Position.mk.injEq]
  exact ⟨trivial, by omega⟩

/-- Whatever follows has another place. -/
theorem after_append_eq_iff : after (front ++ cs) = after front ↔ cs = [] := by
  constructor
  · intro h
    by_cases hline : '\n' ∈ cs
    · have hcount := List.count_pos_iff.mpr hline
      have hlines := congrArg Position.line h
      simp only [after, List.count_append] at hlines
      omega
    · rw [after_append hline] at h
      have hcolumns := congrArg Position.column h
      simp only [right] at hcolumns
      exact List.length_eq_zero_iff.mp (by omega)
  · rintro rfl
    rw [List.append_nil]

/-- **No two characters of a text have the same place.** -/
theorem after_take_inj (hj : j ≤ text.length) (hk : k ≤ text.length) :
    after (text.take j) = after (text.take k) ↔ j = k := by
  have hordered : ∀ {j k : ℕ}, j ≤ k → k ≤ text.length →
      after (text.take k) = after (text.take j) → k = j := by
    intro j k hjk hk h
    rw [← List.take_append_drop j (text.take k), List.take_take, Nat.min_eq_left hjk,
      after_append_eq_iff] at h
    have hlength := congrArg List.length h
    simp only [List.length_drop, List.length_take, List.length_nil] at hlength
    omega
  constructor
  · intro h
    rcases Nat.le_total j k with hjk | hkj
    · exact (hordered hjk hk h.symm).symm
    · exact hordered hkj hj h
  · rintro rfl
    rfl

end Position

namespace Token

variable {text front cs rest : List Char} {c : Char} {j k : ℕ}

/-! ### Silent characters -/

/-- The character at a place belongs to no token: it is a newline or a delimiter, or part of a
comment, that is, a semicolon stands there or before it on the same line. -/
def Silent (text : List Char) (j : ℕ) : Prop :=
  (∃ c ∈ text[j]?, c = '\n' ∨ isDelimiter c) ∨ ';' ∈ lastLine (text.take (j + 1))

instance (text : List Char) (j : ℕ) : Decidable (Silent text j) :=
  @instDecidableOr _ _ (Option.decidableExistsMem text[j]?) inferInstance

theorem silent_gap (h : text = front ++ c :: rest) (hc : c = '\n' ∨ isDelimiter c) :
    Silent text front.length :=
  .inl ⟨c, by simp [h], hc⟩

/-- From a semicolon on, a line is silent. -/
theorem silent_comment {body : List Char} (h : text = front ++ (';' :: body ++ rest))
    (hbody : '\n' ∉ body) {i : ℕ} (hi : i ≤ body.length) : Silent text (front.length + i) := by
  have htake : text.take (front.length + i + 1) = front ++ ';' :: body.take i := by
    rw [h, Nat.add_assoc, List.take_length_add_append, List.cons_append, List.take_succ_cons,
      List.take_append_of_le_length hi]
  have hline : '\n' ∉ ';' :: body.take i := by
    simpa using fun hmem => hbody (List.mem_of_mem_take hmem)
  refine .inr ?_
  rw [htake, lastLine_append hline]
  simp

/-- The characters of words and parentheses are not silent, unless a semicolon comes before them. -/
theorem not_silent {w : List Char} (h : text = front ++ (w ++ rest))
    (hw : ∀ c ∈ w, c ≠ '\n' ∧ ¬ isDelimiter c ∧ c ≠ ';') (hfront : ';' ∉ lastLine front) {i : ℕ}
    (hi : i < w.length) : ¬ Silent text (front.length + i) := by
  have htake : text.take (front.length + i + 1) = front ++ w.take (i + 1) := by
    rw [h, Nat.add_assoc, List.take_length_add_append, List.take_append_of_le_length hi]
  have hline : '\n' ∉ w.take (i + 1) := fun hmem => (hw _ (List.mem_of_mem_take hmem)).1 rfl
  rintro (⟨c, hc, hgap⟩ | hcomment)
  · have hmem : c ∈ w := by
      rw [h, List.getElem?_append_right (Nat.le_add_right _ _), Nat.add_sub_cancel_left,
        List.getElem?_append_left hi] at hc
      exact List.mem_of_getElem? hc
    obtain ⟨hc', hdelimiter, -⟩ := hw c hmem
    exact hgap.elim hc' hdelimiter
  · rw [htake, lastLine_append hline, List.mem_append, List.mem_reverse] at hcomment
    rcases hcomment with hmem | hmem
    · exact (hw _ (List.mem_of_mem_take hmem)).2.2 rfl
    · exact hfront hmem

/-! ### Sites -/

/-- A token, and how many characters of the text come before it. -/
structure Site where
  start : ℕ
  token : Token

namespace Site

/-- How many characters come before the end of the token. -/
def stop (x : Site) : ℕ := x.start + x.token.lexeme.toList.length

/-- A character of the text, counted from zero, is one of the token's. -/
def Covers (x : Site) (j : ℕ) : Prop := x.start ≤ j ∧ j < x.stop

/-- The token is found where the site says. -/
structure Faithful (text : List Char) (x : Site) : Prop where
  /-- The token is made of characters, and they make it what it is. -/
  lexeme : x.token.lexeme ≠ "" ∧ x.token.kind = pieceKind x.token.lexeme.toList
  /-- They stand in the text, from the site on. -/
  found : x.token.lexeme.toList <+: text.drop x.start
  /-- The line and the column are those of the first of them, and of no other character. -/
  position : ∀ k ≤ text.length, x.token.position = .after (text.take k) ↔ k = x.start
  /-- Before a word stands nothing that could belong to it. -/
  before : ∀ w, x.token.kind = .word w → ∀ c ∈ (text.take x.start).getLast?,
    c = '\n' ∨ isDelimiter c ∨ c = '(' ∨ c = ')'
  /-- Nor does it after a word. -/
  behind : ∀ w, x.token.kind = .word w → ∀ c ∈ (text.drop x.stop).head?,
    c = '\n' ∨ isDelimiter c ∨ c = '(' ∨ c = ')' ∨ c = ';'

end Site

/-- The layout of a text from some character on: silent characters, and tokens where they are
found. -/
inductive Laid (text : List Char) : ℕ → List Site → Prop where
  | done : Laid text text.length []
  | skip {k m : ℕ} {sites : List Site} (hkm : k ≤ m)
      (hsilent : ∀ j, k ≤ j → j < m → Silent text j) (h : Laid text m sites) : Laid text k sites
  | token {x : Site} {sites : List Site} (hx : x.Faithful text)
      (hloud : ∀ j, x.Covers j → ¬ Silent text j) (h : Laid text x.stop sites) :
    Laid text x.start (x :: sites)

namespace Laid

variable {sites : List Site}

theorem le_start (h : Laid text k sites) : ∀ x ∈ sites, k ≤ x.start := by
  induction h with
  | done => simp
  | skip hkm _ _ ih => exact fun x hx => hkm.trans (ih x hx)
  | token _ _ _ ih =>
    refine List.forall_mem_cons.mpr ⟨le_rfl, fun y hy => ?_⟩
    exact (Nat.le_add_right _ _).trans (ih y hy)

theorem pairwise (h : Laid text k sites) : sites.Pairwise fun x y => x.stop ≤ y.start := by
  induction h with
  | done => exact .nil
  | skip _ _ _ ih => exact ih
  | token _ _ h ih => exact .cons h.le_start ih

theorem faithful (h : Laid text k sites) : ∀ x ∈ sites, x.Faithful text := by
  induction h with
  | done => simp
  | skip _ _ _ ih => exact ih
  | token hx _ _ ih => exact List.forall_mem_cons.mpr ⟨hx, ih⟩

/-- **The characters in tokens are those that are not silent.** -/
theorem covered_iff (h : Laid text k sites) (hk : k ≤ j) (hj : j < text.length) :
    (∃ x ∈ sites, x.Covers j) ↔ ¬ Silent text j := by
  induction h with
  | done => omega
  | @skip k m sites hkm hsilent h ih =>
    rcases Nat.lt_or_ge j m with hjm | hjm
    · -- passed over, and everything that is found starts behind it
      refine iff_of_false ?_ (not_not_intro (hsilent j hk hjm))
      rintro ⟨x, hx, hstart, -⟩
      have := h.le_start x hx
      omega
    · exact ih hjm
  | @token x sites hx hloud h ih =>
    rcases Nat.lt_or_ge j x.stop with hjx | hjx
    · exact iff_of_true ⟨x, List.mem_cons_self, hk, hjx⟩ (hloud j ⟨hk, hjx⟩)
    · simp only [← ih hjx, List.mem_cons, exists_eq_or_imp]
      exact or_iff_right fun hcovers => absurd hcovers.2 (Nat.not_lt.mpr hjx)

end Laid

/-! ### Between tokens -/

theorem not_isWordChar_iff :
    ¬ isWordChar c ↔ c = '\n' ∨ isDelimiter c ∨ c = '(' ∨ c = ')' ∨ c = ';' := by
  simp only [isWordChar, Bool.not_eq_true, Bool.not_eq_false', Bool.or_eq_true, beq_iff_eq,
    or_assoc]

/-- A place where the scanner starts anew: a comment has come to the end of its line, and a word to
something that ends it. -/
structure Boundary (front cs : List Char) : Prop where
  comment : ';' ∈ lastLine front → ∀ c ∈ cs.head?, c = '\n'
  word : ∀ c ∈ front.getLast?, isWordChar c → Breaks cs

namespace Boundary

theorem start (cs : List Char) : Boundary [] cs := ⟨by simp [lastLine], by simp⟩

/-- What begins here is not part of a comment. -/
theorem notMem_lastLine (h : Boundary front (c :: cs)) (hc : c ≠ '\n') : ';' ∉ lastLine front :=
  fun hmem => hc (h.comment hmem c rfl)

theorem newline (front cs : List Char) : Boundary (front ++ ['\n']) cs where
  comment := by simp
  word := by simp [isWordChar]

/-- Past a character that stands alone. -/
theorem single (h : Boundary front (c :: cs)) (hline : c ≠ '\n') (hcomment : c ≠ ';')
    (hword : ¬ isWordChar c) : Boundary (front ++ [c]) cs where
  comment := by
    rw [lastLine_append (by simpa using hline.symm)]
    intro hmem
    simp [hcomment.symm, h.notMem_lastLine hline] at hmem
  word := by simp [hword]

theorem pastComment (front cs : List Char) :
    Boundary (front ++ ';' :: cs.takeWhile (· ≠ '\n')) (cs.dropWhile (· ≠ '\n')) := by
  have hend : ∀ c ∈ (cs.dropWhile (· ≠ '\n')).head?, c = '\n' := by
    have h := List.head?_dropWhile_not (· ≠ '\n') cs
    intro c hc
    rw [Option.mem_def.mp hc] at h
    simpa using h
  refine ⟨fun _ => hend, fun _ _ _ c hc => ?_⟩
  rw [hend c hc]
  decide

theorem pastWord (h : Boundary front (c :: cs)) (hc : isWordChar c) :
    Boundary (front ++ c :: cs.takeWhile isWordChar) (cs.dropWhile isWordChar) := by
  have hword : ∀ d ∈ c :: cs.takeWhile isWordChar, isWordChar d :=
    List.forall_mem_cons.mpr ⟨hc, fun _ hd => List.mem_takeWhile_imp hd⟩
  refine ⟨fun hmem => ?_, fun _ _ _ => breaks_dropWhile cs⟩
  rw [lastLine_append fun hline => absurd (hword _ hline) (by decide), List.mem_append,
    List.mem_reverse] at hmem
  rcases hmem with hmem | hmem
  · exact absurd (hword _ hmem) (by decide)
  · exact absurd hmem (h.notMem_lastLine (tests_of_isWordChar hc).1)

/-- Before a word that begins here stands nothing that could belong to it. -/
theorem before_word (h : Boundary front (c :: cs)) (hc : isWordChar c) :
    ∀ d ∈ front.getLast?, d = '\n' ∨ isDelimiter d ∨ d = '(' ∨ d = ')' := by
  intro d hd
  have hword : ¬ isWordChar d := fun hd' => h.word d hd hd' c rfl hc
  have hcomment : d ≠ ';' := by
    rintro rfl
    obtain ⟨init, rfl⟩ := List.getLast?_eq_some_iff.mp hd
    refine h.notMem_lastLine (tests_of_isWordChar hc).1 ?_
    rw [lastLine_append (by decide)]
    simp
  simpa [hcomment] using not_isWordChar_iff.mp hword

end Boundary

/-! ### The scanner -/

/-- Pass over silent characters. -/
theorem Laid.skip_append {gap : List Char} {sites : List Site}
    (hsilent : ∀ i < gap.length, Silent text (front.length + i))
    (h : Laid text (front ++ gap).length sites) : Laid text front.length sites := by
  rw [List.length_append] at h
  refine .skip (Nat.le_add_right _ _) (fun j hj hj' => ?_) h
  have := hsilent (j - front.length) (by omega)
  rwa [Nat.add_sub_cancel' hj] at this

/-- Take a token, made of the characters that come next. -/
theorem Laid.token_append {t : Token} {w : List Char} {sites : List Site}
    (htext : text = front ++ (w ++ rest)) (hw : w ≠ []) (hlexeme : t.lexeme = String.ofList w)
    (hkind : t.kind = pieceKind w) (hposition : t.position = .after front)
    (hchars : ∀ c ∈ w, c ≠ '\n' ∧ ¬ isDelimiter c ∧ c ≠ ';') (hfront : ';' ∉ lastLine front)
    (hword : ∀ v, t.kind = .word v →
      (∀ c ∈ front.getLast?, c = '\n' ∨ isDelimiter c ∨ c = '(' ∨ c = ')') ∧
        ∀ c ∈ rest.head?, c = '\n' ∨ isDelimiter c ∨ c = '(' ∨ c = ')' ∨ c = ';')
    (h : Laid text (front ++ w).length sites) :
    Laid text front.length (⟨front.length, t⟩ :: sites) := by
  have hchars' : t.lexeme.toList = w := by rw [hlexeme, String.toList_ofList]
  have htake : text.take front.length = front := by simp [htext]
  have hdrop : text.drop (front.length + w.length) = rest := by simp [htext]
  have hfaithful : Site.Faithful text ⟨front.length, t⟩ :=
    { lexeme := by
        rw [hchars']
        exact ⟨by simpa [hlexeme] using hw, hkind⟩
      found := by simp [hchars', htext]
      position := by
        intro k hk
        have hlength : front.length ≤ text.length := by simp [htext]
        rw [← Position.after_take_inj hk hlength, htake, hposition, eq_comm]
      before := by
        intro v hv
        rw [htake]
        exact (hword v hv).1
      behind := by
        intro v hv
        rw [Site.stop, hchars', hdrop]
        exact (hword v hv).2 }
  have hstop : Site.stop ⟨front.length, t⟩ = (front ++ w).length := by
    rw [Site.stop, hchars', List.length_append]
  refine .token hfaithful (fun j hj => ?_) (hstop ▸ h)
  obtain ⟨hstart, hbefore⟩ : front.length ≤ j ∧ j < (front ++ w).length := hstop ▸ hj
  rw [List.length_append] at hbefore
  have := not_silent htext hchars hfront (i := j - front.length) (by omega)
  rwa [Nat.add_sub_cancel' hstart] at this

theorem Laid.paren {t : Token} {sites : List Site} (hboundary : Boundary front (c :: cs))
    (htext : text = front ++ c :: cs) (hc : c = '(' ∨ c = ')')
    (hlexeme : t.lexeme = String.ofList [c]) (hkind : t.kind = pieceKind [c])
    (hposition : t.position = .after front) (h : Laid text (front ++ [c]).length sites) :
    Laid text front.length (⟨front.length, t⟩ :: sites) := by
  have hchars : c ≠ '\n' ∧ ¬ isDelimiter c ∧ c ≠ ';' := by
    rcases hc with rfl | rfl <;> decide
  refine .token_append htext (List.cons_ne_nil c []) hlexeme hkind hposition (by simpa using hchars)
    (hboundary.notMem_lastLine hchars.1) (fun v hv => ?_) h
  rcases hc with rfl | rfl <;> exact absurd (hkind.symm.trans hv) (by simp [pieceKind])

/-- **The scanner goes through the layout.** Where it starts anew it passes over silent characters
or takes a token, and it ends just past the last character. -/
theorem exists_laid (text cs : List Char) (p : Position) :
    ∀ front, text = front ++ cs → Boundary front cs → p = .after front →
      ∃ sites, Laid text front.length sites ∧
        scanFrom p cs = sites.map Site.token ++ [⟨.eof, "", .after text⟩] := by
  fun_induction scanFrom p cs with
  | case1 p =>
    intro front htext _ hp
    rw [List.append_nil] at htext
    exact ⟨[], htext ▸ .done, by rw [htext, hp]; rfl⟩
  | case2 p cs ih =>
    intro front htext _ hp
    obtain ⟨sites, hlaid, hscan⟩ := ih (front ++ ['\n']) (by simp [htext]) (.newline front cs)
      (by rw [Position.after_newline, hp])
    refine ⟨sites, .skip_append (fun i hi => ?_) hlaid, hscan⟩
    obtain rfl : i = 0 := by simpa using hi
    exact silent_gap htext (.inl rfl)
  | case3 p c cs hline hdelimiter ih =>
    intro front htext hboundary hp
    have hword : ¬ isWordChar c := by simp [isWordChar, hdelimiter]
    have hcomment : c ≠ ';' := by
      rintro rfl
      exact absurd hdelimiter (by decide)
    obtain ⟨sites, hlaid, hscan⟩ := ih (front ++ [c]) (by simp [htext])
      (hboundary.single hline hcomment hword)
      (by rw [Position.after_append (by simpa using Ne.symm hline), hp]; rfl)
    refine ⟨sites, .skip_append (fun i hi => ?_) hlaid, hscan⟩
    obtain rfl : i = 0 := by simpa using hi
    exact silent_gap htext (.inr hdelimiter)
  | case4 p cs _ _ ih =>
    intro front htext hboundary hp
    obtain ⟨sites, hlaid, hscan⟩ := ih (front ++ ['(']) (by simp [htext])
      (hboundary.single (by decide) (by decide) (by decide))
      (by rw [Position.after_append (by decide), hp]; rfl)
    exact ⟨_, .paren hboundary htext (.inl rfl) rfl rfl hp hlaid, by rw [hscan]; rfl⟩
  | case5 p cs _ _ _ ih =>
    intro front htext hboundary hp
    obtain ⟨sites, hlaid, hscan⟩ := ih (front ++ [')']) (by simp [htext])
      (hboundary.single (by decide) (by decide) (by decide))
      (by rw [Position.after_append (by decide), hp]; rfl)
    exact ⟨_, .paren hboundary htext (.inr rfl) rfl rfl hp hlaid, by rw [hscan]; rfl⟩
  | case6 p cs _ _ _ _ ih =>
    intro front htext _ hp
    have hline : '\n' ∉ cs.takeWhile (· ≠ '\n') :=
      fun hmem => by simpa using List.mem_takeWhile_imp hmem
    have hsplit : text = front ++ (';' :: cs.takeWhile (· ≠ '\n') ++ cs.dropWhile (· ≠ '\n')) := by
      rw [htext, List.cons_append, List.takeWhile_append_dropWhile]
    obtain ⟨sites, hlaid, hscan⟩ := ih (front ++ ';' :: cs.takeWhile (· ≠ '\n'))
      (by rw [hsplit, List.append_assoc]) (.pastComment front cs)
      (by rw [Position.after_append (by simpa using hline), hp]; rfl)
    refine ⟨sites, .skip_append (fun i hi => ?_) hlaid, hscan⟩
    exact silent_comment hsplit hline (Nat.le_of_lt_succ hi)
  | case7 p c cs h1 h2 h3 h4 h5 w ih =>
    intro front htext hboundary hp
    have hc : isWordChar c := by simp [isWordChar, h1, h2, h3, h4, h5]
    have hword : ∀ d ∈ w, isWordChar d :=
      List.forall_mem_cons.mpr ⟨hc, fun _ hd => List.mem_takeWhile_imp hd⟩
    have hchars : ∀ d ∈ w, d ≠ '\n' ∧ ¬ isDelimiter d ∧ d ≠ ';' := by
      intro d hd
      obtain ⟨hline, hdelimiter, -, -, hcomment⟩ := tests_of_isWordChar (hword d hd)
      exact ⟨hline, hdelimiter, hcomment⟩
    have hsplit : text = front ++ (w ++ cs.dropWhile isWordChar) := by
      rw [htext, List.cons_append, List.takeWhile_append_dropWhile]
    obtain ⟨sites, hlaid, hscan⟩ := ih (front ++ w) (by rw [hsplit, List.append_assoc])
      (hboundary.pastWord hc)
      (by rw [Position.after_append fun hmem => (hchars _ hmem).1 rfl, hp])
    refine ⟨_, .token_append hsplit (List.cons_ne_nil _ _) rfl (pieceKind_word hc _).symm hp hchars
      (hboundary.notMem_lastLine h1) (fun v _ => ⟨hboundary.before_word hc, fun d hd => ?_⟩) hlaid,
      by rw [hscan]; rfl⟩
    exact not_isWordChar_iff.mp (breaks_dropWhile cs d hd)

/-- **Positions lead back to the text.** The tokens of a text before the end marker stand in it one
after the other and do not overlap. Each is found where its line and its column say, is what its
lexeme makes it, and if it is a word, then nothing on either side of it could belong to it. The
characters of tokens are all those that are neither newlines nor delimiters nor part of a comment.
The end marker has the place just past the last character. -/
theorem positions_faithful (s : String) :
    ∃ sites : List Site,
      scan s = sites.map Site.token ++ [⟨.eof, "", .after s.toList⟩] ∧
      sites.Pairwise (fun x y => x.stop ≤ y.start) ∧
      (∀ x ∈ sites, x.Faithful s.toList) ∧
      ∀ j < s.toList.length, (∃ x ∈ sites, x.Covers j) ↔ ¬ Silent s.toList j := by
  obtain ⟨sites, hlaid, hscan⟩ := exists_laid s.toList s.toList .start [] rfl (.start _) rfl
  exact ⟨sites, hscan, hlaid.pairwise, hlaid.faithful, fun j => hlaid.covered_iff (Nat.zero_le j)⟩

/-- Two lines with a comment between them, and a carriage return before the last word. What is
commented out is covered by no token, and the last word is. -/
theorem positions_faithful_comment :
    let s := "(a ;b)\n\r bc"
    ∃ sites : List Site, scan s = sites.map Site.token ++ [⟨.eof, "", ⟨2, 5⟩⟩] ∧
      4 < s.toList.length ∧ ¬ (∃ x ∈ sites, x.Covers 4) ∧
      10 < s.toList.length ∧ ∃ x ∈ sites, x.Covers 10 := by
  intro s
  obtain ⟨sites, hscan, -, -, hcovers⟩ := positions_faithful s
  have hend : Position.after s.toList = ⟨2, 5⟩ := by decide
  rw [hend] at hscan
  refine ⟨sites, hscan, by decide, ?_, by decide, ?_⟩
  · rw [hcovers 4 (by decide)]
    decide
  · rw [hcovers 10 (by decide)]
    decide

end Token

end FrameLisp
