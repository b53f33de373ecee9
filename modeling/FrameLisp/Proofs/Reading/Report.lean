import FrameLisp.Proofs.Reading.Descent

/-!
# What the reader reports

Tokens that are not those of a single form can go wrong in few ways, and what the reader then gives
and reports is determined by their shape. There may be no tokens at all, or they begin with a form,
or with a parenthesis that closes nothing, and the rest is left over; or else there are parentheses
that are never closed. In the last case the tokens are those of the open parentheses, from the
outside in, each followed by the complete forms directly inside it.

Every list of tokens has one of these shapes. Whatever was read and reported, all tokens before the
end marker have then been used up, so reading once more finds nothing.

## Main definitions

* `Form.unclosed` — tokens with parentheses that are never closed
* `Reader.Reported` — the value and the report, by the shape of the tokens

## Main results

* `Reader.advance_unclosed` — reading with parentheses that are never closed
* `Reader.reported_read` — every list of tokens has one of the shapes
* `Reader.reports_exactly` — what the reader reports
-/

namespace FrameLisp

/-- The kinds of the tokens of parentheses that are never closed, from the outside in, each with the
complete forms directly inside it. -/
def Form.unclosed (levels : List (List Form)) : List TokenKind :=
  levels.flatMap fun fs => .leftParen :: kindsOf fs

namespace Reader

variable {ts : List Token} {d : Datum} {messages : List String}

/-- The report on tokens that are left over: none, or a header and the lexemes of them all. -/
def trailingReport : List Token → List String
  | [] => []
  | t :: ts => "unexpected tokens found at end of program:" :: (t :: ts).map (·.lexeme)

/-- The report on a parenthesis that is never closed, given the complete forms directly inside it:
it shows the last of them, if there is one. -/
def unmatchedReport (fs : List Form) : String :=
  "unmatched paren: " ++ (fs.getLast?.map fun f => f.value.text).getD ""

/-- What is read from tokens without an end marker, and the report on them. -/
inductive Reported : List Token → Datum → List String → Prop where
  /-- There are no tokens. -/
  | nothing : Reported [] .nil ["unexpected end of file"]
  /-- A complete form, and whatever follows it. -/
  | form {front : List Token} (f : Form) (h : front.map Token.kind = f.kinds) (rest : List Token) :
    Reported (front ++ rest) f.value (trailingReport rest)
  /-- A parenthesis that closes nothing, and whatever follows it. -/
  | stray {t : Token} (h : t.kind = .rightParen) (rest : List Token) :
    Reported (t :: rest) .nil ("unexpected \")\"" :: trailingReport rest)
  /-- Parentheses that are never closed. They are reported from the inside out. -/
  | unclosed {ts : List Token} (levels : List (List Form)) (hne : levels ≠ [])
    (h : ts.map Token.kind = Form.unclosed levels) :
    Reported ts .nil (levels.reverse.map unmatchedReport)

/-! ### Tokens from shapes -/

theorem map_message_leftovers (ts : List Token) :
    (leftovers ts).map ReadError.message = trailingReport (body ts) := by
  rw [leftovers]
  cases body ts with
  | nil => rfl
  | cons t ts =>
    rw [List.map_cons, List.map_map]
    rfl

theorem message_unmatchedOpen (fs : List Form) :
    (ReadError.unmatchedOpen (fs.map Form.value).head?).message = unmatchedReport fs.reverse := by
  have hlast : (fs.map Form.value).head?.map Datum.text =
      fs.reverse.getLast?.map fun f => f.value.text := by
    rw [List.getLast?_reverse, List.head?_map, Option.map_map]
    rfl
  exact congrArg (fun last => "unmatched paren: " ++ last.getD "") hlast

/-- Lists that are still open are reported one by one. -/
theorem read_of_ended {stack : List (List Form)} (hne : stack ≠ [])
    (h : advance [] ts = .ended (pendingValues stack)) :
    (read ts).value = .nil ∧ (read ts).errors.map ReadError.message =
      stack.map fun fs => unmatchedReport fs.reverse := by
  obtain ⟨fs, more, rfl⟩ := List.exists_cons_of_ne_nil hne
  rw [read, h]
  refine ⟨rfl, ?_⟩
  change ((pendingValues (fs :: more)).map fun items => ReadError.unmatchedOpen items.head?).map
    ReadError.message = _
  rw [pendingValues, List.map_map, List.map_map]
  exact List.map_congr_left fun fs _ => message_unmatchedOpen fs

/-- **Parentheses that are never closed** leave lists open. -/
theorem advance_unclosed (levels : List (List Form)) {ks : List TokenKind}
    (h : ts.map Token.kind = Form.unclosed levels ++ ks) :
    ∃ rest, rest.map Token.kind = ks ∧ ∀ pending, advance pending ts =
      advance (pendingValues (levels.map List.reverse).reverse ++ pending) rest := by
  induction levels generalizing ts with
  | nil => exact ⟨ts, h, fun _ => rfl⟩
  | cons fs levels ih =>
    rw [Form.unclosed, List.flatMap_cons, ← Form.unclosed, List.cons_append, List.cons_append,
      List.append_assoc] at h
    obtain ⟨t, ts, rfl, ht, hts⟩ := List.map_eq_cons_iff.mp h
    obtain ⟨rest, hrest, hforms⟩ := advance_forms fs hts
    obtain ⟨rest', hrest', hlevels⟩ := ih hrest
    refine ⟨rest', hrest', fun pending => ?_⟩
    rw [advance_open ts ht, hforms, hlevels]
    simp [pendingValues]

/-- What is passed over without an end marker belongs to the body. -/
theorem body_eq_append {front rest : List Token} (h : front ++ rest = ts)
    (hrest : remaining rest = remaining ts) : body ts = front ++ body rest := by
  rw [← List.append_left_inj (remaining ts), body_append_remaining, List.append_assoc, ← hrest,
    body_append_remaining, h]

/-- A form at the beginning is read, and the tokens after it are left. -/
theorem advance_front {front : List Token} {f : Form} (h : front.map Token.kind = f.kinds)
    (rest : List Token) : advance [] (front ++ rest) = .form f.value rest := by
  have hkinds : (front ++ rest).map Token.kind = f.kinds ++ rest.map Token.kind := by
    rw [List.map_append, h]
  obtain ⟨rest', hrest', hadv, -⟩ := advance_form f hkinds
  -- two suffixes of the same length
  have hlength : rest'.length = rest.length := by
    rw [← List.length_map Token.kind, hrest', List.length_map]
  obtain rfl : rest' = rest :=
    (List.suffix_of_suffix_length_le (suffix_of_advance hadv).1 (List.suffix_append front rest)
      hlength.le).eq_of_length hlength
  exact hadv

/-- The value and the report are those that the shape of the tokens calls for. -/
theorem Reported.read_eq (h : Reported (body ts) d messages) :
    (read ts).value = d ∧ (read ts).errors.map ReadError.message = messages := by
  have hts := body_append_remaining ts
  generalize hbody : body ts = tokens at h
  rw [hbody] at hts
  cases h with
  | nothing =>
    rw [read, advance_of_body hbody]
    exact ⟨rfl, rfl⟩
  | @form front f hfront rest =>
    rw [List.append_assoc] at hts
    have hadv := advance_front hfront (rest ++ remaining ts)
    rw [hts] at hadv
    have hleft : body (rest ++ remaining ts) = rest := by
      rw [← List.append_right_inj front, ← body_eq_append hts (suffix_of_advance hadv).2, hbody]
    rw [read, hadv]
    exact ⟨rfl, (map_message_leftovers _).trans (congrArg trailingReport hleft)⟩
  | @stray t hk rest =>
    have hleft : body (rest ++ remaining ts) = rest := by
      rw [← hts, List.cons_append, body_cons (by simp [hk])] at hbody
      exact List.tail_eq_of_cons_eq hbody
    rw [read, ← hts, List.cons_append, advance_stray _ hk]
    refine ⟨rfl, ?_⟩
    rw [List.map_cons, map_message_leftovers, hleft]
    rfl
  | unclosed levels hne hkinds =>
    have hall : ts.map Token.kind = Form.unclosed levels ++ (remaining ts).map Token.kind := by
      rw [← hkinds, ← List.map_append, hts]
    obtain ⟨rest, hrest, hadv⟩ := advance_unclosed levels hall
    have hended := (hadv []).trans (advance_of_body (body_of_map_kind hrest) _)
    rw [List.append_nil] at hended
    obtain ⟨hvalue, hmessages⟩ := read_of_ended (by simpa using hne) hended
    refine ⟨hvalue, hmessages.trans ?_⟩
    simp

/-! ### Shapes from tokens -/

theorem opened_eq_unclosed (stack : List (List Form)) :
    opened stack = Form.unclosed (stack.reverse.map List.reverse) := by
  induction stack with
  | nil => rfl
  | cons fs more ih => simp [opened, ih, Form.unclosed]

/-- Whatever the tokens are, their shape accounts for the value and the report. -/
theorem reported_read (ts : List Token) :
    Reported (body ts) (read ts).value ((read ts).errors.map ReadError.message) := by
  cases hadv : advance [] ts with
  | form d rest =>
    obtain ⟨f, rfl, hkinds⟩ := exists_form_of_advance [] hadv
    obtain ⟨⟨front, hfront⟩, hremaining⟩ := suffix_of_advance hadv
    have hform : front.map Token.kind = f.kinds := by
      rw [← List.append_left_inj (rest.map Token.kind), ← List.map_append, hfront, ← hkinds]
      rfl
    have h := Reported.form f hform (body rest)
    rw [← body_eq_append hfront hremaining, ← map_message_leftovers] at h
    rw [read, hadv]
    exact h
  | strayClose rest =>
    obtain ⟨t, rfl, hk⟩ := exists_cons_of_strayClose hadv
    have h := Reported.stray hk (body rest)
    rw [← body_cons (by simp [hk]), ← map_message_leftovers] at h
    rw [read, hadv]
    exact h
  | ended pending =>
    obtain ⟨stack, rfl, hkinds⟩ := exists_opened_of_ended [] hadv
    cases stack with
    | nil =>
      have hbody : body ts = [] := List.map_eq_nil_iff.mp hkinds
      rw [read, hadv, hbody]
      exact .nothing
    | cons fs more =>
      obtain ⟨hvalue, hmessages⟩ := read_of_ended (List.cons_ne_nil fs more) hadv
      rw [hvalue, hmessages]
      have h := Reported.unclosed ((fs :: more).reverse.map List.reverse) (by simp)
        (hkinds.trans (opened_eq_unclosed _))
      simpa [Function.comp_def] using h

/-! ### Reading on -/

theorem read_remaining (ts : List Token) : read (remaining ts) = ⟨.nil, [.endOfInput]⟩ := by
  rw [read, advance_of_body (body_remaining ts)]

/-- Every reading after the first one finds nothing. -/
theorem readings_remaining (ts : List Token) (n : Nat) :
    readings (remaining ts) n = List.replicate n ⟨.nil, [.endOfInput]⟩ := by
  induction n with
  | zero => rfl
  | succ n ih =>
    rw [readings, read_remaining, remaining_of_body (body_remaining ts), ih, List.replicate_succ]

/-- **What the reader reports.** The value and the report are those that the shape of the tokens
before the end marker calls for, and no others. Reading on, any number of times, finds nothing; and
that is what the recursive descent finds that goes on each time where it stood before. -/
theorem reports_exactly (ts : List Token) :
    (∀ d messages, (read ts).value = d ∧ (read ts).errors.map ReadError.message = messages ↔
      Reported (body ts) d messages) ∧
    ∀ n, ∃ more, readings ts (n + 1) = read ts :: more ∧
      more.map (fun r => (r.value, r.errors.map ReadError.message)) =
        List.replicate n (.nil, ["unexpected end of file"]) ∧
      ∀ fuel > 2 * ts.length, Descent.parses ts fuel 0 (n + 1) = some (read ts :: more) := by
  refine ⟨fun d messages => ⟨?_, Reported.read_eq⟩,
    fun n => ⟨readings (remaining ts) n, rfl, ?_, fun fuel hfuel => ?_⟩⟩
  · rintro ⟨rfl, rfl⟩
    exact reported_read ts
  · rw [readings_remaining, List.map_replicate]
    rfl
  · have hparses := Descent.parses_place List.suffix_rfl hfuel (n + 1)
    rwa [Nat.sub_self] at hparses

/-- Three parentheses that are never closed, the innermost with nothing after it. What lies behind
the end marker is not looked at, and reading on finds nothing. -/
theorem reports_exactly_nested :
    let ts : List Token := [⟨.leftParen, "(", ⟨1, 1⟩⟩, ⟨.word "a", "a", ⟨1, 2⟩⟩,
      ⟨.leftParen, "(", ⟨1, 4⟩⟩, ⟨.rightParen, ")", ⟨1, 5⟩⟩, ⟨.leftParen, "(", ⟨1, 7⟩⟩,
      ⟨.word "b", "b", ⟨1, 8⟩⟩, ⟨.leftParen, "(", ⟨1, 10⟩⟩, ⟨.eof, "", ⟨1, 11⟩⟩,
      ⟨.rightParen, ")", ⟨2, 1⟩⟩]
    (body ts).map Token.kind = Form.unclosed [[.word "a", .group []], [.word "b"], []] ∧
      ((read ts).value = .nil ∧ (read ts).errors.map ReadError.message =
        ["unmatched paren: ", "unmatched paren: b", "unmatched paren: ()"]) ∧
      ∃ more, Descent.parses ts 19 0 3 = some (read ts :: more) ∧
        more.map (fun r => (r.value, r.errors.map ReadError.message)) =
          [(.nil, ["unexpected end of file"]), (.nil, ["unexpected end of file"])] := by
  intro ts
  have hkinds : (body ts).map Token.kind =
      Form.unclosed [[.word "a", .group []], [.word "b"], []] := by decide
  have hword : (Datum.ofWord "b").text = "b" := by
    rw [Datum.ofWord_of_isReadable (by decide)]
    rfl
  have hreport : unmatchedReport [.word "b"] = "unmatched paren: b" := by
    change "unmatched paren: " ++ (Datum.ofWord "b").text = _
    rw [hword]
    decide
  have h := Reported.unclosed _ (by decide) hkinds
  obtain ⟨more, -, hmore, hparses⟩ := (reports_exactly ts).2 2
  refine ⟨hkinds, ((reports_exactly ts).1 _ _).mpr ?_, more, hparses 19 (by decide), hmore⟩
  rw [← hreport]
  exact h

end Reader

end FrameLisp
