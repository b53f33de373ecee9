import FrameLisp.Proofs.Reading.Forms

/-!
# Balanced tokens

The reader reports nothing exactly if the tokens before the end marker are those of one form, and
then it has read the value of that form.

One direction is `Reader.advance_form`. For the other one, the tokens that have been read are
recovered from the stack: each open list stands for a parenthesis and the tokens of the forms after
it. Reading a token adds that token and nothing else, so when the last list is closed, what has been
read are the tokens of a form. If the end comes first, they are the tokens of the lists still open.

What happens inside a list does not depend on the lists around it. The reader can thus be described
one list at a time, although it keeps them all on one stack.

## Main definitions

* `Reader.opened` — the tokens that lead to a stack of open lists
* `Reader.Accounts` — an outcome that accounts for all tokens

## Main results

* `Reader.accounts_advance` — what has been read are the tokens of a form, or of open lists
* `Reader.read_eq_ok_iff` — the readings without a fault
* `Reader.advance_append_form`, `Reader.advance_append_ended` — the lists around play no part
-/

namespace FrameLisp

mutual

theorem Form.eof_notMem_kinds : ∀ f : Form, .eof ∉ f.kinds
  | .word w => by simp [kinds]
  | .group fs => by simpa [kinds] using Form.eof_notMem_kindsOf fs

theorem Form.eof_notMem_kindsOf : ∀ fs : List Form, .eof ∉ kindsOf fs
  | [] => List.not_mem_nil
  | f :: fs => by
    rw [kindsOf, List.mem_append, not_or]
    exact ⟨Form.eof_notMem_kinds f, Form.eof_notMem_kindsOf fs⟩

end

theorem Form.kindsOf_append (fs gs : List Form) :
    kindsOf (fs ++ gs) = kindsOf fs ++ kindsOf gs := by
  induction fs with
  | nil => rfl
  | cons f fs ih => rw [List.cons_append, kindsOf, kindsOf, ih, List.append_assoc]

namespace Reader

variable {t : Token} {ts rest : List Token} {d : Datum}

/-! ### Up to the end marker -/

theorem body_append_remaining (ts : List Token) : body ts ++ remaining ts = ts :=
  List.takeWhile_append_dropWhile

/-- Where the body ends is a matter of the kinds of the tokens. -/
theorem map_kind_body (ts : List Token) :
    (body ts).map Token.kind = (ts.map Token.kind).takeWhile (· != .eof) := by
  rw [List.takeWhile_map]
  rfl

/-- An end marker, or the end of the tokens, follows the body. -/
theorem body_remaining (ts : List Token) : body (remaining ts) = [] := by
  cases h : remaining ts with
  | nil => rfl
  | cons t rest =>
    have ht := List.head?_dropWhile_not (·.kind != .eof) ts
    rw [← remaining, h] at ht
    exact List.takeWhile_cons_of_neg (by simpa using ht)

theorem body_cons (h : t.kind ≠ .eof) (ts : List Token) : body (t :: ts) = t :: body ts :=
  List.takeWhile_cons_of_pos (bne_iff_ne.mpr h)

theorem remaining_cons (h : t.kind ≠ .eof) (ts : List Token) :
    remaining (t :: ts) = remaining ts :=
  List.dropWhile_cons_of_pos (bne_iff_ne.mpr h)

theorem remaining_of_body (h : body ts = []) : remaining ts = ts := by
  rw [← List.nil_append (remaining ts), ← h, body_append_remaining]

theorem remaining_suffix (ts : List Token) : remaining ts <:+ ts := List.dropWhile_suffix _

/-- Where the tokens end, nothing more is read. -/
theorem advance_of_body (h : body ts = []) (pending : List (List Datum)) :
    advance pending ts = .ended pending := by
  cases ts with
  | nil => rfl
  | cons t ts =>
    refine advance_eof ts ?_ _
    by_contra hk
    simp [body, hk] at h

/-- Tokens of the kinds that follow a body have no body themselves. -/
theorem body_of_map_kind (h : rest.map Token.kind = (remaining ts).map Token.kind) :
    body rest = [] := by
  rw [← List.map_eq_nil_iff (f := Token.kind), map_kind_body, h, ← map_kind_body, body_remaining,
    List.map_nil]

theorem leftovers_eq_nil_iff : leftovers ts = [] ↔ body ts = [] := by
  rw [leftovers]
  split
  next h => simp [h]
  next h => simpa using h

/-- A form at the beginning belongs to the body. -/
theorem map_kind_body_of_form {f : Form} (h : ts.map Token.kind = f.kinds ++ rest.map Token.kind) :
    (body ts).map Token.kind = f.kinds ++ (body rest).map Token.kind := by
  have hkinds : ∀ k ∈ f.kinds, (k != TokenKind.eof) = true := fun k hk =>
    bne_iff_ne.mpr fun heq => f.eof_notMem_kinds (heq ▸ hk)
  rw [map_kind_body, map_kind_body, h, List.takeWhile_append_of_pos hkinds]

/-! ### Forms from tokens -/

/-- The tokens that lead to the given open lists, innermost list first and each in reverse. -/
def opened : List (List Form) → List TokenKind
  | [] => []
  | fs :: more => opened more ++ .leftParen :: Form.kindsOf fs.reverse

theorem opened_cons (f : Form) (fs : List Form) (more : List (List Form)) :
    opened ((f :: fs) :: more) = opened (fs :: more) ++ f.kinds := by
  simp [opened, Form.kindsOf_append, Form.kindsOf]

/-- Closing a list adds the parenthesis. -/
theorem opened_group (fs : List Form) (outer : List Form) (more : List (List Form)) :
    opened ((.group fs.reverse :: outer) :: more) =
      opened (fs :: outer :: more) ++ [.rightParen] := by
  rw [opened_cons, Form.kinds]
  simp [opened]

/-- The values of the forms in open lists. -/
def pendingValues (stack : List (List Form)) : List (List Datum) := stack.map (·.map Form.value)

theorem value_group_reverse (fs : List Form) :
    (Form.group fs.reverse).value = .list (fs.map Form.value).reverse := by
  rw [Form.value, Form.values_eq_map, List.map_reverse]

/-- An outcome accounts for all tokens: those that have been read, of the given kinds, and those
that follow. -/
def Accounts (ks : List TokenKind) (ts : List Token) : ReadOutcome → Prop
  | .form d rest =>
    ∃ f : Form, f.value = d ∧ ks ++ ts.map Token.kind = f.kinds ++ rest.map Token.kind
  | .strayClose rest => ks ++ ts.map Token.kind = .rightParen :: rest.map Token.kind
  | .ended pending =>
    ∃ stack, pendingValues stack = pending ∧ ks ++ (body ts).map Token.kind = opened stack

/-- Each step moves the kind of a token to those that have been read. -/
theorem Accounts.cons {ks : List TokenKind} {o : ReadOutcome} (ht : t.kind ≠ .eof)
    (h : Accounts (ks ++ [t.kind]) ts o) : Accounts ks (t :: ts) o := by
  cases o with
  | form => simpa [Accounts] using h
  | strayClose => simpa [Accounts] using h
  | ended => simpa [Accounts, body_cons ht] using h

/-- **The outcome accounts for the tokens.** -/
theorem accounts_advance (stack : List (List Form)) (ts : List Token) :
    Accounts (opened stack) ts (advance (pendingValues stack) ts) := by
  induction ts generalizing stack with
  | nil => exact ⟨stack, rfl, List.append_nil _⟩
  | cons t ts ih =>
    cases hk : t.kind with
    | eof =>
      rw [advance_eof ts hk]
      exact ⟨stack, rfl, by simp [body, hk]⟩
    | leftParen =>
      rw [advance_open ts hk]
      refine .cons (by simp [hk]) ?_
      rw [hk]
      exact ih ([] :: stack)
    | rightParen =>
      cases stack with
      | nil =>
        rw [pendingValues, List.map_nil, advance_stray ts hk]
        exact congrArg (· :: ts.map Token.kind) hk
      | cons fs more =>
        cases more with
        | nil =>
          rw [pendingValues, List.map_cons, List.map_nil, advance_close_last ts hk,
            ← value_group_reverse]
          exact ⟨.group fs.reverse, rfl, by simp [opened, hk, Form.kinds]⟩
        | cons outer more =>
          rw [pendingValues, List.map_cons, List.map_cons, advance_close ts hk,
            ← value_group_reverse]
          refine .cons (by simp [hk]) ?_
          rw [hk, ← opened_group]
          exact ih ((.group fs.reverse :: outer) :: more)
    | word w =>
      cases stack with
      | nil =>
        rw [pendingValues, List.map_nil, advance_word_last ts hk]
        exact ⟨.word w, rfl, by simp [opened, hk, Form.kinds]⟩
      | cons fs more =>
        rw [pendingValues, List.map_cons, advance_word ts hk]
        refine .cons (by simp [hk]) ?_
        rw [hk, ← Form.kinds, ← opened_cons]
        exact ih ((.word w :: fs) :: more)

/-- What has been read are the tokens of a form. -/
theorem exists_form_of_advance (stack : List (List Form))
    (h : advance (pendingValues stack) ts = .form d rest) :
    ∃ f : Form, f.value = d ∧
      opened stack ++ ts.map Token.kind = f.kinds ++ rest.map Token.kind := by
  have haccounts := accounts_advance stack ts
  rwa [h] at haccounts

/-- At the end, what has been read are the tokens of the lists that are still open. -/
theorem exists_opened_of_ended {pending : List (List Datum)} (stack : List (List Form))
    (h : advance (pendingValues stack) ts = .ended pending) :
    ∃ stack', pendingValues stack' = pending ∧
      opened stack ++ (body ts).map Token.kind = opened stack' := by
  have haccounts := accounts_advance stack ts
  rwa [h] at haccounts

/-- A form is completed, with nothing after it, exactly if the body consists of its tokens. -/
theorem advance_eq_form_iff :
    (∃ rest, advance [] ts = .form d rest ∧ body rest = []) ↔
      ∃ f : Form, (body ts).map Token.kind = f.kinds ∧ f.value = d := by
  constructor
  · rintro ⟨rest, hadv, hrest⟩
    obtain ⟨f, hvalue, hkinds⟩ := exists_form_of_advance [] hadv
    refine ⟨f, ?_, hvalue⟩
    rw [map_kind_body_of_form hkinds, hrest, List.map_nil, List.append_nil]
  · rintro ⟨f, hkinds, rfl⟩
    have hts : ts.map Token.kind = f.kinds ++ (remaining ts).map Token.kind := by
      rw [← hkinds, ← List.map_append, body_append_remaining]
    obtain ⟨rest, hrest, hadv, -⟩ := advance_form f hts
    exact ⟨rest, hadv, body_of_map_kind hrest⟩

/-- **The readings without a fault** are those of one complete form. -/
theorem read_eq_ok_iff : read ts = ⟨d, []⟩ ↔
    ∃ f : Form, (body ts).map Token.kind = f.kinds ∧ f.value = d := by
  rw [← advance_eq_form_iff, read]
  constructor
  · intro h
    split at h
    next value rest hadv =>
      obtain ⟨rfl, hrest⟩ := Reading.mk.inj h
      exact ⟨rest, hadv, leftovers_eq_nil_iff.mp hrest⟩
    next => cases h
    next => cases h
    next pending hne hadv =>
      cases pending with
      | nil => exact absurd rfl hne
      | cons items more => cases h
  · rintro ⟨rest, hadv, hrest⟩
    rw [hadv]
    exact congrArg (Reading.mk d) (leftovers_eq_nil_iff.mpr hrest)

/-! ### One list at a time -/

variable {inner pending : List (List Datum)}

/-- A list that is completed is handed to the list around it, whatever else is open. -/
theorem advance_append_form (hinner : inner ≠ []) (h : advance inner ts = .form d rest)
    (items : List Datum) (outer : List (List Datum)) :
    advance (inner ++ items :: outer) ts = advance ((d :: items) :: outer) rest := by
  fun_induction advance inner ts with
  | case1 => cases h
  | case2 => cases h
  | case3 pending t ts hk ih =>
    rw [advance_open ts hk]
    exact ih (List.cons_ne_nil _ _) h
  | case4 => exact absurd rfl hinner
  | case5 t ts last hk =>
    cases h
    exact advance_close _ hk last items outer
  | case6 t ts last next more hk ih =>
    refine (advance_close ts hk last next (more ++ items :: outer)).trans ?_
    exact ih (List.cons_ne_nil _ _) h
  | case7 => exact absurd rfl hinner
  | case8 t ts w last more hk ih =>
    refine (advance_word ts hk last (more ++ items :: outer)).trans ?_
    exact ih (List.cons_ne_nil _ _) h

/-- Lists that are never closed leave those around them open as well. -/
theorem advance_append_ended (h : advance inner ts = .ended pending)
    (outer : List (List Datum)) : advance (inner ++ outer) ts = .ended (pending ++ outer) := by
  fun_induction advance inner ts with
  | case1 => cases h; rfl
  | case2 inner t ts hk =>
    cases h
    exact advance_eof ts hk _
  | case3 inner t ts hk ih =>
    rw [advance_open ts hk]
    exact ih h
  | case4 => cases h
  | case5 => cases h
  | case6 t ts last next more hk ih =>
    refine (advance_close ts hk last next (more ++ outer)).trans ?_
    exact ih h
  | case7 => cases h
  | case8 t ts w last more hk ih =>
    refine (advance_word ts hk last (more ++ outer)).trans ?_
    exact ih h

/-- What is left after a form is a suffix, and no end marker has been passed. -/
theorem suffix_of_advance (h : advance pending ts = .form d rest) :
    rest <:+ ts ∧ remaining rest = remaining ts := by
  -- `t` is passed over, and is not an end marker
  have hstep : ∀ {t : Token} {ts : List Token}, t.kind ≠ .eof →
      rest <:+ ts ∧ remaining rest = remaining ts →
      rest <:+ t :: ts ∧ remaining rest = remaining (t :: ts) := fun hk h =>
    ⟨h.1.trans (List.suffix_cons _ _), h.2.trans (remaining_cons hk _).symm⟩
  fun_induction advance pending ts with
  | case1 => cases h
  | case2 => cases h
  | case3 pending t ts hk ih => exact hstep (by simp [hk]) (ih h)
  | case4 => cases h
  | case5 t ts items hk =>
    cases h
    exact hstep (by simp [hk]) ⟨List.suffix_rfl, rfl⟩
  | case6 t ts items outer more hk ih => exact hstep (by simp [hk]) (ih h)
  | case7 t ts w hk =>
    cases h
    exact hstep (by simp [hk]) ⟨List.suffix_rfl, rfl⟩
  | case8 t ts w items more hk ih => exact hstep (by simp [hk]) (ih h)

/-- With a list open, the outcome is a form, or there are lists that are never closed. -/
theorem advance_open_cases (items : List Datum) (more : List (List Datum)) (ts : List Token) :
    (∃ d rest, advance (items :: more) ts = .form d rest) ∨
      ∃ inner pending, advance (items :: more) ts = .ended (inner :: pending) := by
  induction ts generalizing items more with
  | nil => exact .inr ⟨items, more, rfl⟩
  | cons t ts ih =>
    cases hk : t.kind with
    | eof => exact .inr ⟨items, more, advance_eof ts hk _⟩
    | leftParen => rw [advance_open ts hk]; exact ih _ _
    | word w => rw [advance_word ts hk]; exact ih _ _
    | rightParen =>
      cases more with
      | nil => exact .inl ⟨_, ts, advance_close_last ts hk items⟩
      | cons outer more => rw [advance_close ts hk]; exact ih _ _

/-- A parenthesis is stray only if it comes first. -/
theorem exists_cons_of_strayClose (h : advance [] ts = .strayClose rest) :
    ∃ t, ts = t :: rest ∧ t.kind = .rightParen := by
  cases ts with
  | nil => cases h
  | cons t ts =>
    cases hk : t.kind with
    | eof => rw [advance_eof ts hk] at h; cases h
    | word w => rw [advance_word_last ts hk] at h; cases h
    | rightParen =>
      rw [advance_stray ts hk] at h
      cases h
      exact ⟨t, rfl, hk⟩
    | leftParen =>
      rw [advance_open ts hk] at h
      rcases advance_open_cases [] [] ts with ⟨d, rest, hadv⟩ | ⟨inner, pending, hadv⟩ <;>
        exact nomatch h.symm.trans hadv

end Reader

end FrameLisp
