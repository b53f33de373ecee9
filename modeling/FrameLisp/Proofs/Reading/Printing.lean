import FrameLisp.Proofs.Reading.Words
import FrameLisp.Proofs.Value.Correspondence

/-!
# Printing and reading back

What is printed can be read again. A value that is *legible*, made of primitives, truth values,
finite numbers, readable symbols and lists of such values, is read back from its text with the same
contents. A function is printed as the `lambda` form that makes it, and that form is what is read.

Reading gives a datum, which has no identities. It becomes a value when identities are drawn for it,
and whichever they are, the value has the same contents as the one that was printed.

What was read in the first place can be printed and read again, even if the reader had to report
something and gave no more than a part of the text. That goes for all symbols, whatever characters
of Unicode they have, and for all numbers that are finite.

## Main definitions

* `Value.Legible` — values that are printed without loss

## Main results

* `Value.Legible.readable` — the datum of a legible value is readable
* `Value.IsPlain.equals_instantiate` — an instance of a value's datum has the contents of the value
* `Value.read_printed` — legible values and functions are read back
* `Reading.stable_under_printing` — what was read is printed and read back
-/

namespace FrameLisp

/-- Finite numbers are equal to themselves. -/
theorem Binary.beq_self {x : Float} (h : isFinite x) : x == x := by
  have hnan : x ≠ Float.nan := by
    rintro rfl
    exact absurd h (by decide)
  simpa using hnan

/-- The form that makes a function is readable if its parameters and its body are. -/
theorem Datum.Readable.lambda {params : List String} {body : Datum}
    (hparams : ∀ p ∈ params, isReadable p) (hbody : body.Readable) :
    (Datum.lambda params body).Readable := by
  have hlist : (Datum.list (params.map .symbol)).Readable := by
    refine .list fun d hd => ?_
    obtain ⟨p, hp, rfl⟩ := List.mem_map.mp hd
    exact .symbol (readsBack_of_isReadable (hparams p hp))
  refine .list fun d hd => ?_
  simp only [List.mem_cons, List.not_mem_nil, or_false] at hd
  rcases hd with rfl | rfl | rfl
  · exact .atom _
  · exact hlist
  · exact hbody

namespace Value

/-- Lists have the same contents if their elements have, whatever identities are drawn. -/
theorem allEqual_instantiateAll {items : List Value}
    (h : ∀ v ∈ items, ∀ n, (instantiate v.toDatum n).1.equals v) (n : ℕ) :
    allEqual (instantiateAll (toData items) n).1 items := by
  induction items generalizing n with
  | nil => rfl
  | cons v items ih =>
    obtain ⟨hv, hitems⟩ := List.forall_mem_cons.mp h
    rw [toData, instantiateAll, allEqual, Bool.and_eq_true]
    exact ⟨hv n, ih hitems _⟩

/-- **Nothing but identities is lost** when a plain value with finite numbers becomes a datum. -/
theorem IsPlain.equals_instantiate {v : Value} (hplain : v.IsPlain) (h : v.toDatum.Readable)
    (n : ℕ) : (instantiate v.toDatum n).1.equals v := by
  induction v using Value.induction generalizing n with
  | atom p => simp [toDatum, instantiate, equals]
  | symbol id name => simp [toDatum, instantiate, equals]
  | bool b => simp [toDatum, instantiate, equals]
  | number x =>
    have hx : Binary.isFinite x := by
      cases h with
      | number hx => exact hx
    simpa [toDatum, instantiate, equals] using Binary.beq_self hx
  | list id items ih =>
    have hitems : ∀ v ∈ items, v.toDatum.Readable := by
      rw [toDatum, toData_eq_map] at h
      cases h with
      | list hitems => exact List.forall_mem_map.mp hitems
    rw [toDatum, instantiate, equals]
    refine allEqual_instantiateAll (fun v hv => ?_) (n + 1)
    exact ih v hv (hplain.of_mem hv) (hitems v hv)
  | closure => exact absurd rfl (hplain _ (mem_parts_self _)).1
  | external => exact absurd rfl (hplain _ (mem_parts_self _)).2

/-- A value that is printed without loss: it is made of primitives, truth values, finite numbers,
symbols with readable names, and lists. -/
inductive Legible : Value → Prop where
  | atom (p : Primitive) : Legible (.atom p)
  | bool (b : Bool) : Legible (.bool b)
  | number {x : Float} (h : Binary.isFinite x) : Legible (.number x)
  | symbol (id : Identity) {name : String} (h : isReadable name) : Legible (.symbol id name)
  | list (id : Identity) {items : List Value} (h : ∀ v ∈ items, Legible v) :
    Legible (.list id items)

namespace Legible

variable {v : Value}

theorem readable (h : v.Legible) : v.toDatum.Readable := by
  induction h with
  | atom p => exact .atom p
  | bool b => exact .bool b
  | number h => exact .number h
  | symbol id h => exact .symbol (readsBack_of_isReadable h)
  | list id h ih =>
    rw [toDatum, toData_eq_map]
    exact .list (List.forall_mem_map.mpr ih)

theorem isPlain (h : v.Legible) : v.IsPlain := by
  induction h with
  | list id h ih =>
    intro p hp
    rcases mem_parts_list.mp hp with rfl | ⟨v, hv, hp⟩
    · simp [kind]
    · exact ih v hv p hp
  | _ => simp [IsPlain, parts, kind]

end Legible

/-- **What is printed can be read again.** The text of a legible value is read without a fault, as
the datum of the value, and with whichever identities this datum becomes a value, it has the same
contents. The text of a function with readable parameters and a legible body is read as the list
`(lambda (parameters ...) body)`. -/
theorem read_printed :
    (∀ v : Value, v.Legible →
      (Reading.ofText v.text).errors = [] ∧ (Reading.ofText v.text).value = v.toDatum ∧
        ∀ n, (instantiate (Reading.ofText v.text).value n).1.equals v) ∧
    ∀ (id : Identity) (frame : FrameId) (params : List String) (body : Value),
      (∀ p ∈ params, isReadable p) → body.Legible →
      (Reading.ofText (closure id frame params body).text).errors = [] ∧
        (Reading.ofText (closure id frame params body).text).value =
          .list [.atom (.form .lambda), .list (params.map .symbol), body.toDatum] := by
  constructor
  · intro v hv
    obtain ⟨herrors, hvalue⟩ := Reading.of_toExcept hv.readable.toExcept_text
    rw [text, hvalue]
    exact ⟨herrors, rfl, hv.isPlain.equals_instantiate hv.readable⟩
  · intro id frame params body hparams hbody
    exact Reading.of_toExcept (Datum.Readable.lambda hparams hbody.readable).toExcept_text

/-- A list of a primitive, a negative number, a list and an empty list, and a function that has this
list as its body. -/
theorem read_printed_nested :
    let v : Value := .list 0 [.atom (.builtin .sub),
      .number (Binary.toFloat true 0x3FB999999999999A), .list 1 [.bool false, .symbol 2 "x.y"],
      .list 3 []]
    let f : Value := .closure 4 0 ["x.y", "z"] v
    v.Legible ∧ (Reading.ofText v.text).errors = [] ∧
      (instantiate (Reading.ofText v.text).value 7).1.equals v ∧
      (Reading.ofText f.text).errors = [] ∧ (Reading.ofText f.text).value =
        .list [.atom (.form .lambda), .list [.symbol "x.y", .symbol "z"], v.toDatum] := by
  intro v f
  have hinner : (Value.list 1 [.bool false, .symbol 2 "x.y"]).Legible :=
    .list 1 (List.forall_mem_cons.mpr ⟨.bool _, List.forall_mem_singleton.mpr
      (.symbol 2 (by decide))⟩)
  have hv : v.Legible :=
    .list 0 (List.forall_mem_cons.mpr ⟨.atom _, List.forall_mem_cons.mpr ⟨.number (by decide),
      List.forall_mem_cons.mpr ⟨hinner, List.forall_mem_singleton.mpr
        (.list 3 (List.forall_mem_nil _))⟩⟩⟩)
  obtain ⟨hvalues, hfunctions⟩ := read_printed
  obtain ⟨herrors, -, hequals⟩ := hvalues v hv
  exact ⟨hv, herrors, hequals 7, hfunctions 4 0 ["x.y", "z"] v (by decide) hv⟩

end Value

/-! ### Printing what was read -/

/-- **Reading is stable under printing.** Whatever a text is, and whatever is reported, the symbols
in the value that is read from it read back. If every number in the text is finite, then the text
of the value is read without a fault, and gives a value with the same contents, which has the same
text again. -/
theorem Reading.stable_under_printing (s : String) :
    (∀ name, .symbol name ∈ (ofText s).value.parts → ReadsBack name) ∧
    ((∀ t ∈ Token.scan s, ∀ w x, t.kind = .word w → Datum.ofWord w = .number x →
        Binary.isFinite x) →
      ∀ n, let v := (Value.instantiate (ofText s).value n).1
        (ofText v.text).errors = [] ∧ (ofText v.text).value = (ofText s).value ∧
        ∀ m, let v' := (Value.instantiate (ofText v.text).value m).1
          v'.equals v ∧ v'.text = v.text) := by
  refine ⟨fun name hname => (word_of_symbol s name hname).1, fun hfinite n => ?_⟩
  intro v
  have hdatum : v.toDatum = (ofText s).value := Value.toDatum_instantiate _ n
  have hreadable : v.toDatum.Readable := hdatum ▸ readable_value hfinite
  obtain ⟨herrors, hvalue⟩ := of_toExcept hreadable.toExcept_text
  refine ⟨herrors, hvalue.trans hdatum, fun m => ?_⟩
  have hv : v.IsPlain := Value.isPlain_instantiate _ n
  rw [Value.text, hvalue]
  exact ⟨hv.equals_instantiate hreadable m, by rw [Value.text, Value.toDatum_instantiate]⟩

/-- A symbol with a digit of another script, one with a blank inside, a number, and tokens that are
left over. -/
theorem Reading.stable_under_printing_leftover :
    let s := "(\u0663 a\u00a0b +7. ()) ) c"
    let v := (Value.instantiate (ofText s).value 3).1
    (∀ t ∈ Token.scan s, ∀ w x, t.kind = .word w → Datum.ofWord w = .number x →
      Binary.isFinite x) ∧ (ofText s).errors ≠ [] ∧
      (ofText v.text).errors = [] ∧ (Value.instantiate (ofText v.text).value 0).1.equals v := by
  intro s v
  have hkinds : Token.kinds s.toList = [.leftParen, .word "\u0663", .word "a\u00a0b",
      .word "+7.", .leftParen, .rightParen, .rightParen, .rightParen, .word "c", .eof] := by
    simp [s, Token.kinds, Token.scanFrom, Token.isDelimiter, Token.isWordChar]
  have hsymbols : ∀ w ∈ ["\u0663", "a\u00a0b", "c"], (Datum.ofWord w).isSymbol := by decide
  have hseven : Datum.ofWord "+7." = .number (Literal.toFloat ⟨false, ⟨7, 0⟩⟩) :=
    Datum.ofWord_of_ofChars? (by decide)
  have hfinite : ∀ t ∈ Token.scan s, ∀ w x, t.kind = .word w → Datum.ofWord w = .number x →
      Binary.isFinite x := by
    intro t ht w x hw hx
    have hmem : TokenKind.word w ∈ Token.kinds s.toList := hw ▸ List.mem_map_of_mem ht
    have hwords : w = "+7." ∨ w ∈ ["\u0663", "a\u00a0b", "c"] := by
      simp only [hkinds, List.mem_cons, TokenKind.word.injEq, reduceCtorEq, List.not_mem_nil]
        at hmem ⊢
      tauto
    rcases hwords with rfl | hsymbol
    · obtain rfl := Datum.number.inj (hseven.symm.trans hx)
      decide
    · have := hsymbols w hsymbol
      simp [hx, Datum.isSymbol] at this
  have herrors : (ofText s).errors ≠ [] := by
    simp [s, ofText, Token.scan, Token.scanFrom, Token.isDelimiter, Token.isWordChar, Reader.read,
      Reader.advance, Reader.leftovers, Reader.body]
  obtain ⟨hread, -, hequals⟩ := (stable_under_printing s).2 hfinite 3
  exact ⟨hfinite, herrors, hread, (hequals 0).1⟩

end FrameLisp
