import FrameLisp.Proofs.Reading.Report
import FrameLisp.Proofs.Value.Parts

/-!
# What reading produces

Whatever the tokens are, and whether or not anything is reported, the value that is read is the
empty list or that of a form, and a form is made of words among the tokens. So a property of data
that lists inherit from their elements holds of all that is read, if it holds of what the words
stand for.

Words that the scanner finds are words in the sense of `Token.IsWord`. So each symbol that was read
is a word of the text and reads back, and if no number is infinite, then all that was read is
readable.

## Main definitions

* `Datum.NamesReadBack` — a datum with symbols that read back

## Main results

* `Reader.read_of_words` — what is read is made of words
* `Reading.word_of_symbol`, `Reading.namesReadBack` — symbols that were read are words of the text
  and read back
* `Reading.readable_value` — what is read from a text with finite numbers is readable
-/

namespace FrameLisp

/-! ### Values from words -/

namespace Form

variable {P : Datum → Prop}

mutual

/-- What lists inherit from their elements, a form has from its words. -/
theorem value_of_words (hlist : ∀ items, (∀ d ∈ items, P d) → P (.list items)) :
    ∀ f : Form, (∀ w, .word w ∈ f.kinds → P (.ofWord w)) → P f.value
  | .word w, h => h w (by simp [kinds])
  | .group fs, h => hlist _ (values_of_words hlist fs fun w hw => h w (by simp [kinds, hw]))

theorem values_of_words (hlist : ∀ items, (∀ d ∈ items, P d) → P (.list items)) :
    ∀ fs : List Form, (∀ w, .word w ∈ kindsOf fs → P (.ofWord w)) → ∀ d ∈ values fs, P d
  | [], _ => List.forall_mem_nil _
  | f :: fs, h => by
    rw [values, List.forall_mem_cons]
    simp only [kindsOf, List.mem_append] at h
    exact ⟨value_of_words hlist f fun w hw => h w (.inl hw),
      values_of_words hlist fs fun w hw => h w (.inr hw)⟩

end

end Form

/-- **What is read is made of words.** A property that lists inherit from their elements holds of
the value that is read, if it holds of what the words among the tokens stand for. -/
theorem Reader.read_of_words {P : Datum → Prop}
    (hlist : ∀ items, (∀ d ∈ items, P d) → P (.list items)) {ts : List Token}
    (hword : ∀ t ∈ ts, ∀ w, t.kind = .word w → P (.ofWord w)) : P (read ts).value := by
  have hnil : P .nil := hlist [] (List.forall_mem_nil _)
  have hbody : ∀ t ∈ body ts, t ∈ ts := fun t ht => (List.takeWhile_sublist _).subset ht
  have hreported := reported_read ts
  generalize body ts = tokens at hbody hreported
  generalize (read ts).value = d, (read ts).errors.map ReadError.message = messages at hreported ⊢
  cases hreported with
  | nothing => exact hnil
  | stray => exact hnil
  | unclosed => exact hnil
  | form f hfront rest =>
    refine f.value_of_words hlist fun w hw => ?_
    obtain ⟨t, ht, hk⟩ := List.mem_map.mp (hfront ▸ hw)
    exact hword t (hbody t (List.mem_append_left rest ht)) w hk

/-- A reading without faults has the value that it was read as. -/
theorem Reading.of_toExcept {r : Reading} {d : Datum} (h : r.toExcept = .ok d) :
    r.errors = [] ∧ r.value = d := by
  rw [toExcept] at h
  split at h
  next hok => exact ⟨List.isEmpty_iff.mp hok, Except.ok.inj h⟩
  next => cases h

/-! ### Symbols -/

namespace Datum

/-- The symbols in a datum read back. -/
def NamesReadBack (d : Datum) : Prop := ∀ name, .symbol name ∈ d.parts → ReadsBack name

/-- Symbols in a list are symbols in its elements. -/
theorem forall_symbol_list {P : String → Prop} {items : List Datum}
    (h : ∀ d ∈ items, ∀ name, .symbol name ∈ d.parts → P name) :
    ∀ name, .symbol name ∈ (list items).parts → P name := by
  intro name hname
  rcases mem_parts_list.mp hname with heq | ⟨d, hd, hpart⟩
  · cases heq
  · exact h d hd name hpart

theorem ofWord_ne_list (w : String) (items : List Datum) : ofWord w ≠ .list items := by
  rw [ofWord]
  grind

theorem forall_symbol_ofWord {P : String → Prop} {w : String}
    (h : ofWord w = .symbol w → P w) : ∀ name, .symbol name ∈ (ofWord w).parts → P name := by
  intro name hname
  cases hd : ofWord w with
  | symbol n =>
    obtain rfl := ofWord_eq_symbol hd
    obtain rfl : name = w := by simpa [hd, parts] using hname
    exact h hd
  | list items => exact absurd hd (ofWord_ne_list w items)
  | _ => simp [hd, parts] at hname

end Datum

namespace Reading

variable {s : String}

/-- **Symbols that were read are words of the text,** whatever was reported. -/
theorem word_of_symbol (s : String) : ∀ name, .symbol name ∈ (ofText s).value.parts →
    ReadsBack name ∧ ∃ t ∈ Token.scan s, t.kind = .word name := by
  refine Reader.read_of_words (P := fun d => ∀ name, .symbol name ∈ d.parts → ReadsBack name ∧
    ∃ t ∈ Token.scan s, t.kind = .word name) (fun _ => Datum.forall_symbol_list) ?_
  intro t ht w hw
  refine Datum.forall_symbol_ofWord fun hsymbol => ⟨?_, t, ht, hw⟩
  exact readsBack_iff.mpr ⟨Token.isWord_of_mem_scanFrom ht hw, hsymbol⟩

theorem exists_word_of_symbol {d : Datum} (h : (ofText s).toExcept = .ok d) :
    ∀ name, .symbol name ∈ d.parts →
      ReadsBack name ∧ ∃ t ∈ Token.scan s, t.kind = .word name := by
  obtain rfl := (of_toExcept h).2
  exact word_of_symbol s

/-- **Symbols that were read read back.** -/
theorem namesReadBack {d : Datum} (h : (ofText s).toExcept = .ok d) : d.NamesReadBack :=
  fun name hname => (exists_word_of_symbol h name hname).1

end Reading

/-! ### Readable data -/

/-- A word stands for something readable, unless it stands for a number that is not finite. -/
theorem Datum.readable_ofWord {w : String} (hword : Token.IsWord w)
    (hfinite : ∀ x, ofWord w = .number x → Binary.isFinite x) : (ofWord w).Readable := by
  cases hd : ofWord w with
  | atom p => exact .atom p
  | bool b => exact .bool b
  | number x => exact .number (hfinite x hd)
  | symbol name =>
    obtain rfl := ofWord_eq_symbol hd
    exact .symbol (readsBack_iff.mpr ⟨hword, hd⟩)
  | list items => exact absurd hd (ofWord_ne_list w items)

/-- **What is read is readable,** if the numbers in the text are finite. -/
theorem Reading.readable_value {s : String} (hfinite : ∀ t ∈ Token.scan s, ∀ w x,
    t.kind = .word w → Datum.ofWord w = .number x → Binary.isFinite x) :
    (ofText s).value.Readable := by
  refine Reader.read_of_words (fun _ => .list) fun t ht w hw => ?_
  exact Datum.readable_ofWord (Token.isWord_of_mem_scanFrom ht hw) fun x => hfinite t ht w x hw

end FrameLisp
