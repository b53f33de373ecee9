import FrameLisp.Proofs.Eval.Scripts
import FrameLisp.Proofs.Snapshot.Reload

/-!
# What scripts introduce can be saved, but for blanks

A snapshot writes names as words: those that are bound, and the parameters of the functions that are
bound. Scripts introduce only names that stand as words in their texts, and each of these reads
back.

Saving asks for more. A name that is saved must not contain any blank of Unicode, while words are
separated by a few blanks only, those of `Token.isDelimiter` and the end of a line. The others may
stand inside a word. So a script can bind a name that would read back and that saving refuses all
the same, and blanks inside of names are the only reason for it.

## Main definitions

* `Store.Introduces` — the names that a snapshot has to write
* `IsSpoken`, `Vocabulary.spoken` — the symbols among the words of texts

## Main results

* `isReadable_iff` — names that can be saved
* `Store.exists_save_iff` — graphs that can be saved
* `Evaluator.isSpoken_of_introduces` — scripts introduce words of their texts
* `Evaluator.save_fails_on_blanks_only` — what scripts introduce can be saved, but for blanks
* `Evaluator.save_refuses_no_break_space` — a name that reads back and cannot be saved
-/

namespace FrameLisp

/-! ### Names -/

theorem isNameBreak_iff {c : Char} (h : Token.isWordChar c) : isNameBreak c ↔ Text.isBlank c := by
  simp only [Token.isWordChar, Token.isDelimiter, Bool.not_eq_true', Bool.or_eq_false_iff] at h
  obtain ⟨⟨⟨⟨-, -, hnul⟩, hopen⟩, hclose⟩, hcomment⟩ := h
  simp [isNameBreak, hnul, hopen, hclose, hcomment]

/-- The blanks of ASCII separate words. -/
theorem Token.separates_of_isBlank {c : Char} (hascii : c.toNat < 0x80) (hblank : Text.isBlank c) :
    c = '\n' ∨ isDelimiter c := by
  simp only [Text.isBlank, Text.blankRanges, List.any_cons, List.any_nil, Bool.or_false,
    Bool.or_eq_true, Bool.and_eq_true, decide_eq_true_eq] at hblank
  simp only [isDelimiter, Bool.or_eq_true, beq_iff_eq, ← Char.toNat_inj, Char.reduceToNat]
  omega

/-- **Names that can be saved** are those that read back and contain no blank. -/
theorem isReadable_iff {name : String} :
    isReadable name ↔ ReadsBack name ∧ ∀ c ∈ name.toList, ¬ Text.isBlank c := by
  have hbreak : ReadsBack name →
      ((∀ c ∈ name.toList, ¬ isNameBreak c) ↔ ∀ c ∈ name.toList, ¬ Text.isBlank c) := fun h =>
    forall₂_congr fun c hc => not_congr (isNameBreak_iff ((readsBack_iff.mp h).1.2 c hc))
  constructor
  · intro h
    have hreads := readsBack_of_isReadable h
    simp only [isReadable, Bool.and_eq_true, Bool.not_eq_true', List.any_eq_false] at h
    exact ⟨hreads, (hbreak hreads).mp h.1.2⟩
  · rintro ⟨hreads, hblank⟩
    obtain ⟨⟨hne, -⟩, hsymbol⟩ := readsBack_iff.mp hreads
    simp only [isReadable, Bool.and_eq_true, Bool.not_eq_true', List.any_eq_false]
    exact ⟨⟨by simpa using hne, (hbreak hreads).mpr hblank⟩, Datum.isSymbol_ofWord_iff.mpr hsymbol⟩

/-! ### Graphs -/

/-- The parameters of a function. -/
def Value.params : Value → List String
  | .closure _ _ params _ => params
  | _ => []

namespace Store

variable {s : Store} {root : FrameId} {name : String}

/-- The names that a snapshot has to write: those that are bound to anything but an external
function, and the parameters of what is bound to them. -/
def Introduces (s : Store) (root : FrameId) (name : String) : Prop :=
  ∃ i ∈ s.reachable root, ∃ e ∈ (s.bindings i).entries,
    e.2.isInternal ∧ name ∈ e.1 :: e.2.params

theorem mem_names_captureEntry_iff {order : List FrameId} {e : String × Value} :
    (∃ entry ∈ captureEntry order e.1 e.2, name ∈ entry.names) ↔
      e.2.isInternal ∧ name ∈ e.1 :: e.2.params := by
  obtain ⟨n, v⟩ := e
  cases v <;>
    simp [captureEntry, Snapshot.Entry.names, Value.isInternal, Value.kind, Value.params]

theorem mem_names_capture_iff :
    (∃ b ∈ (s.capture root).blocks, ∃ entry ∈ b.entries, name ∈ entry.names) ↔
      s.Introduces root name := by
  constructor
  · rintro ⟨_, hb, entry, hentry, hname⟩
    obtain ⟨i, hi, rfl⟩ := List.mem_map.mp hb
    obtain ⟨e, he, hcapture⟩ := List.mem_filterMap.mp hentry
    exact ⟨i, hi, e, he, mem_names_captureEntry_iff.mp ⟨entry, hcapture, hname⟩⟩
  · rintro ⟨i, hi, e, he, hname⟩
    obtain ⟨entry, hcapture, hname⟩ := mem_names_captureEntry_iff.mpr hname
    exact ⟨_, List.mem_map_of_mem hi, entry, List.mem_filterMap.mpr ⟨e, he, hcapture⟩, hname⟩

/-- **Graphs that can be saved** are those that introduce only names that can be saved. -/
theorem exists_save_iff :
    (∃ text, s.save root = .ok text) ↔ ∀ name, s.Introduces root name → isReadable name := by
  constructor
  · rintro ⟨text, hsave⟩ name hname
    obtain ⟨b, hb, entry, hentry, hname⟩ := mem_names_capture_iff.mpr hname
    exact (isReadable_of_save hsave).2 b hb entry hentry name hname
  · intro h
    have hnone : (s.capture root).unreadableName? = none := by
      refine List.find?_eq_none.mpr fun name hname => ?_
      obtain ⟨b, hb, hname⟩ := List.mem_flatMap.mp hname
      obtain ⟨entry, hentry, hname⟩ := List.mem_flatMap.mp hname
      simpa using h name (mem_names_capture_iff.mp ⟨b, hb, entry, hentry, hname⟩)
    exact ⟨_, by rw [save, hnone]⟩

end Store

/-! ### Scripts -/

/-- A word of the texts that stands for a symbol. -/
def IsSpoken (texts : List String) (name : String) : Prop :=
  ReadsBack name ∧ ∃ text ∈ texts, ∃ t ∈ Token.scan text, t.kind = .word name

/-- What an evaluator can say that has executed the texts: their words, and its own frames, which
are those from number `n` on. -/
def Vocabulary.spoken (texts : List String) (n : ℕ) : Vocabulary where
  frame i := n ≤ i
  atom _ := True
  name := IsSpoken texts
  external _ := False

/-- What is spoken is made of characters of a text that do not separate words. -/
theorem IsSpoken.exists_mem_text {texts : List String} {name : String} (h : IsSpoken texts name)
    {c : Char} (hc : c ∈ name.toList) :
    (∃ text ∈ texts, c ∈ text.toList) ∧ ¬ (c = '\n' ∨ Token.isDelimiter c) := by
  obtain ⟨-, text, htext, t, ht, hword⟩ := h
  refine ⟨⟨text, htext, Token.subset_of_mem_scanFrom ht hword hc⟩, fun hseparates => ?_⟩
  have hchar := (Token.isWord_of_mem_scanFrom ht hword).2 c hc
  rcases hseparates with rfl | hdelimiter
  · exact absurd hchar (by decide)
  · simp [Token.isWordChar, hdelimiter] at hchar

namespace Evaluator

variable {σ : Type} {trace : Bool} {e : Evaluator} {m₀ m : Machine σ}

/-- **Scripts introduce words of their texts.** -/
theorem isSpoken_of_introduces (h : Evaluator.new trace m₀ = .ok e m) (host : Host σ) (depth : ℕ)
    (texts : List String) {name : String}
    (hname : (machineAfterTexts host depth e.root texts m).store.Introduces e.root name) :
    IsSpoken texts name := by
  obtain ⟨-, hgoverns, hbinds⟩ := governs_of_texts (d := .spoken texts e.root) h host depth
    (fun _ => Iff.rfl) (fun _ => trivial) (fun _ hr => hr) fun text htext f hf name hname =>
      (Reading.exists_word_of_symbol hf name hname).imp_right fun hword => ⟨text, htext, hword⟩
  obtain ⟨i, hi, b, hb, -, hname⟩ := hname
  obtain ⟨j, hj, hreaches⟩ := Store.reaches_of_mem_discover hi
  rw [List.mem_singleton.mp hj] at hreaches
  have hframe := hgoverns.frame_of_reaches (le_refl e.root) hreaches
  rcases List.mem_cons.mp hname with rfl | hparam
  · exact hbinds i hframe b hb
  · have hallows := (hgoverns i hframe).1 b hb
    obtain ⟨n, v⟩ := b
    cases v with
    | closure id frame params body => exact (hallows _ List.mem_cons_self).2 name hparam
    | _ => cases hparam

/-- **What scripts introduce can be saved, but for blanks.** Let a new evaluator execute any texts,
whether they fail or not. The names it has then introduced are words of the texts, and read back.
The evaluator can be saved exactly if none of them contains a blank. So it can be saved whenever all
blanks of the texts separate words. -/
theorem save_fails_on_blanks_only (h : Evaluator.new trace m₀ = .ok e m) (host : Host σ)
    (depth : ℕ) (texts : List String) :
    let m' := machineAfterTexts host depth e.root texts m
    (∀ name, m'.store.Introduces e.root name →
      ReadsBack name ∧ ∃ text ∈ texts, ∃ t ∈ Token.scan text, t.kind = .word name) ∧
    ((∃ text, e.save m' = .ok text m') ↔
      ∀ name, m'.store.Introduces e.root name → ∀ c ∈ name.toList, ¬ Text.isBlank c) ∧
    ((∀ text ∈ texts, ∀ c ∈ text.toList, Text.isBlank c → c = '\n' ∨ Token.isDelimiter c) →
      ∃ text, e.save m' = .ok text m') := by
  intro m'
  have hspoken : ∀ name, m'.store.Introduces e.root name → IsSpoken texts name :=
    fun name => isSpoken_of_introduces h host depth texts
  have hsave : (∃ text, e.save m' = .ok text m') ↔
      ∀ name, m'.store.Introduces e.root name → ∀ c ∈ name.toList, ¬ Text.isBlank c :=
    calc (∃ text, e.save m' = .ok text m')
        ↔ ∃ text, m'.store.save e.root = .ok text :=
          exists_congr fun text => ⟨fun h => (save_eq_ok h).1, save_of_store_save⟩
      _ ↔ ∀ name, m'.store.Introduces e.root name → isReadable name := Store.exists_save_iff
      _ ↔ _ := forall₂_congr fun name hname =>
          isReadable_iff.trans (and_iff_right (hspoken name hname).1)
  refine ⟨hspoken, hsave, fun htexts => hsave.mpr fun name hname c hc hblank => ?_⟩
  obtain ⟨⟨text, htext, hmem⟩, hinside⟩ := (hspoken name hname).exists_mem_text hc
  exact hinside (htexts text htext c hmem hblank)

/-- Texts that define a function over several lines, fail to be read, and fail to be evaluated. -/
theorem save_fails_on_blanks_only_function :
    let texts := ["(define keep\n  (lambda (x y)\tx))", "(define", "(keep on on)"]
    ∃ (e : Evaluator) (m : Machine Unit), Evaluator.new false ⟨.empty, 0, ()⟩ = .ok e m ∧
      (∀ text ∈ texts, ∀ c ∈ text.toList, Text.isBlank c → c = '\n' ∨ Token.isDelimiter c) ∧
      ∃ text, e.save (machineAfterTexts .empty 9 e.root texts m) =
        .ok text (machineAfterTexts .empty 9 e.root texts m) := by
  intro texts
  have hnew : Evaluator.new false (⟨.empty, 0, ()⟩ : Machine Unit) =
      .ok ⟨0, false⟩ ⟨⟨#[⟨∅, none⟩]⟩, 0, ()⟩ := rfl
  have hascii : ∀ text ∈ texts, ∀ c ∈ text.toList, c.toNat < 0x80 := by simp [texts]
  have hblanks : ∀ text ∈ texts, ∀ c ∈ text.toList, Text.isBlank c →
      c = '\n' ∨ Token.isDelimiter c :=
    fun text htext c hc => Token.separates_of_isBlank (hascii text htext c hc)
  exact ⟨_, _, hnew, hblanks, (save_fails_on_blanks_only hnew .empty 9 texts).2.2 hblanks⟩

/-- **A name that reads back and cannot be saved.** It contains a no-break space, which does not
separate words. -/
theorem save_refuses_no_break_space :
    let name := "a\u00a0b"
    ∃ (e : Evaluator) (m : Machine Unit), Evaluator.new false ⟨.empty, 0, ()⟩ = .ok e m ∧
      ReadsBack name ∧ ¬ isReadable name ∧
      ∃ m', execute .empty 9 e.root "(define a\u00a0b #t)" m = .ok (.bool true) m' ∧
        m'.store.lookup e.root name = some (.bool true) ∧
        e.save m' = .error (.failed (.unsavableName name)) m' := by
  intro name
  have hread : (Reading.ofText "(define a\u00a0b #t)").toExcept =
      .ok (.list [.atom (.form .define), .symbol name, .bool true]) := by
    have hreadable : Datum.Readable (.list [.atom (.form .define), .symbol name, .bool true]) := by
      decide
    exact hreadable.toExcept_text
  let m : Machine Unit := ⟨⟨#[⟨∅, none⟩]⟩, 0, ()⟩
  let m' : Machine Unit := ⟨m.store.define 0 name (.bool true), 2, ()⟩
  have hexecute : execute .empty 9 0 "(define a\u00a0b #t)" m = .ok (.bool true) m' := by
    rw [execute, hread]
    rfl
  have hsave : m'.store.save 0 = .error (.unsavableName name) := by
    have hunreadable :
        Snapshot.unreadableName? ⟨[0].map (m'.store.captureBlock [0])⟩ = some name := by
      decide
    rw [Store.save, Store.capture, Store.reachable_of_size_eq_one rfl, hunreadable]
  refine ⟨⟨0, false⟩, m, rfl, by decide, by decide, m', hexecute, rfl, ?_⟩
  change (EvalM.ofExcept (m'.store.save 0) : EvalM Unit String) m' = _
  rw [hsave]
  rfl

end Evaluator

end FrameLisp
