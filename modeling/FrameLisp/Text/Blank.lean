/-!
# Blank characters

The characters with the Unicode property `White_Space`, and the two cuts the console makes with
them: trimming a line, and splitting a line into its first word and the rest.

The scanner has a narrower notion of its own (`Token.isDelimiter`); the wider one here decides
which names may be written into a snapshot.

## Main definitions

* `Text.isBlank` — membership in `White_Space`
* `Text.trim` — drop blanks at both ends
* `Text.splitFirst` — the first word and what follows it
-/

namespace FrameLisp

namespace Text

/-- The code point ranges of the property `White_Space`, in increasing order. -/
def blankRanges : List (Nat × Nat) :=
  [(0x09, 0x0D), (0x20, 0x20), (0x85, 0x85), (0xA0, 0xA0), (0x1680, 0x1680), (0x2000, 0x200A),
    (0x2028, 0x2029), (0x202F, 0x202F), (0x205F, 0x205F), (0x3000, 0x3000)]

/-- `c` has the property `White_Space`. -/
def isBlank (c : Char) : Bool := blankRanges.any fun r => r.1 ≤ c.toNat && c.toNat ≤ r.2

/-- Every blank of the ASCII class is blank here. -/
theorem isBlank_of_isWhitespace {c : Char} (h : c.isWhitespace) : isBlank c := by
  simp only [Char.isWhitespace, Bool.or_eq_true, decide_eq_true_eq] at h
  rcases h with ((rfl | rfl) | rfl) | rfl <;> decide

/-- Drop blanks at both ends. -/
def trimChars (cs : List Char) : List Char :=
  ((cs.dropWhile isBlank).reverse.dropWhile isBlank).reverse

/-- Drop blanks at both ends. -/
def trim (s : String) : String := String.ofList (trimChars s.toList)

/-- The first word of a trimmed line, and the trimmed remainder after the blank that ends it. A
line without a blank is all first word. -/
def splitFirst (s : String) : String × String :=
  let cs := s.toList
  (String.ofList (cs.takeWhile (!isBlank ·)),
    String.ofList (trimChars (cs.dropWhile (!isBlank ·))))

end Text

end FrameLisp
