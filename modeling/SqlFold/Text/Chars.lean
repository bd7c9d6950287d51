/-!
# Character classes of SQL text

The scanner tells three classes apart:

* **blank** characters (`isBlank`), the code points with the Unicode property `White_Space`;
* **word** characters (`isWordChar`), the ASCII letters, digits and the underscore;
* everything else.

Words are compared after `upperWord`, which folds the ASCII letters only.
-/

namespace SqlFold.Text

/-- The ranges of code points with the property `White_Space`, ends included. -/
def blankRanges : List (Nat × Nat) :=
  [(0x9, 0xD), (0x20, 0x20), (0x85, 0x85), (0xA0, 0xA0), (0x1680, 0x1680), (0x2000, 0x200A),
    (0x2028, 0x2029), (0x202F, 0x202F), (0x205F, 0x205F), (0x3000, 0x3000)]

/-- Whether a character separates tokens. -/
def isBlank (c : Char) : Bool :=
  blankRanges.any fun (first, last) => first ≤ c.toNat && c.toNat ≤ last

/-- Whether a character is an ASCII letter. -/
def isLetter (c : Char) : Bool := c.isAlpha

/-- Whether a character may stand inside a bare identifier. -/
def isWordChar (c : Char) : Bool := c.isAlphanum || c == '_'

/-- Whether a character may begin a bare identifier. -/
def isWordStart (c : Char) : Bool := isLetter c || c == '_'

/-- The text with its ASCII letters in upper case. -/
def upperWord (s : String) : String := s.map Char.toUpper

/-- Core's class of blanks is part of this one. -/
theorem isBlank_of_isWhitespace {c : Char} (h : c.isWhitespace = true) : isBlank c = true := by
  simp only [Char.isWhitespace, Bool.or_eq_true, decide_eq_true_eq] at h
  rcases h with ((rfl | rfl) | rfl) | rfl <;> decide

/-- A character that begins a word may also stand inside one. -/
theorem isWordChar_of_isWordStart {c : Char} (h : isWordStart c = true) : isWordChar c = true := by
  simp only [isWordStart, isLetter, isWordChar, Char.isAlphanum, Bool.or_eq_true] at h ⊢
  exact h.imp_left .inl

/-- The class has twenty-five members. -/
example : (blankRanges.map fun (first, last) => last + 1 - first).sum = 25 := by decide

end SqlFold.Text
