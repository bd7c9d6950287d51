import SqlFold.Text.Shapeless

/-!
# Text shown between quotes

`Shown.enclose` shows a text on one line between double quotes, so that every character can be seen:

* the quote and the backslash stand behind a backslash, as do the letters for a newline, a return, a
  tab and the character zero;
* a character without a shape of its own is shown by its code in braces;
* every other character is shown as it is.
-/

namespace SqlFold.Text.Shown

/-- A character as it is shown. -/
def escapeChar (c : Char) : List Char :=
  if c = '"' ∨ c = '\\' then ['\\', c]
  else if c = '\n' then ['\\', 'n']
  else if c = '\r' then ['\\', 'r']
  else if c = '\t' then ['\\', 't']
  else if c.toNat = 0 then ['\\', '0']
  else if isShapeless c then "\\u\x7b".toList ++ Nat.toDigits 16 c.toNat ++ ['\x7d']
  else [c]

/-- A text as it is shown. -/
def enclose (s : String) : String := String.ofList ('"' :: s.toList.flatMap escapeChar ++ ['"'])

end SqlFold.Text.Shown
