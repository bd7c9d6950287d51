/-!
# Quoted text

A quoted text starts and ends with its quote. Inside, a quote is written twice, and where the
backslash is an escape it takes the character after it with it.

* `closing quote escapes body` is the number of characters up to and including the quote that
  closes the text whose opening quote stands right before `body`;
* `enclose` and `inner` write and read names between quotes, without backslash escapes.
-/

namespace SqlFold.Text.Quoted

/-- The number of characters up to and including the closing quote. -/
def closing (quote : Char) (escapes : Bool) : List Char → Option Nat
  | [] => none
  | [c] => if escapes && c == '\\' then none else if c = quote then some 1 else none
  | c :: d :: rest =>
    if escapes && c == '\\' then (closing quote escapes rest).map (· + 2)
    else if c = quote then
      if d = quote then (closing quote escapes rest).map (· + 2) else some 1
    else (closing quote escapes (d :: rest)).map (· + 1)

/-- The text with every quote written twice. -/
def double (quote : Char) : List Char → List Char
  | [] => []
  | c :: rest => if c = quote then quote :: quote :: double quote rest else c :: double quote rest

/-- The text with every pair of quotes, read from the left, written once. -/
def undouble (quote : Char) : List Char → List Char
  | [] => []
  | [c] => [c]
  | c :: d :: rest =>
    if c = quote ∧ d = quote then quote :: undouble quote rest else c :: undouble quote (d :: rest)

/-- The text between quotes, its own quotes doubled. -/
def enclose (quote : Char) (cs : List Char) : List Char := quote :: double quote cs ++ [quote]

/-- The text without its first and last character, pairs of quotes written once. -/
def inner (quote : Char) (cs : List Char) : List Char := undouble quote (cs.drop 1).dropLast

/-- A closing quote lies within the text. -/
theorem closing_le_length {quote : Char} {escapes : Bool} {cs : List Char} {n : Nat}
    (h : closing quote escapes cs = some n) : 0 < n ∧ n ≤ cs.length := by
  fun_induction closing quote escapes cs generalizing n <;> simp_all <;> grind

end SqlFold.Text.Quoted
