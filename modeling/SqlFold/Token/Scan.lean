import SqlFold.Text.Chars
import SqlFold.Text.Quoted
import SqlFold.Token.Vocabulary

/-!
# Scanning rules

Each rule looks at the front of a text and answers how many characters it takes. `Scan.next?` tries
them in order and answers with the first that matches:

1. a run of blanks;
2. a comment: `#` or `--` up to the end of the line, or a block comment, which runs to the end of
   the text where it is not closed;
3. a closed string between single or double quotes;
4. the longest entry of the vocabulary;
5. a number: digits, and a point with further digits;
6. a closed name between name quotes;
7. a bare identifier;
8. a prepared argument: a question mark, or a colon with a name.
-/

namespace SqlFold.Scan

open Text

/-- The length of a run of characters, if there is one. -/
def run? (p : Char → Bool) (text : List Char) : Option Nat :=
  match (text.takeWhile p).length with
  | 0 => none
  | n + 1 => some (n + 1)

/-- The number of characters up to and including the end of a block comment. -/
def blockLength : List Char → Nat
  | [] => 0
  | [_] => 1
  | c :: d :: rest => if c = '*' ∧ d = '/' then 2 else blockLength (d :: rest) + 1

/-- The length of a comment. -/
def comment? : List Char → Option Nat
  | '#' :: rest => some ((rest.takeWhile (· != '\n')).length + 1)
  | '-' :: '-' :: rest => some ((rest.takeWhile (· != '\n')).length + 2)
  | '/' :: '*' :: rest => some (blockLength rest + 2)
  | _ => none

/-- The length of a text between the quotes `quote`, backslash escapes included. -/
def string? (quote : Char) : List Char → Option Nat
  | [] => none
  | c :: rest => if c = quote then (Quoted.closing quote true rest).map (· + 1) else none

/-- The length of a number. -/
def number? (text : List Char) : Option Nat :=
  (run? Char.isDigit text).map fun digits =>
    match text.drop digits with
    | '.' :: fraction =>
      match run? Char.isDigit fraction with
      | some decimals => digits + 1 + decimals
      | none => digits
    | _ => digits

/-- The length of a quoted name. -/
def quotedName? : List Char → Option Nat
  | [] => none
  | c :: rest =>
    if c = '\x60' then (Quoted.closing '\x60' false rest).map (· + 1) else none

/-- The length of a bare identifier. -/
def identifier? : List Char → Option Nat
  | [] => none
  | c :: rest => if isWordStart c then some ((rest.takeWhile isWordChar).length + 1) else none

/-- The length of a prepared argument. -/
def preparedArgument? : List Char → Option Nat
  | '?' :: _ => some 1
  | ':' :: rest => (run? isWordChar rest).map (· + 1)
  | _ => none

/-- The length in characters and the kind of the token at the front of `text`, where `before` is the
character right before it. -/
def next? (vocabulary : Vocabulary) (before : Option Char) (text : List Char) :
    Option (Nat × TokenKind) :=
  ((run? isBlank text).map (·, .whitespace)).or <|
  ((comment? text).map (·, .comment)).or <|
  (((string? '\x27' text).or (string? '"' text)).map (·, .stringLiteral)).or <|
  (vocabulary.longest? before text).or <|
  ((number? text).map (·, .numericLiteral)).or <|
  ((quotedName? text).map (·, .symbol)).or <|
  ((identifier? text).map (·, .symbol)).or <|
  (preparedArgument? text).map (·, .preparedArgument)

end SqlFold.Scan
