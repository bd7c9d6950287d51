import SqlFold.Json.Basic

/-!
# Reading JSON

`Json.parse?` reads a text that holds one JSON value and nothing else but blanks. Each reader takes
its value from the front of a text and gives the rest. A value is no deeper than its text is long,
which bounds the recursion.
-/

namespace SqlFold.Json

/-- Whether a character may stand between the parts of a value. -/
def isBlank (c : Char) : Bool := c == ' ' || c == '\t' || c == '\n' || c == '\r'

/-- The text without the blanks at its front. -/
def skipBlanks (text : List Char) : List Char := text.dropWhile isBlank

/-- The text behind a word at its front. -/
def afterWord? : List Char → List Char → Option (List Char)
  | [], text => some text
  | _ :: _, [] => none
  | w :: word, c :: text => if c = w then afterWord? word text else none

/-! ## Strings -/

/-- The value of a hexadecimal digit. -/
def hexDigit? (c : Char) : Option Nat :=
  if c.isDigit then some (c.toNat - '0'.toNat)
  else if 'a' ≤ c ∧ c ≤ 'f' then some (c.toNat - 'a'.toNat + 10)
  else if 'A' ≤ c ∧ c ≤ 'F' then some (c.toNat - 'A'.toNat + 10)
  else none

/-- The value of four hexadecimal digits. -/
def hexQuad? (a b c d : Char) : Option Nat := do
  return (((← hexDigit? a) * 16 + (← hexDigit? b)) * 16 + (← hexDigit? c)) * 16 + (← hexDigit? d)

/-- The character that a letter stands for behind a backslash. -/
def escaped? : Char → Option Char
  | '"' => some '"'
  | '\\' => some '\\'
  | '/' => some '/'
  | 'b' => some '\x08'
  | 'f' => some '\x0c'
  | 'n' => some '\n'
  | 'r' => some '\r'
  | 't' => some '\t'
  | _ => none

/-- The character of a code point that is no surrogate. -/
def scalar? (n : Nat) : Option Char := if h : n.isValidChar then some (Char.ofNatAux n h) else none

/-- The character of a pair of surrogates. -/
def surrogatePair? (high low : Nat) : Option Char :=
  if 0xD800 ≤ high ∧ high < 0xDC00 ∧ 0xDC00 ≤ low ∧ low < 0xE000 then
    scalar? (0x10000 + (high - 0xD800) * 0x400 + (low - 0xDC00))
  else none

/-- The code points of a string without its opening quote, where a surrogate stands for itself, and
the text behind the string. -/
def readCodes : List Char → Option (List Nat × List Char)
  | [] => none
  | '"' :: rest => some ([], rest)
  | '\\' :: 'u' :: a :: b :: c :: d :: rest => do
    let code ← hexQuad? a b c d
    let (codes, rest) ← readCodes rest
    return (code :: codes, rest)
  | '\\' :: c :: rest => do
    let ch ← escaped? c
    let (codes, rest) ← readCodes rest
    return (ch.toNat :: codes, rest)
  | c :: rest =>
    if c.toNat < 0x20 ∨ c = '\\' then none
    else do
      let (codes, rest) ← readCodes rest
      return (c.toNat :: codes, rest)

/-- The characters of code points, where two surrogates make a character; nothing if a surrogate is
left alone. -/
def charsOfCodes? : List Nat → Option (List Char)
  | [] => some []
  | [code] => (scalar? code).map ([·])
  | code :: next :: rest =>
    match scalar? code with
    | some ch => (charsOfCodes? (next :: rest)).map (ch :: ·)
    | none => do
      let ch ← surrogatePair? code next
      return ch :: (← charsOfCodes? rest)

/-- The string whose opening quote stands right before the text, unless it is garbled. -/
def readString (text : List Char) : Option (Option String × List Char) :=
  (readCodes text).map fun (codes, rest) => ((charsOfCodes? codes).map String.ofList, rest)

/-! ## Numbers -/

/-- The digits at the front of a text, of which there must be one. -/
def readDigits (text : List Char) : Option (List Char × List Char) :=
  match text.span Char.isDigit with
  | ([], _) => none
  | (digits, rest) => some (digits, rest)

/-- The digits before the point: no zero in front of other digits. -/
def readWhole (text : List Char) : Option (List Char × List Char) := do
  let (digits, rest) ← readDigits text
  if digits.head? = some '0' ∧ digits.length ≠ 1 then none else return (digits, rest)

/-- The point and the digits behind it, if there is a point. -/
def readFraction : List Char → Option (List Char × List Char)
  | '.' :: rest => (readDigits rest).map fun (digits, rest) => ('.' :: digits, rest)
  | rest => some ([], rest)

/-- The sign of an exponent, if there is one. -/
def readSign : List Char → List Char × List Char
  | c :: rest => if c = '+' ∨ c = '-' then ([c], rest) else ([], c :: rest)
  | [] => ([], [])

/-- The exponent, if there is one. -/
def readExponent : List Char → Option (List Char × List Char)
  | c :: rest =>
    if c = 'e' ∨ c = 'E' then
      let (sign, rest) := readSign rest
      (readDigits rest).map fun (digits, rest) => (c :: sign ++ digits, rest)
    else some ([], c :: rest)
  | [] => some ([], [])

/-- The natural number with the given digits. -/
def natOfDigits (digits : List Char) : Nat :=
  digits.foldl (fun n c => n * 10 + (c.toNat - '0'.toNat)) 0

/-- A number without a sign, with the text of the parts behind the digits. -/
def readUnsigned (text : List Char) : Option ((List Char × List Char) × List Char) := do
  let (whole, rest) ← readWhole text
  let (fraction, rest) ← readFraction rest
  let (exponent, rest) ← readExponent rest
  return ((whole, fraction ++ exponent), rest)

/-- A number. -/
def readNumber (text : List Char) : Option (Json × List Char) :=
  match text with
  | '-' :: rest =>
    (readUnsigned rest).map fun ((whole, tail), rest) =>
      (.numeral (String.ofList ('-' :: whole ++ tail)), rest)
  | _ =>
    (readUnsigned text).map fun ((whole, tail), rest) =>
      (if tail.isEmpty then .nat (natOfDigits whole) else .numeral (String.ofList (whole ++ tail)),
        rest)

/-! ## Values -/

/-- A string, unless it is garbled. -/
def ofText (s : Option String) : Json := (s.map string).getD garbled

/-- A field, unless its name is garbled. -/
def ofField : Option String × Json → Option (String × Json)
  | (name, value) => name.map (·, value)

/-- An object, unless one of its names is garbled. -/
def ofFields (fields : List (Option String × Json)) : Json :=
  ((fields.mapM ofField).map object).getD garbled

mutual

/-- A value no deeper than `depth`. -/
def readValue : (depth : Nat) → List Char → Option (Json × List Char)
  | 0, _ => none
  | depth + 1, text =>
    match skipBlanks text with
    | '"' :: rest => (readString rest).map fun (s, rest) => (ofText s, rest)
    | '[' :: rest =>
      match skipBlanks rest with
      | ']' :: rest => some (.array [], rest)
      | rest => (readItems depth rest).map fun (items, rest) => (.array items, rest)
    | '\x7b' :: rest =>
      match skipBlanks rest with
      | '\x7d' :: rest => some (.object [], rest)
      | rest => (readFields depth rest).map fun (fields, rest) => (ofFields fields, rest)
    | text =>
      ((afterWord? "null".toList text).map (Json.null, ·)).or <|
      ((afterWord? "true".toList text).map (Json.bool true, ·)).or <|
      ((afterWord? "false".toList text).map (Json.bool false, ·)).or <|
      readNumber text

/-- The items of an array that is not empty, up to its closing bracket. -/
def readItems : (depth : Nat) → List Char → Option (List Json × List Char)
  | 0, _ => none
  | depth + 1, text => do
    let (item, rest) ← readValue depth text
    match skipBlanks rest with
    | ',' :: rest => do
      let (items, rest) ← readItems depth rest
      return (item :: items, rest)
    | ']' :: rest => return ([item], rest)
    | _ => none

/-- The fields of an object that is not empty, up to its closing brace. -/
def readFields : (depth : Nat) → List Char → Option (List (Option String × Json) × List Char)
  | 0, _ => none
  | depth + 1, text => do
    match skipBlanks text with
    | '"' :: rest => do
      let (name, rest) ← readString rest
      match skipBlanks rest with
      | ':' :: rest => do
        let (value, rest) ← readValue depth rest
        match skipBlanks rest with
        | ',' :: rest => do
          let (fields, rest) ← readFields depth rest
          return ((name, value) :: fields, rest)
        | '\x7d' :: rest => return ([(name, value)], rest)
        | _ => none
      | _ => none
    | _ => none

end

/-- The value that a text holds. -/
def parse? (text : String) : Option Json := do
  let chars := text.toList
  let (value, rest) ← readValue (chars.length + 1) chars
  if (skipBlanks rest).isEmpty then return value else none

end SqlFold.Json
