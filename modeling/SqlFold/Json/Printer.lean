import SqlFold.Json.Basic

/-!
# Writing JSON

`Json.render` writes a value on one line. Characters that end a line somewhere are escaped, as are
the quote, the backslash and the control characters. A garbled value has no text and is written as
null.
-/

namespace SqlFold.Json

/-- The hexadecimal digit of a number below sixteen. -/
def hexDigit (n : Nat) : Char := "0123456789abcdef".toList.getD n '0'

/-- A character below `0x10000` as four hexadecimal digits. -/
def escapeUnit (c : Char) : List Char :=
  let n := c.toNat
  ['\\', 'u', hexDigit (n / 4096 % 16), hexDigit (n / 256 % 16), hexDigit (n / 16 % 16),
    hexDigit (n % 16)]

/-- Whether a character must be written by its code. -/
def needsUnit (c : Char) : Bool :=
  c.toNat < 0x20 || c.toNat == 0x7F || c.toNat == 0x85 || c.toNat == 0x2028 || c.toNat == 0x2029

/-- A character inside a string. -/
def escapeChar (c : Char) : List Char :=
  if c = '"' ∨ c = '\\' then ['\\', c]
  else if c = '\n' then ['\\', 'n']
  else if needsUnit c then escapeUnit c
  else [c]

/-- A string between quotes. -/
def quoted (s : String) : String := String.ofList ('"' :: s.toList.flatMap escapeChar ++ ['"'])

mutual

/-- The value on one line. -/
def render : Json → String
  | null | garbled => "null"
  | bool b => if b then "true" else "false"
  | nat n => toString n
  | numeral text => text
  | string s => quoted s
  | array items => "[" ++ ",".intercalate (renderItems items) ++ "]"
  | object fields => "\x7b" ++ ",".intercalate (renderFields fields) ++ "\x7d"

/-- The items of an array, each on its own. -/
def renderItems : List Json → List String
  | [] => []
  | item :: items => render item :: renderItems items

/-- The fields of an object, each on its own. -/
def renderFields : List (String × Json) → List String
  | [] => []
  | (name, value) :: fields => (quoted name ++ ":" ++ render value) :: renderFields fields

end

end SqlFold.Json
