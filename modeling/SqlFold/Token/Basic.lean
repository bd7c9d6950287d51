import SqlFold.Text.Position
import SqlFold.Text.Quoted
import SqlFold.Token.Kind

/-!
# Tokens

A `Token` is a lexical unit with the place of its first character. `Token.unquoted` is the name that
it spells and `Token.word` its text in upper case.
-/

namespace SqlFold

open Text

/-- A lexical unit. -/
structure Token where
  kind : TokenKind
  /-- The exact text of the token. -/
  lexeme : String
  /-- The place of its first character. -/
  position : Position
  deriving DecidableEq, Inhabited

namespace Token

/-- The quote around names that are not bare identifiers. -/
def nameQuote : Char := '\x60'

/-- The lexeme, for a quoted name without its quotes. -/
def unquoted (t : Token) : String :=
  let cs := t.lexeme.toList
  if t.kind = .symbol ∧ 2 ≤ cs.length ∧ cs.head? = some nameQuote then
    String.ofList (Quoted.inner nameQuote cs)
  else t.lexeme

/-- The lexeme in upper case. -/
def word (t : Token) : String := t.lexeme.map Char.toUpper

end Token

end SqlFold
