import SqlFold.Token.Basic
import SqlFold.Token.Scan

/-!
# Scripts

A `Script` is a text cut into tokens, whitespace and comments included, so that the lexemes put
together are the text. `Script.ofText?` cuts. It fails in two ways:

* **unmatched**: no scanning rule takes the character at a place;
* **standstill**: the vocabulary has an entry without characters, and it is the longest one at a
  place, so that the scanner would stay there for ever.

A `*` is an operator only after a token that ends an operand, elsewhere it stands for all columns;
whitespace and comments between the two do not matter.
-/

namespace SqlFold

open Text

/-- Tokens together with the text they come from. -/
structure Script where
  source : String
  tokens : List Token
  deriving DecidableEq, Inhabited

namespace Script

/-- The script without its whitespace. -/
def dropWhitespace (s : Script) : Script :=
  { s with tokens := s.tokens.filter (·.kind != .whitespace) }

/-- The script without its comments. -/
def dropComments (s : Script) : Script :=
  { s with tokens := s.tokens.filter (·.kind != .comment) }

/-- The tokens that the grammar sees: neither whitespace nor comments. -/
def significant (s : Script) : List Token := s.tokens.filter (!·.kind.isTrivia)

/-- One `line,column,KIND` row per token that is not whitespace. -/
def listing (s : Script) : String :=
  "\n".intercalate <|
    s.dropWhitespace.tokens.map fun t => s!"{t.position.text},{t.kind.name}"

end Script

/-! ## Cutting -/

/-- The tokens after which `*` multiplies. -/
def TokenKind.beforeProduct : TokenKind → Bool
  | .symbol | .numericLiteral | .bracketClose | .preparedArgument => true
  | _ => false

/-- The kind of a token, where `previous` is the kind of the last token that is not trivia. -/
def TokenKind.resolveStar (kind : TokenKind) (lexeme : String) (previous : Option TokenKind) :
    TokenKind :=
  if kind = .operator ∧ lexeme = "*" ∧ !previous.any beforeProduct then .star else kind

/-- Why a text cannot be cut into tokens, and where. -/
inductive ScanFailure where
  | unmatched (position : Position)
  | standstill (position : Position)
  deriving DecidableEq

namespace Script

/-- Where the scanner stands: what it remembers of the text behind it. -/
structure Cursor where
  position : Position
  /-- The character right behind. -/
  before : Option Char
  /-- The kind of the last token that is not trivia. -/
  previous : Option TokenKind

/-- The cursor at the start of a text. -/
def Cursor.start : Cursor := ⟨.start, none, none⟩

/-- The token of the given kind with the characters `cs`, which stand at the cursor. -/
def Cursor.token (cur : Cursor) (kind : TokenKind) (cs : List Char) : Token :=
  ⟨kind.resolveStar (String.ofList cs) cur.previous, String.ofList cs, cur.position⟩

/-- The cursor behind a token with the characters `cs`. -/
def Cursor.past (cur : Cursor) (kind : TokenKind) (cs : List Char) : Cursor where
  position := cur.position.advance cs
  before := cs.getLast?.or cur.before
  previous := if kind.isTrivia then cur.previous else some kind

/-- Cuts the text at a cursor into tokens. -/
def tokensFrom (vocabulary : Vocabulary) (cur : Cursor) (text : List Char) :
    Except ScanFailure (List Token) :=
  if text = [] then .ok []
  else
    match Scan.next? vocabulary cur.before text with
    | none => .error (.unmatched cur.position)
    | some (length, kind) =>
      if _progress : (text.drop length).length < text.length then
        let cs := text.take length
        let token := cur.token kind cs
        (tokensFrom vocabulary (cur.past token.kind cs) (text.drop length)).map (token :: ·)
      else .error (.standstill cur.position)
  termination_by text.length
  decreasing_by exact _progress

/-- The tokens of a text. -/
def ofText? (vocabulary : Vocabulary) (source : String) : Except ScanFailure Script :=
  (tokensFrom vocabulary .start source.toList).map (⟨source, ·⟩)

theorem ofText?_eq_ok {vocabulary : Vocabulary} {source : String} {tokens : List Token}
    (cut : tokensFrom vocabulary .start source.toList = .ok tokens) :
    ofText? vocabulary source = .ok ⟨source, tokens⟩ := by
  rw [ofText?, cut]
  rfl

/-- With the standard vocabulary the tokens are found from its entries as they are listed. -/
theorem ofText?_standard {source : String} {tokens : List Token}
    (cut : tokensFrom ⟨Vocabulary.standardEntries⟩ .start source.toList = .ok tokens) :
    ofText? .standard source = .ok ⟨source, tokens⟩ :=
  ofText?_eq_ok (by rwa [Vocabulary.standard_eq])

end Script

end SqlFold
