/-!
# Token kinds

The closed set of kinds a token can have. A vocabulary gives words and operators one of these kinds,
it adds none.
-/

namespace SqlFold

/-- The kind of a token. -/
inductive TokenKind where
  | whitespace
  | comment
  | dot
  | comma
  | semicolon
  | bracketOpen
  | bracketClose
  | star
  | symbol
  | stringLiteral
  | numericLiteral
  | preparedArgument
  | operator
  | selectKw
  | distinctKw
  | asKw
  | fromKw
  | joinKw
  | innerKw
  | leftKw
  | rightKw
  | fullKw
  | outerKw
  | crossKw
  | naturalKw
  | onKw
  | usingKw
  | whereKw
  | andKw
  | orKw
  | notKw
  | likeKw
  | isKw
  | inKw
  | nullKw
  | orderKw
  | byKw
  | ascKw
  | descKw
  | groupKw
  | havingKw
  | setKw
  | updateKw
  deriving DecidableEq, Inhabited

namespace TokenKind

/-- Every kind, in the order of declaration. -/
def all : List TokenKind :=
  [.whitespace, .comment, .dot, .comma, .semicolon, .bracketOpen, .bracketClose, .star, .symbol,
    .stringLiteral, .numericLiteral, .preparedArgument, .operator, .selectKw, .distinctKw, .asKw,
    .fromKw, .joinKw, .innerKw, .leftKw, .rightKw, .fullKw, .outerKw, .crossKw, .naturalKw, .onKw,
    .usingKw, .whereKw, .andKw, .orKw, .notKw, .likeKw, .isKw, .inKw, .nullKw, .orderKw, .byKw,
    .ascKw, .descKw, .groupKw, .havingKw, .setKw, .updateKw]

/-- The name of a kind in listings and settings. -/
def name : TokenKind → String
  | whitespace => "WHITESPACE"
  | comment => "COMMENT"
  | dot => "DOT"
  | comma => "COMMA"
  | semicolon => "SEMICOLON"
  | bracketOpen => "BRACKET_OPEN"
  | bracketClose => "BRACKET_CLOSE"
  | star => "STAR"
  | symbol => "SYMBOL"
  | stringLiteral => "STRING_LITERAL"
  | numericLiteral => "NUMERIC_LITERAL"
  | preparedArgument => "PREPARED_ARGUMENT"
  | operator => "OPERATOR"
  | selectKw => "SELECT"
  | distinctKw => "DISTINCT"
  | asKw => "AS"
  | fromKw => "FROM"
  | joinKw => "JOIN"
  | innerKw => "INNER"
  | leftKw => "LEFT"
  | rightKw => "RIGHT"
  | fullKw => "FULL"
  | outerKw => "OUTER"
  | crossKw => "CROSS"
  | naturalKw => "NATURAL"
  | onKw => "ON"
  | usingKw => "USING"
  | whereKw => "WHERE"
  | andKw => "AND"
  | orKw => "OR"
  | notKw => "NOT"
  | likeKw => "LIKE"
  | isKw => "IS"
  | inKw => "IN"
  | nullKw => "NULL"
  | orderKw => "ORDER"
  | byKw => "BY"
  | ascKw => "ASC"
  | descKw => "DESC"
  | groupKw => "GROUP"
  | havingKw => "HAVING"
  | setKw => "SET"
  | updateKw => "UPDATE"

/-- The kind with the given name. -/
def ofName? (s : String) : Option TokenKind := all.find? (·.name == s)

/-- Whitespace and comments, which the grammar skips. -/
def isTrivia : TokenKind → Bool
  | whitespace | comment => true
  | _ => false

/-- Reserved words. -/
def isKeyword : TokenKind → Bool
  | whitespace | comment | dot | comma | semicolon | bracketOpen | bracketClose | star | symbol
  | stringLiteral | numericLiteral | preparedArgument | operator => false
  | _ => true

/-- The words that may stand before `JOIN`. -/
def isJoinModifier : TokenKind → Bool
  | innerKw | leftKw | rightKw | fullKw | outerKw | crossKw | naturalKw => true
  | _ => false

/-- The list of kinds is complete. -/
theorem mem_all (k : TokenKind) : k ∈ all := by cases k <;> decide

/-- A kind is found under its own name. -/
@[simp] theorem ofName?_name (k : TokenKind) : ofName? k.name = some k := by cases k <;> decide

end TokenKind

end SqlFold
