import SqlFold.Node.Basic

/-!
# What is wrong with a statement

A `Fault` is the cause of a parsing error: what a rule expected and found, or what name could not be
resolved. `Fault.message` is its wording; it is the only place where the words stand.
-/

namespace SqlFold

/-- How a node is named in a message. -/
inductive Mention where
  /-- By the text of its token, in quotes. -/
  | lexeme (text : String)
  /-- By its kind. -/
  | kind (kind : NodeKind)
  /-- A word of the grammar, without quotes. -/
  | word (text : String)
  deriving DecidableEq

namespace Mention

/-- The wording of a mention. -/
def text : Mention → String
  | lexeme text => "'" ++ text ++ "'"
  | kind k => k.name
  | word text => text

end Mention

/-- A leaf is named by its token, another node by its kind. -/
def Node.mention {α : Type} (n : Node α) : Mention :=
  match n.token? with
  | some t => .lexeme t.lexeme
  | none => .kind n.kind

/-- What a rule expects at a place. -/
inductive Wanted where
  | expression
  | listEnd
  | name
  | aliasName
  | table
  | columnList
  | byKeyword
  | column
  | firstColumn
  | direction
  | assignment
  | firstAssignment
  deriving DecidableEq

namespace Wanted

/-- The wording of an expectation. -/
def text : Wanted → String
  | expression => "expression"
  | listEnd => "',' or ')'"
  | name => "name"
  | aliasName => "alias"
  | table => "table"
  | columnList => "column list"
  | byKeyword => "BY"
  | column => "column"
  | firstColumn => "at least one column"
  | direction => "ASC or DESC"
  | assignment => "assignment"
  | firstAssignment => "at least one assignment"

end Wanted

/-- What a name with qualifiers can stand for. -/
inductive Qualified where
  | column
  | allColumns
  | table
  deriving DecidableEq

/-- The cause of a parsing error. -/
inductive Fault where
  /-- Something is missing, after and in place of what is mentioned. -/
  | expected (wanted : Wanted) (after found : Option Mention)
  /-- A bracket closes nothing. -/
  | unopenedBracket
  /-- A bracket is never closed. -/
  | unclosedBracket
  /-- Brackets without an expression. -/
  | emptyBrackets
  /-- An operator without a left operand. -/
  | missingLeftOperand (operator : Mention)
  /-- More qualifiers than the name can have. -/
  | tooManyQualifiers (name : Qualified)
  /-- A point before `*` without a name before it. -/
  | missingQualifier
  /-- An item of an `UPDATE` that assigns nothing. -/
  | notAnAssignment
  /-- A statement of a kind that is not wanted. -/
  | unexpectedStatement (kind : NodeKind) (wanted : List NodeKind)
  /-- A node stands where a table is needed. -/
  | notATable (kind : NodeKind)
  /-- A node stands where a column is needed. -/
  | notAColumn (kind : NodeKind)
  /-- No table has this name. -/
  | unknownTable (name : String)
  /-- No column has this name, in the named table if there is one. -/
  | unknownColumn (table : Option String) (name : String)
  /-- Several tables have a column of this name. -/
  | ambiguousColumn (name : String)
  /-- A caller's own complaint. -/
  | note (text : String)
  deriving DecidableEq

namespace Fault

/-- The wording of a fault. -/
def message : Fault → String
  | expected wanted after found =>
    let anchor := (after.map fun m => " after " ++ m.text).getD ""
    let other := (found.map fun m => ", found " ++ m.text).getD ""
    "expected " ++ wanted.text ++ anchor ++ other
  | unopenedBracket => "unbalanced closing bracket"
  | unclosedBracket => "missing closing bracket"
  | emptyBrackets => "expected expression inside brackets"
  | missingLeftOperand operator => "missing left operand for " ++ operator.text
  | tooManyQualifiers .column => "too many qualifiers for a column name"
  | tooManyQualifiers .allColumns => "too many qualifiers before '*'"
  | tooManyQualifiers .table => "too many qualifiers for a table name"
  | missingQualifier => "expected table name before '.'"
  | notAnAssignment => "expected an assignment of the form column = value"
  | unexpectedStatement kind wanted =>
    "unexpected node of kind " ++ kind.name ++ ", expected one of ["
      ++ ", ".intercalate (wanted.map NodeKind.name) ++ "]"
  | notATable kind => "expected a table, found " ++ kind.name
  | notAColumn kind => "expected a column, found " ++ kind.name
  | unknownTable name => "unknown table '" ++ name ++ "'"
  | unknownColumn (some table) name => "unknown column '" ++ table ++ "." ++ name ++ "'"
  | unknownColumn none name => "unknown column '" ++ name ++ "'"
  | ambiguousColumn name => "ambiguous column '" ++ name ++ "'"
  | note text => text

end Fault

end SqlFold
