/-!
# Node kinds

The kinds of nodes that a statement is folded into.
-/

namespace SqlFold

/-- The kind of a node, without its content. -/
inductive NodeKind where
  | tokenLeaf
  | column
  | literal
  | operation
  | membership
  | conjunction
  | bracket
  | call
  | allColumns
  | table
  | fromClause
  | join
  | whereClause
  | havingClause
  | groupBy
  | orderBy
  | select
  | update
  | root
  deriving DecidableEq, Inhabited

namespace NodeKind

/-- Every kind, in the order of declaration. -/
def all : List NodeKind :=
  [.tokenLeaf, .column, .literal, .operation, .membership, .conjunction, .bracket,
    .call, .allColumns, .table, .fromClause, .join, .whereClause, .havingClause, .groupBy,
    .orderBy, .select, .update, .root]

/-- The name of a kind in outlines and messages. -/
def name : NodeKind → String
  | tokenLeaf => "TokenLeaf"
  | column => "Column"
  | literal => "Literal"
  | operation => "Operation"
  | membership => "InOperation"
  | conjunction => "Conjunction"
  | bracket => "Parenthesis"
  | call => "FunctionCall"
  | allColumns => "AllColumnsSelector"
  | table => "Table"
  | fromClause => "From"
  | join => "Join"
  | whereClause => "Where"
  | havingClause => "Having"
  | groupBy => "GroupBy"
  | orderBy => "OrderBy"
  | select => "Select"
  | update => "Update"
  | root => "Root"

/-- The kind with the given name. -/
def ofName? (s : String) : Option NodeKind := all.find? (·.name == s)

/-- The kinds that can be operands. -/
def isExpression : NodeKind → Bool
  | column | literal | operation | membership | conjunction | bracket | call
  | allColumns => true
  | _ => false

/-- The clauses that can be merged. -/
def isMergeable : NodeKind → Bool
  | whereClause | havingClause | groupBy => true
  | _ => false

/-- The statements. -/
def isStatement : NodeKind → Bool
  | select | update => true
  | _ => false

/-- The list of kinds is complete. -/
theorem mem_all (k : NodeKind) : k ∈ all := by cases k <;> decide

/-- A kind is found under its own name. -/
@[simp] theorem ofName?_name (k : NodeKind) : ofName? k.name = some k := by cases k <;> decide

end NodeKind

end SqlFold
