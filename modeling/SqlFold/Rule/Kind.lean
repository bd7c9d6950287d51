/-!
# The grammar rules by name

The rules in the order in which they must run: operands before operators, operators before
conjunctions, conjunctions before clauses, clauses before statements.
-/

namespace SqlFold

/-- A grammar rule. -/
inductive Rule where
  | bracket
  | call
  | literal
  | allColumns
  | column
  | membership
  | operation
  | conjunction
  | fromClause
  | join
  | whereClause
  | havingClause
  | groupBy
  | orderBy
  | select
  | update
  deriving DecidableEq, Inhabited

namespace Rule

/-- Every rule, in the order in which they run. -/
def standard : List Rule :=
  [.bracket, .call, .literal, .allColumns, .column, .membership, .operation,
    .conjunction, .fromClause, .join, .whereClause, .havingClause, .groupBy, .orderBy, .select,
    .update]

/-- The name of a rule in messages and events. -/
def name : Rule → String
  | bracket => "parenthesis"
  | call => "function_call"
  | literal => "literal"
  | allColumns => "all_columns_selector"
  | column => "column"
  | membership => "in_operation"
  | operation => "operation"
  | conjunction => "conjunction"
  | fromClause => "from"
  | join => "join"
  | whereClause => "where"
  | havingClause => "having"
  | groupBy => "group_by"
  | orderBy => "order_by"
  | select => "select"
  | update => "update"

/-- The rule with the given name. -/
def ofName? (s : String) : Option Rule := standard.find? (·.name == s)

/-- The list of rules is complete. -/
theorem mem_standard (r : Rule) : r ∈ standard := by cases r <;> decide

/-- A rule is found under its own name. -/
@[simp] theorem ofName?_name (r : Rule) : ofName? r.name = some r := by cases r <;> decide

end Rule

end SqlFold
