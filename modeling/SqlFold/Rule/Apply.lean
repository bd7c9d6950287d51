import SqlFold.Rule.Bracket
import SqlFold.Rule.Kind
import SqlFold.Rule.Name
import SqlFold.Rule.Operator
import SqlFold.Rule.Refinement
import SqlFold.Rule.Statement

/-!
# Applying a rule

`Rule.apply` gives the answer of the rule of a given name at a focus.
-/

namespace SqlFold.Rule

variable {α : Type} (view : α → Node α)

/-- The answer of a rule at a focus. -/
def apply : Rule → Focus α → Checked α (Option (Fold α))
  | bracket => applyBracket view
  | call => applyCall view
  | literal => applyLiteral view
  | allColumns => applyAllColumns view
  | column => applyColumn view
  | membership => applyMembership view
  | operation => applyOperation view
  | conjunction => applyConjunction view
  | fromClause => applyFromClause view
  | join => applyJoin view
  | whereClause => applyWhereClause view
  | havingClause => applyHavingClause view
  | groupBy => applyGroupBy view
  | orderBy => applyOrderBy view
  | select => applySelect view
  | update => applyUpdate view

end SqlFold.Rule
