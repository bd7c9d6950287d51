import SqlFold.Rule.Source

/-!
# Statements

* `Rule.select` folds `SELECT` with its list and clauses.
* `Rule.update` folds `UPDATE` with its table, joins, assignments and clauses.

Both wait until all clauses are folded: nothing is done unless the end of the branch or a semicolon
follows.
-/

namespace SqlFold.Rule

variable {α : Type} (view : α → Node α)

/-- An optional leading leaf of the given kind, and the siblings after it. -/
def takeOptionalLeaf (kind : TokenKind) : List α → Option Token × List α
  | [] => (none, [])
  | a :: rest =>
    match leaf? view kind a with
    | some t => (some t, rest)
    | none => (none, a :: rest)

/-! ## Select -/

/-- What is missing where no column follows: the whole list behind the head of the statement, one
column behind a comma. -/
def missingColumn (comma : Bool) (previous : α) {β : Type} : Checked α β :=
  if comma then object previous (.expected .column (some (.lexeme ",")) none)
  else missingAfter view previous .firstColumn

/-- The select list, and the siblings after it, where `previous` stands before it and is a comma or
not. -/
def takeProjections (comma : Bool) (previous : α) :
    List α → Checked α (List (Projection (Origin α)) × List α)
  | [] => missingColumn view comma previous
  | a :: rest =>
    if isOperand view a then
      match aliased : takeAlias view false rest with
      | .error objection => .error objection
      | .ok (aliasName, []) => .ok ([⟨.sibling a, aliasName⟩], [])
      | .ok (aliasName, b :: rest') =>
        if leafIs view .comma b then do
          have : rest'.length < rest.length + 1 := by
            have := takeAlias_length_le view aliased
            simp only [List.length_cons] at this
            omega
          let (items, after) ← takeProjections true b rest'
          return (⟨.sibling a, aliasName⟩ :: items, after)
        else .ok ([⟨.sibling a, aliasName⟩], b :: rest')
    else missingColumn view comma previous
  termination_by siblings => siblings.length

/-- The nearest sibling before the select list: `DISTINCT` where it is written, else the focus. -/
def beforeSelectList (focus : Focus α) : α :=
  match focus.right with
  | a :: _ => if leafIs view .distinctKw a then a else focus.here
  | [] => focus.here

/-- Folds a whole `SELECT` statement. -/
def applySelect (focus : Focus α) : Checked α (Option (Fold α)) :=
  match leaf? view .selectKw focus.here with
  | none => decline
  | some keyword => do
    let (distinct, rest) := takeOptionalLeaf view .distinctKw focus.right
    let (items, rest) ← takeProjections view false (beforeSelectList view focus) rest
    let (source, rest) := takeNode view .fromClause rest
    let (joins, rest) := takeNodes view .join rest
    let (filter, rest) := takeNode view .whereClause rest
    let (grouping, rest) := takeNode view .groupBy rest
    let (having, rest) := takeNode view .havingClause rest
    let (ordering, rest) := takeNode view .orderBy rest
    if endsStatement view rest then
      fold focus.left
        (.select ⟨keyword, distinct, items, source.map .sibling, joins.map .sibling,
          filter.map .sibling, grouping.map .sibling, having.map .sibling, ordering.map .sibling⟩)
        rest
    else decline

/-! ## Update -/

/-- Whether a sibling assigns a value to a column. -/
def isAssignment (a : α) : Bool :=
  match view a with
  | .operation o => o.isEquals && isNode view .column o.left
  | _ => false

/-- What is missing where no assignment follows: the whole list behind `SET`, one assignment behind
a comma. -/
def missingAssignment (comma : Bool) (previous : α) {β : Type} : Checked α β :=
  if comma then object previous (.expected .assignment (some (.lexeme ",")) none)
  else missingAfter view previous .firstAssignment

/-- The assignments, and the siblings after them, where `previous` stands before them and is a comma
or not. -/
def takeAssignments (comma : Bool) (previous : α) : List α → Checked α (List α × List α)
  | [] => missingAssignment view comma previous
  | [a] =>
    if isOperand view a then
      if isAssignment view a then .ok ([a], []) else object a .notAnAssignment
    else missingAssignment view comma previous
  | a :: b :: rest =>
    if isOperand view a then
      if isAssignment view a then
        if leafIs view .comma b then do
          let (assignments, after) ← takeAssignments true b rest
          return (a :: assignments, after)
        else .ok ([a], b :: rest)
      else object a .notAnAssignment
    else missingAssignment view comma previous

/-- Folds a whole `UPDATE` statement. -/
def applyUpdate (focus : Focus α) : Checked α (Option (Fold α)) :=
  match leaf? view .updateKw focus.here with
  | none => decline
  | some keyword => do
    match ← takeSource? view false focus.right with
    | none => object focus.here (.expected .table (some (.word "UPDATE")) none)
    | some (table, rest) =>
      let (aliasName, rest) ← takeAlias view true rest
      match takeNodes view .join rest with
      | (_, []) => decline
      | (joins, s :: rest) =>
        match leaf? view .setKw s with
        | none => decline
        | some setKeyword =>
          let (assignments, rest) ← takeAssignments view false s rest
          let (filter, rest) := takeNode view .whereClause rest
          let (ordering, rest) := takeNode view .orderBy rest
          if endsStatement view rest then
            fold focus.left
              (.update ⟨keyword, table, aliasName, joins.map .sibling, setKeyword,
                assignments.map .sibling, filter.map .sibling, ordering.map .sibling⟩)
              rest
          else decline

end SqlFold.Rule
