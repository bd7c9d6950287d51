import SqlFold.Rule.Focus

/-!
# Which rows, and in what order

* `Rule.whereClause` and `Rule.havingClause` fold a keyword and its condition.
* `Rule.groupBy` and `Rule.orderBy` fold a list; a sort key may have a direction.
-/

namespace SqlFold.Rule

variable {α : Type} (view : α → Node α)

/-! ## Conditions -/

/-- The condition that the keyword at the focus introduces, and the siblings after it; nothing if
there is another sibling at the focus. -/
def takeRestriction? (kind : TokenKind) (focus : Focus α) :
    Checked α (Option (Restriction (Origin α) × List α)) :=
  match leaf? view kind focus.here with
  | none => .ok none
  | some keyword =>
    match focus.right with
    | [] => missingAfter view focus.here .expression
    | a :: after =>
      if isOperand view a then .ok (some (⟨keyword, .sibling a⟩, after))
      else object a (.expected .expression (some (.word kind.name)) (some (view a).mention))

/-- Folds a `WHERE` clause. -/
def applyWhereClause (focus : Focus α) : Checked α (Option (Fold α)) := do
  match ← takeRestriction? view .whereKw focus with
  | none => decline
  | some (condition, after) => fold focus.left (.whereClause condition) after

/-- Folds a `HAVING` clause. -/
def applyHavingClause (focus : Focus α) : Checked α (Option (Fold α)) := do
  match ← takeRestriction? view .havingKw focus with
  | none => decline
  | some (condition, after) => fold focus.left (.havingClause condition) after

/-! ## Lists -/

/-- The expressions of a list, and the siblings after them, where `previous` stands before it. -/
def takeExpressions (previous : α) : List α → Checked α (List α × List α)
  | [] => missingAfter view previous .expression
  | [a] => if isOperand view a then .ok ([a], []) else misplaced view a .expression
  | a :: comma :: rest =>
    if isOperand view a then
      if leafIs view .comma comma then do
        let (expressions, after) ← takeExpressions comma rest
        return (a :: expressions, after)
      else .ok ([a], comma :: rest)
    else misplaced view a .expression

/-- Folds a `GROUP BY` clause. -/
def applyGroupBy (focus : Focus α) : Checked α (Option (Fold α)) :=
  match leaf? view .groupKw focus.here with
  | none => decline
  | some group =>
    match focus.right with
    | [] => object focus.here (.expected .byKeyword (some (.word "GROUP")) none)
    | a :: rest =>
      match leaf? view .byKw a with
      | none => object focus.here (.expected .byKeyword (some (.word "GROUP")) none)
      | some byKeyword => do
        let (expressions, after) ← takeExpressions view a rest
        fold focus.left (.groupBy ⟨group, byKeyword, expressions.map .sibling⟩) after

/-- The words for a sort direction. -/
def isDirection : TokenKind → Bool
  | .ascKw | .descKw => true
  | _ => false

/-- The direction at the front of the siblings, if there is one, and the siblings after it. -/
def takeDirection : List α → Option Token × List α
  | [] => (none, [])
  | a :: rest =>
    match leafOf? view isDirection a with
    | some t => (some t, rest)
    | none => (none, a :: rest)

/-- Reading a direction adds no sibling. -/
theorem takeDirection_length_le (siblings : List α) :
    (takeDirection view siblings).2.length ≤ siblings.length := by
  cases siblings with
  | nil => simp [takeDirection]
  | cons a rest =>
    simp only [takeDirection]
    split <;> simp

/-- The sort keys, and the siblings after them, where `previous` stands before them. The list ends
at a semicolon or with the branch. -/
def takeSortKeys (previous : α) :
    List α → Checked α (List (SortKey (Origin α)) × List α)
  | [] => missingAfter view previous .expression
  | a :: rest =>
    if isOperand view a then
      let item : SortKey (Origin α) := ⟨.sibling a, (takeDirection view rest).1⟩
      match after : (takeDirection view rest).2 with
      | [] => .ok ([item], [])
      | b :: rest' =>
        if leafIs view .semicolon b then .ok ([item], b :: rest')
        else if leafIs view .comma b then do
          have : rest'.length < rest.length + 1 := by
            have := takeDirection_length_le view rest
            rw [after] at this
            simp only [List.length_cons] at this
            omega
          let (items, after) ← takeSortKeys b rest'
          return (item :: items, after)
        else misplaced view b .direction
    else misplaced view a .expression
  termination_by siblings => siblings.length

/-- Folds an `ORDER BY` clause. -/
def applyOrderBy (focus : Focus α) : Checked α (Option (Fold α)) :=
  match leaf? view .orderKw focus.here with
  | none => decline
  | some order =>
    match focus.right with
    | [] => object focus.here (.expected .byKeyword (some (.word "ORDER")) none)
    | a :: rest =>
      match leaf? view .byKw a with
      | none => object focus.here (.expected .byKeyword (some (.word "ORDER")) none)
      | some byKeyword => do
        let (items, after) ← takeSortKeys view a rest
        fold focus.left (.orderBy ⟨order, byKeyword, items⟩) after

end SqlFold.Rule
