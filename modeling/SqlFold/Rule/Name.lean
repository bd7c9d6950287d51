import SqlFold.Rule.Focus

/-!
# Literals and names

* `Rule.literal` folds strings, numbers, `NULL` and prepared arguments. A sign right before a number
  belongs to it, unless an operand stands before the sign.
* `Rule.allColumns` folds `*` with up to two qualifiers before it.
* `Rule.column` folds a name with up to two qualifiers, the last of which is the column.
-/

namespace SqlFold.Rule

variable {α : Type} (view : α → Node α)

/-- The tokens that are a literal by themselves. -/
def isValueKind : TokenKind → Bool
  | .stringLiteral | .numericLiteral | .nullKw | .preparedArgument => true
  | _ => false

/-- The tokens that end an operand that is not folded yet. -/
def closesOperandKind : TokenKind → Bool
  | .symbol | .stringLiteral | .numericLiteral | .nullKw | .preparedArgument | .bracketClose => true
  | _ => false

/-- Whether a sibling can be the left operand of a binary operator. -/
def closesOperand (a : α) : Bool :=
  match (view a).tokenKind? with
  | some kind => closesOperandKind kind
  | none => isOperand view a

/-- Whether a token is a sign. -/
def isSign (t : Token) : Bool := t.kind == .operator && (t.lexeme == "-" || t.lexeme == "+")

/-- Folds a literal. -/
def applyLiteral (focus : Focus α) : Checked α (Option (Fold α)) :=
  match (view focus.here).token? with
  | none => decline
  | some t =>
    if isValueKind t.kind then fold focus.left (.literal ⟨none, t⟩) focus.right
    else if isSign t && !focus.left.head?.any (closesOperand view) then
      match takeLeaf? view .numericLiteral focus.right with
      | some (number, after) => fold focus.left (.literal ⟨some t, number⟩) after
      | none => decline
    else decline

/-- The qualifiers before `*`, nearest first, and the siblings before them. Each is a name with a
point after it, and no more than `room` are allowed. -/
def takeQualifiers : (room : Nat) → List α → Checked α (List Token × List α)
  | _, [] => .ok ([], [])
  | room, point :: before =>
    if leafIs view .dot point then
      match before with
      | [] => object point .missingQualifier
      | a :: before =>
        match leaf? view .symbol a, room with
        | none, _ => object point .missingQualifier
        | some _, 0 => object point (.tooManyQualifiers .allColumns)
        | some name, room + 1 => do
          let (names, rest) ← takeQualifiers room before
          return (name :: names, rest)
    else .ok ([], point :: before)

/-- Folds `*` with its qualifiers. -/
def applyAllColumns (focus : Focus α) : Checked α (Option (Fold α)) :=
  match leaf? view .star focus.here with
  | none => decline
  | some star => do
    let (qualifiers, before) ← takeQualifiers view 2 focus.left
    fold before (.allColumns ⟨qualifiers[1]?, qualifiers[0]?, star⟩) focus.right

/-- The names after a name, each behind a point, and the siblings after them. No more than `room`
are allowed. -/
def takeNames : (room : Nat) → List α → Checked α (List Token × List α)
  | _, [] => .ok ([], [])
  | room, point :: after =>
    if leafIs view .dot point then
      match room, after with
      | 0, _ => object point (.tooManyQualifiers .column)
      | _ + 1, [] => object point (.expected .name (some (.lexeme ".")) none)
      | room + 1, a :: after =>
        match leaf? view .symbol a with
        | none => object point (.expected .name (some (.lexeme ".")) none)
        | some name => do
          let (names, rest) ← takeNames room after
          return (name :: names, rest)
    else .ok ([], point :: after)

/-- The column named by a name and up to two names after it. -/
def columnName (first : Token) : List Token → ColumnName
  | [] => ⟨none, none, first⟩
  | [second] => ⟨none, some first, second⟩
  | second :: third :: _ => ⟨some first, some second, third⟩

/-- Folds a column name with its qualifiers. -/
def applyColumn (focus : Focus α) : Checked α (Option (Fold α)) :=
  match leaf? view .symbol focus.here with
  | none => decline
  | some first =>
    if focus.left.head?.any (leafIs view .dot) then decline
    else do
      let (names, after) ← takeNames view 2 focus.right
      fold focus.left (.column (columnName first names)) after

end SqlFold.Rule
