import SqlFold.Rule.Focus

/-!
# Operations and conjunctions

* `Rule.membership` folds `left [NOT] IN (list)`.
* `Rule.operation` folds `left operator right`, left to right and without precedence. The operators
  are the operator tokens, `LIKE`, `IN` and `IS`, and the pairs `IS NOT`, `NOT LIKE` and `NOT IN`.
* `Rule.conjunction` folds a whole chain of expressions joined by `AND` and `OR` into one node;
  neither word binds tighter than the other.
-/

namespace SqlFold.Rule

variable {α : Type} (view : α → Node α)

/-- Folds a membership test. -/
def applyMembership (focus : Focus α) : Checked α (Option (Fold α)) :=
  if isOperand view focus.here then
    let (negation, rest) :=
      match takeLeaf? view .notKw focus.right with
      | some (negation, rest) => (some negation, rest)
      | none => (none, focus.right)
    match takeLeaf? view .inKw rest with
    | some (keyword, list :: after) =>
      if isNode view .bracket list then
        fold focus.left (.membership ⟨.sibling focus.here, negation, keyword, .sibling list⟩) after
      else decline
    | _ => decline
  else decline

/-- The tokens that start an operator. -/
def startsOperator : TokenKind → Bool
  | .operator | .likeKw | .isKw | .inKw => true
  | _ => false

/-- An operator read from siblings. -/
structure Operator (α : Type) where
  tokens : List Token
  /-- The sibling that holds its last token. -/
  last : α
  /-- The siblings after it. -/
  after : List α

/-- The operator at the front of the siblings. -/
def takeOperator? : List α → Option (Operator α)
  | [] => none
  | a :: rest =>
    match (view a).token?, rest with
    | none, _ => none
    | some t, [] => single t a []
    | some t, b :: after =>
      match t.kind, (view b).token? with
      | .isKw, some u => if u.kind = .notKw then some ⟨[t, u], b, after⟩ else single t a rest
      | .notKw, some u =>
        if u.kind = .likeKw ∨ u.kind = .inKw then some ⟨[t, u], b, after⟩ else none
      | _, _ => single t a rest
where
  /-- An operator of one token. -/
  single (t : Token) (a : α) (rest : List α) : Option (Operator α) :=
    if startsOperator t.kind then some ⟨[t], a, rest⟩ else none

/-- Folds a binary operation. -/
def applyOperation (focus : Focus α) : Checked α (Option (Fold α)) :=
  match (view focus.here).token? with
  | some t =>
    if startsOperator t.kind && !focus.left.head?.any (isOperand view) then
      object focus.here (.missingLeftOperand (view focus.here).mention)
    else decline
  | none =>
    if isOperand view focus.here then
      match takeOperator? view focus.right with
      | none => decline
      | some operator =>
        match operator.after with
        | [] => missingAfter view operator.last .expression
        | a :: after =>
          if isOperand view a then
            fold focus.left (.operation ⟨.sibling focus.here, operator.tokens, .sibling a⟩) after
          else
            object a (.expected .expression (some (view operator.last).mention)
              (some (view a).mention))
    else decline

/-- The words that join operands of a conjunction. -/
def joinsOperands : TokenKind → Bool
  | .andKw | .orKw => true
  | _ => false

/-- The operands behind the first, each with the word before it, and the siblings after them. -/
def takeJuncts : List α → Checked α (List (Junct (Origin α)) × List α)
  | [] => .ok ([], [])
  | [word] =>
    match leafOf? view joinsOperands word with
    | none => .ok ([], [word])
    | some _ => missingAfter view word .expression
  | word :: a :: rest =>
    match leafOf? view joinsOperands word with
    | none => .ok ([], word :: a :: rest)
    | some operator =>
      if isOperand view a then do
        let (juncts, after) ← takeJuncts rest
        return (⟨some operator, .sibling a⟩ :: juncts, after)
      else missingAfter view word .expression

/-- Folds a chain of operands. -/
def applyConjunction (focus : Focus α) : Checked α (Option (Fold α)) :=
  match (view focus.here).token? with
  | some t =>
    if joinsOperands t.kind && !focus.left.head?.any (isOperand view) then
      object focus.here (.missingLeftOperand (view focus.here).mention)
    else decline
  | none =>
    if isOperand view focus.here then do
      match ← takeJuncts view focus.right with
      | ([], _) => decline
      | (second :: rest, after) =>
        fold focus.left (.conjunction ⟨⟨none, .sibling focus.here⟩, second, rest⟩) after
    else decline

end SqlFold.Rule
