import SqlFold.Proofs.Cover.Clauses

/-!
# Where a rule can do something

`Rule.startsAt` says at which siblings a rule looks any further: at leaves of some kinds, at operands
or at brackets. At any other sibling the rule declines (`Rule.apply_of_not_startsAt`).
-/

namespace SqlFold.Rule

variable {α : Type} {view : α → Node α}

/-- Whether a rule looks further at a leaf of the given kind. -/
def startsAtLeaf : Rule → TokenKind → Bool
  | bracket, kind => kind == .bracketOpen || kind == .bracketClose
  | call, kind => kind == .symbol
  | literal, kind => isValueKind kind || kind == .operator
  | allColumns, kind => kind == .star
  | column, kind => kind == .symbol
  | membership, _ => false
  | operation, kind => startsOperator kind
  | conjunction, kind => joinsOperands kind
  | fromClause, kind => kind == .fromKw
  | join, kind => kind.isJoinModifier || kind == .joinKw
  | whereClause, kind => kind == .whereKw
  | havingClause, kind => kind == .havingKw
  | groupBy, kind => kind == .groupKw
  | orderBy, kind => kind == .orderKw
  | select, kind => kind == .selectKw
  | update, kind => kind == .updateKw

/-- Whether a rule looks further at a node of the given kind, which is no leaf. -/
def startsAtNode : Rule → NodeKind → Bool
  | bracket, kind => kind == .bracket
  | membership, kind => kind.isExpression
  | operation, kind => kind.isExpression
  | conjunction, kind => kind.isExpression
  | _, _ => false

/-- Whether a rule looks further at a node. -/
def startsAt (rule : Rule) : Node α → Bool
  | .leaf t => rule.startsAtLeaf t.kind
  | n => rule.startsAtNode n.kind

theorem leaf?_of_not_leaf {kind : TokenKind} {a : α} (h : (view a).token? = none) :
    leaf? view kind a = none := by
  rw [leaf?, h]
  rfl

theorem leaf?_of_leaf {kind : TokenKind} {a : α} {t : Token} (shown : view a = .leaf t) :
    leaf? view kind a = if t.kind = kind then some t else none := by
  rw [leaf?, shown, Node.token?, Option.filter_some]
  simp only [beq_iff_eq]

/-- A rule that does not start at a leaf declines there. -/
theorem apply_of_leaf {rule : Rule} {focus : Focus α} {t : Token}
    (shown : view focus.here = .leaf t) (starts : rule.startsAtLeaf t.kind = false) :
    rule.apply view focus = .ok none := by
  have token : (view focus.here).token? = some t := by rw [shown]; rfl
  have operand : isOperand view focus.here = false := by rw [isOperand, shown]; rfl
  -- Most rules look for one keyword.
  have keyword {kind : TokenKind} (other : (t.kind == kind) = false) :
      leaf? view kind focus.here = none := by
    rw [leaf?_of_leaf shown, if_neg (by simpa using other)]
  cases rule with
  | bracket =>
    simp only [startsAtLeaf, Bool.or_eq_false_iff, beq_eq_false_iff_ne] at starts
    simp only [apply, applyBracket, shown, starts, if_false]
    rfl
  | call => simp only [apply, applyCall, keyword starts]; rfl
  | literal =>
    simp only [startsAtLeaf, Bool.or_eq_false_iff] at starts
    simp only [apply, applyLiteral, token, isSign, starts]
    rfl
  | allColumns => simp only [apply, applyAllColumns, keyword starts]; rfl
  | column => simp only [apply, applyColumn, keyword starts]; rfl
  | membership => simp only [apply, applyMembership, operand]; rfl
  | operation =>
    simp only [startsAtLeaf] at starts
    simp only [apply, applyOperation, token, starts]
    rfl
  | conjunction =>
    simp only [startsAtLeaf] at starts
    simp only [apply, applyConjunction, token, starts]
    rfl
  | fromClause => simp only [apply, applyFromClause, keyword starts]; rfl
  | join =>
    simp only [startsAtLeaf, Bool.or_eq_false_iff] at starts
    have modifiers : takeModifiers view (focus.here :: focus.right) =
        ([], focus.here :: focus.right) := by
      have none : leafOf? view TokenKind.isJoinModifier focus.here = none := by
        rw [leafOf?, token, Option.filter_some, starts.1]
        rfl
      rw [takeModifiers, none]
    simp only [apply, applyJoin, modifiers, keyword starts.2]
    split <;> rfl
  | whereClause =>
    simp only [apply, applyWhereClause, takeRestriction?, keyword starts]
    rfl
  | havingClause =>
    simp only [apply, applyHavingClause, takeRestriction?, keyword starts]
    rfl
  | groupBy => simp only [apply, applyGroupBy, keyword starts]; rfl
  | orderBy => simp only [apply, applyOrderBy, keyword starts]; rfl
  | select => simp only [apply, applySelect, keyword starts]; rfl
  | update => simp only [apply, applyUpdate, keyword starts]; rfl

/-- A rule that does not start at a node that is no leaf declines there. -/
theorem apply_of_node {rule : Rule} {focus : Focus α}
    (token : (view focus.here).token? = none)
    (starts : rule.startsAtNode (view focus.here).kind = false) :
    rule.apply view focus = .ok none := by
  have keyword (kind : TokenKind) : leaf? view kind focus.here = none := leaf?_of_not_leaf token
  cases rule with
  | bracket =>
    simp only [apply, applyBracket]
    split
    · next shown =>
      rw [shown] at token
      cases token
    · next shown =>
      rw [shown] at starts
      cases starts
    · rfl
  | call => simp only [apply, applyCall, keyword]; rfl
  | literal => simp only [apply, applyLiteral, token]; rfl
  | allColumns => simp only [apply, applyAllColumns, keyword]; rfl
  | column => simp only [apply, applyColumn, keyword]; rfl
  | membership =>
    have operand : isOperand view focus.here = false := starts
    simp only [apply, applyMembership, operand]
    rfl
  | operation =>
    have operand : isOperand view focus.here = false := starts
    simp only [apply, applyOperation, token, operand]
    rfl
  | conjunction =>
    have operand : isOperand view focus.here = false := starts
    simp only [apply, applyConjunction, token, operand]
    rfl
  | fromClause => simp only [apply, applyFromClause, keyword]; rfl
  | join =>
    have modifiers : takeModifiers view (focus.here :: focus.right) =
        ([], focus.here :: focus.right) := by
      have none : leafOf? view TokenKind.isJoinModifier focus.here = none := by
        rw [leafOf?, token]
        rfl
      rw [takeModifiers, none]
    simp only [apply, applyJoin, modifiers, keyword]
    split <;> rfl
  | whereClause => simp only [apply, applyWhereClause, takeRestriction?, keyword]; rfl
  | havingClause => simp only [apply, applyHavingClause, takeRestriction?, keyword]; rfl
  | groupBy => simp only [apply, applyGroupBy, keyword]; rfl
  | orderBy => simp only [apply, applyOrderBy, keyword]; rfl
  | select => simp only [apply, applySelect, keyword]; rfl
  | update => simp only [apply, applyUpdate, keyword]; rfl

/-- A rule declines where it does not start. -/
theorem apply_of_not_startsAt {rule : Rule} {focus : Focus α}
    (starts : rule.startsAt (view focus.here) = false) : rule.apply view focus = .ok none := by
  cases shown : view focus.here with
  | leaf t =>
    rw [shown] at starts
    exact apply_of_leaf shown starts
  | _ =>
    rw [shown] at starts
    exact apply_of_node (by rw [shown]; rfl) (by rw [shown]; exact starts)

end SqlFold.Rule
