import SqlFold.Proofs.Chains
import SqlFold.Proofs.Embedding
import SqlFold.Proofs.Rows.Objections

/-!
# Assignments

`Rule.operation` folds from the left, and to it the `=` of an assignment is an operator like any other. So the value behind
`SET column =` is folded alone first, up to the operations, and then the column and `=` go to its first operand
(`Setting.exists_terms`). Where the value is no operation this operand is the value, and the text becomes an update
(`Setting.parses_statement`). Where it is an operation it becomes one whose left side is an operation as well
(`Tree.Regrafted`), and `Rule.update` objects to it (`Setting.settle_objected`).
-/

namespace SqlFold

open Forest

/-! ## Operations from the left -/

/-- The second tree is the first one, but at the left end of its operations `x'` stands where `x` stood. -/
inductive Tree.Regrafted (x x' : Bare) : Bare → Bare → Prop
  | here : Regrafted x x' x x'
  | left {l l' r : Bare} {operator : List Token} : Regrafted x x' l l' →
      Regrafted x x' (.mk () (.operation ⟨l, operator, r⟩)) (.mk () (.operation ⟨l', operator, r⟩))

namespace Tree.Regrafted

variable {x x' y y' : Bare}

/-- Where operations are changed, an operation comes out. -/
theorem kind (grafted : Regrafted x x' y y') (operation : x'.kind = .operation) : y'.kind = .operation := by
  cases grafted with
  | here => exact operation
  | left => rfl

/-- The tree starts with what was put in. -/
theorem leadingToken? (grafted : Regrafted x x' y y') {t : Token} (leads : x'.leadingToken? = some t) :
    y'.leadingToken? = some t := by
  induction grafted with
  | here => exact leads
  | left _ ih =>
    rw [leadingToken?_mk]
    simp [Node.leadingToken?, Node.parts, ih]

/-- Where something else than an operation was replaced in an operation, the left side has become an operation. -/
theorem exists_left (grafted : Regrafted x x' y y') (operation : x'.kind = .operation) (isOperation : y.kind = .operation)
    (other : x.kind ≠ .operation) : ∃ o : Operation Bare, y' = .mk () (.operation o) ∧ o.left.kind = .operation := by
  cases grafted with
  | here => exact absurd isOperation other
  | left grafted => exact ⟨_, rfl, grafted.kind operation⟩

end Tree.Regrafted

namespace Rule

variable {α : Type} {view : α → Node α} {left left' right after : List α} {here a : α} {operator : Operator α}

/-- `Rule.operation` folds two operands and what stands between them. -/
theorem applyOperation_of_operands (left : List α) (operand : isOperand view here = true) (read : takeOperator? view right = some operator)
    (behind : operator.after = a :: after) (operand' : isOperand view a = true) :
    applyOperation view ⟨left, here, right⟩ =
      .ok (some ⟨left, .operation ⟨.sibling here, operator.tokens, .sibling a⟩, after⟩) := by
  simp only [applyOperation, token?_of_isOperand operand, operand, read, behind, operand', if_true]
  rfl

/-- `Rule.operation` declines at an operand exactly where no operator follows. -/
theorem applyOperation_eq_none_iff (operand : isOperand view here = true) :
    applyOperation view ⟨left, here, right⟩ = .ok none ↔ takeOperator? view right = none := by
  simp only [applyOperation, token?_of_isOperand operand, operand, if_true]
  cases read : takeOperator? view right with
  | none => exact ⟨fun _ => rfl, fun _ => rfl⟩
  | some operator =>
    refine ⟨fun declined => ?_, nofun⟩
    dsimp only at declined
    split at declined
    · exact (object_ne declined).elim
    · split at declined
      · exact (fold_ne_none declined).elim
      · exact (object_ne declined).elim

/-- On the left `Rule.operation` looks only whether an operand stands there. -/
theorem applyOperation_eq_none_of_left (same : left.head?.any (isOperand view) = left'.head?.any (isOperand view))
    (declined : applyOperation view ⟨left, here, right⟩ = .ok none) :
    applyOperation view ⟨left', here, right⟩ = .ok none := by
  by_cases operand : isOperand view here = true
  · rwa [applyOperation_eq_none_iff operand] at declined ⊢
  · simp only [applyOperation, operand, same] at declined ⊢
    exact declined

end Rule

namespace Row

variable {x x' y y' e : Bare} {row row' ρ : Row} {n : Nat}

/-- A place in a row is the front or lies behind it. -/
theorem front_or_behind {left right : Row} {here : Bare} (split : y :: ρ = left.reverse ++ here :: right) :
    (left = [] ∧ here = y ∧ right = ρ) ∨ ∃ between, left = between ++ [y] ∧ ρ = between.reverse ++ here :: right := by
  rcases List.eq_nil_or_concat' left with rfl | ⟨between, t, rfl⟩
  · obtain ⟨rfl, rfl⟩ := List.cons.inj split
    exact .inl ⟨rfl, rfl, rfl⟩
  · rw [List.reverse_append, List.reverse_singleton, List.append_assoc, List.singleton_append] at split
    obtain ⟨rfl, rfl⟩ := List.cons.inj split
    exact .inr ⟨between, rfl, rfl⟩

/-- What comes to rest with a tree was no empty row. -/
theorem Rests.ne_nil {rule : Rule} (rests : Rests rule row [e]) : row ≠ [] := by
  rintro rfl
  generalize none : ([] : Row) = before at rests
  generalize whole : [e] = after at rests
  cases rests with
  | fold => simp at none

/-- Behind the front of a row a fold leaves the front as it is. -/
theorem row_of_behind {fold : Fold Bare} {between : Row} (left : fold.left = between ++ [y]) :
    fold.row = y :: (between.reverse ++ fold.tree :: fold.right) := by
  rw [Fold.row, left]
  simp

/-- What stands at the front of a row stays there until `Rule.operation` takes it as an operand. -/
theorem Rests.front_operation (rests : Rests .operation row row') (whole : row = y :: ρ)
    (other : Rule.isOperand Tree.node y = false) : ∃ ρ', row' = y :: ρ' := by
  induction rests generalizing ρ with
  | rest => exact ⟨ρ, whole⟩
  | @fold left right _ here fold _ answer _ ih =>
    obtain ⟨operator, a, after, operand, _, _, _, rfl⟩ := Rule.applyOperation_fold answer
    rcases front_or_behind whole.symm with ⟨-, rfl, -⟩ | ⟨between, rfl, -⟩
    · cases operand.symm.trans other
    · exact ih (row_of_behind rfl)

/-- A place in a row that does not lie in its front lies behind it. -/
theorem behind_of_length_le {A B left right : Row} {here : Bare} (split : A ++ B = left.reverse ++ here :: right)
    (long : A.length ≤ left.length) :
    ∃ between, left = between ++ A.reverse ∧ B = between.reverse ++ here :: right := by
  induction A generalizing left with
  | nil => exact ⟨left, by simp, split⟩
  | cons t A ih =>
    rcases front_or_behind split with ⟨rfl, -⟩ | ⟨between, rfl, behind⟩
    · simp at long
    · obtain ⟨between, rfl, rfl⟩ := ih behind (by simpa using long)
      exact ⟨between, by simp, rfl⟩

/-- `Rule.membership` does not look to the left. -/
theorem Rests.behind_membership {A B B' : Row} (idle : ∀ B, DeclinedBefore .membership A.length (A ++ B))
    (rests : Rests .membership B B') : Rests .membership (A ++ B) (A ++ B') := by
  have both (left right : Row) (here : Bare) :
      Rule.Both (Option.map (Fold.widen A.reverse [])) (Rule.apply Tree.node .membership ⟨left, here, right⟩)
        (Rule.apply Tree.node .membership ⟨left ++ A.reverse, here, right⟩) := by
    have both : Rule.Both (Option.map (Fold.widen A.reverse [])) (Rule.apply Tree.node .membership ⟨left, here, right⟩)
        (Rule.apply Tree.node .membership (Focus.widen A.reverse [] ⟨left, here, right⟩)) :=
      Rule.applyMembership_widen Rule.edge_nil _
    rwa [Focus.widen, List.append_nil] at both
  have declined {n : Nat} {B : Row} (before : DeclinedBefore .membership n B) :
      DeclinedBefore .membership (n + A.length) (A ++ B) := by
    intro l h r split few
    -- In the value the rule does what it did there, and before the value it is idle.
    by_cases long : A.length ≤ l.length
    · obtain ⟨between, rfl, rfl⟩ := behind_of_length_le split long
      have lifted := both between r h
      rw [before between h r rfl (by simp at few; omega)] at lifted
      exact lifted.right_none
    · exact idle B l h r split (by omega)
  induction rests with
  | rest rested =>
    rw [declined_iff] at rested
    exact .rest (declined_iff.mpr fun n l h r split few => declined (rested n) l h r split (by omega))
  | @fold left right row' here fold before answer _ ih =>
    have lifted := both left right here
    rw [answer] at lifted
    have row : (fold.widen A.reverse []).row = A ++ fold.row := by simp [Fold.row, Fold.widen, Fold.tree]
    have whole : A ++ (left.reverse ++ here :: right) = (left ++ A.reverse).reverse ++ here :: right := by simp
    rw [whole]
    refine .fold ?_ lifted.right_some (row ▸ ih)
    rw [← whole]
    simpa using declined before

section Operands

variable (operand : Rule.isOperand Tree.node y = true) (operand' : Rule.isOperand Tree.node y' = true)

include operand operand'

/-- Where one operand at the front of a row is replaced by another, `Rule.operation` declines as before. -/
theorem DeclinedBefore.replace_front (declined : DeclinedBefore .operation n (y :: ρ)) :
    DeclinedBefore .operation n (y' :: ρ) := by
  intro l h r split few
  rcases front_or_behind split with ⟨rfl, rfl, rfl⟩ | ⟨between, rfl, rfl⟩
  · exact (Rule.applyOperation_eq_none_iff operand').mpr
      ((Rule.applyOperation_eq_none_iff operand).mp (declined [] y r rfl few))
  · have same : (between ++ [y]).head?.any (Rule.isOperand Tree.node) =
        (between ++ [y']).head?.any (Rule.isOperand Tree.node) := by
      cases between with
      | nil => exact operand.trans operand'.symm
      | cons => rfl
    exact Rule.applyOperation_eq_none_of_left same (declined (between ++ [y]) h r (by simp) (by simpa using few))

end Operands

/-- Where one operand at the front of a row is replaced by another, `Rule.operation` folds the row as before. -/
theorem Rests.regraft (rests : Rests .operation row row') (whole : row = y :: ρ)
    (operand : Rule.isOperand Tree.node y = true) (operand' : Rule.isOperand Tree.node y' = true)
    (grafted : Tree.Regrafted x x' y y') :
    ∃ z z' ρ', row' = z :: ρ' ∧ Tree.Regrafted x x' z z' ∧ Rests .operation (y' :: ρ) (z' :: ρ') := by
  induction rests generalizing y y' ρ with
  | rest declined =>
    subst whole
    rw [declined_iff] at declined
    exact ⟨y, y', ρ, rfl, grafted, .rest (declined_iff.mpr fun n => (declined n).replace_front operand operand')⟩
  | @fold left right _ here fold before answer _ ih =>
    obtain ⟨operator, a, after, stands, read, behind, stands', rfl⟩ := Rule.applyOperation_fold answer
    rw [whole] at before
    replace before := before.replace_front operand operand'
    -- A fold at the front takes the operand into the operation it makes, one behind the front leaves it there.
    rcases front_or_behind whole.symm with ⟨rfl, rfl, rfl⟩ | ⟨between, rfl, rfl⟩
    · obtain ⟨z, z', ρ', rfl, regrafted, rests⟩ := ih rfl rfl rfl (.left grafted)
      refine ⟨z, z', ρ', rfl, regrafted, ?_⟩
      have answer' := Rule.applyOperation_of_operands [] operand' read behind stands'
      exact @Rests.fold .operation [] _ _ _ _ before answer' rests
    · obtain ⟨z, z', ρ', rfl, regrafted, rests⟩ := ih (row_of_behind rfl) operand operand' grafted
      refine ⟨z, z', ρ', rfl, regrafted, ?_⟩
      have answer' := Rule.applyOperation_of_operands (between ++ [y']) stands read behind stands'
      have row : y' :: (between.reverse ++ here :: right) = (between ++ [y']).reverse ++ here :: right := by simp
      rw [row] at before ⊢
      refine .fold (by simpa using before) answer' ?_
      rw [row_of_behind rfl]
      exact rests

end Row

/-! ## An expression behind `SET column =` -/

/-- The words of `UPDATE table SET column =`. -/
structure Setting where
  update : Word .updateKw
  table : Word .symbol
  set : Word .setKw
  column : Word .symbol
  equals : {t : Token // t.kind = .operator ∧ t.lexeme = "="}

namespace Setting

open Row

variable (q : Setting) {ts : List Token} {row row' : Row} {e : Bare}

/-- The column that is set. -/
def target : Bare := .mk () (.column ⟨none, none, q.column⟩)

/-- The equation of the column with a value. -/
def assign (e : Bare) : Bare := .mk () (.operation ⟨q.target, [q.equals.val], e⟩)

theorem isLink : isLinkKind q.equals.val.kind = true := by
  rw [q.equals.property.1]
  rfl

/-- Before a value, `Rule.membership` has nothing to do. -/
theorem declined_membership (B : Row) : DeclinedBefore .membership 2 ([q.target, .mk () (.leaf q.equals)] ++ B) := by
  have noWord (kind : TokenKind) (other : TokenKind.operator ≠ kind) :
      Rule.takeLeaf? Tree.node kind (.mk () (.leaf q.equals) :: B) = none := by
    simp [Rule.takeLeaf?, Rule.leaf?, Tree.node, Node.token?, q.equals.property.1, other]
  intro l h r split few
  rcases front_or_behind split with ⟨rfl, rfl, rfl⟩ | ⟨between, rfl, behind⟩
  · show Rule.applyMembership Tree.node ⟨[], q.target, .mk () (.leaf q.equals) :: B⟩ = .ok none
    simp only [Rule.applyMembership, noWord .notKw (by decide), noWord .inKw (by decide)]
    split <;> rfl
  · rcases front_or_behind behind with ⟨rfl, rfl, rfl⟩ | ⟨between, rfl, -⟩
    · rfl
    · simp at few

/-- The rules before `Rule.operation` make the same of a value behind `column =` as they make of it alone. -/
theorem rests_value {γ : Row} (grouped : Grouped Parses none (leaves ts) γ)
    (rests : RestsAll [.call, .literal, .allColumns, .column, .membership] γ row) :
    ∃ between, Grouped Parses none (leaves (q.column.val :: q.equals.val :: ts)) between ∧
      RestsAll [.call, .literal, .allColumns, .column, .membership] between
        (q.target :: .mk () (.leaf q.equals) :: row) := by
  obtain @⟨γ₀, γ₁, γ₂, grouped', call', literal', closes, names'⟩ := (Chain.Operand.name q.column).named
  cases rests with
  | cons call rests =>
  cases rests with
  | cons literal rests =>
  obtain ⟨_, names, memberships⟩ := @RestsAll.of_append _ _ [.allColumns, .column] [.membership] rests
  cases memberships with
  | cons membership done =>
  cases done
  -- At `=` the rows of the column and of the value meet. Only `Rule.membership` does not part there.
  have isLink := q.isLink
  have groups : Grouped Parses none (leaves ([q.column.val] ++ q.equals.val :: ts)) (γ₀ ++ .mk () (.leaf q.equals) :: γ) := by
    rw [leaves_append]
    exact (grouped' none rfl).append (grouped_link isLink fun _ noName => grouped.change noName.symm)
  refine ⟨_, groups, ?_⟩
  have calls := call'.join (divides_link isLink (by decide)) call
  have literals := literal'.meet (dividesBehind_link isLink fun _ => closes) literal
  have columns := (restsAll_split fun rule listed => divides_link isLink (List.mem_cons_of_mem _ listed)).mpr
    ⟨_, _, names', names, rfl⟩
  have kept : Rests .membership ([q.target, .mk () (.leaf q.equals)] ++ _) _ :=
    membership.behind_membership q.declined_membership
  exact .cons calls (.cons literals (columns.append (.cons kept .nil)))

/-- What `Rule.operation` folds first behind `SET`: the equation of the column with the next operand. -/
theorem rests_equation {x : Bare} {ρ : Row} (operand : Rule.isOperand Tree.node x = true)
    (rests : Rests .operation (q.assign x :: ρ) row) :
    Rests .operation (q.target :: .mk () (.leaf q.equals) :: x :: ρ) row := by
  have token : (Tree.node (.mk () (.leaf q.equals.val) : Bare)).token? = some q.equals.val := rfl
  have read : Rule.takeOperator? Tree.node (.mk () (.leaf q.equals.val) :: x :: ρ) =
      some ⟨[q.equals.val], .mk () (.leaf q.equals), x :: ρ⟩ := by
    simp [Rule.takeOperator?, Rule.takeOperator?.single, Rule.startsOperator, token, Rule.token?_of_isOperand operand,
      q.equals.property.1]
  have isColumn : Rule.isOperand Tree.node q.target = true := rfl
  have answer := Rule.applyOperation_of_operands [] isColumn read rfl operand
  exact @Rests.fold .operation [] _ _ _ _ (fun _ _ _ _ few => absurd few (Nat.not_lt_zero _)) answer rests

/-- What the rules on operands make of a value behind `column =`: the equation of the column with the value, unless the
value is an operation. Then the column and `=` get into its leftmost operand. -/
theorem exists_terms (parses : Parses (leaves ts) [e]) (isExpression : e.kind.isExpression = true)
    (noConjunction : e.kind ≠ .conjunction) :
    ∃ between e', Grouped Parses none (leaves (q.column.val :: q.equals.val :: ts)) between ∧
      RestsAll (Rule.operandRules ++ [Rule.conjunction]) between [e'] ∧
        ((e.kind ≠ .operation ∧ e' = q.assign e) ∨
          e.kind = .operation ∧ ∃ x, x.kind ≠ .operation ∧ Tree.Regrafted x (q.assign x) e e') := by
  obtain @⟨_, γ, _, grouped, rests⟩ := id parses
  obtain ⟨row, names, terms⟩ := @RestsAll.of_append _ _ [.call, .literal, .allColumns, .column, .membership]
    [.operation, .conjunction] (rests.of_expression isExpression)
  obtain ⟨between, grouped', names'⟩ := q.rests_value grouped names
  cases terms with
  | @cons _ _ _ folded _ operation conjunction =>
  obtain rfl : folded = [e] := conjunction.eq_alone (by simpa [Rule.makes] using noConjunction)
  have whole {e' : Bare} (operand : Rule.isOperand Tree.node e' = true)
      (folds : Rests .operation (q.target :: .mk () (.leaf q.equals) :: row) [e']) :
      RestsAll (Rule.operandRules ++ [Rule.conjunction]) between [e'] :=
    names'.append (.cons folds (restsAll_alone (Rule.isItem_of_isOperand operand) (by decide)))
  have fresh : ∀ t ∈ row, t.kind ≠ .operation := by
    refine names.keeps (I := fun row => ∀ t ∈ row, t.kind ≠ .operation) (fun rule listed _ _ _ _ answer all => ?_)
      fun t mem => grouped.fresh (leaf_of_mem_leaves ts) t mem .operation (by decide)
    refine Rule.forall_row answer all ?_
    rw [Rule.kind_tree answer]
    revert listed
    cases rule <;> decide
  by_cases isOperation : e.kind = .operation
  · obtain ⟨x, ρ, rfl⟩ : ∃ x ρ, row = x :: ρ := List.exists_cons_of_ne_nil operation.ne_nil
    have operand : Rule.isOperand Tree.node x = true := by
      by_contra other
      obtain ⟨_, same⟩ := operation.front_operation rfl (by simpa using other)
      obtain ⟨rfl, -⟩ := List.cons.inj same
      exact other isExpression
    have operand' : Rule.isOperand Tree.node (q.assign x) = true := rfl
    obtain ⟨_, e', _, same, grafted, folds⟩ := operation.regraft rfl operand operand' .here
    obtain ⟨rfl, rfl⟩ := List.cons.inj same
    have operand' : Rule.isOperand Tree.node e' = true := by
      show e'.kind.isExpression = true
      rw [grafted.kind rfl]
      rfl
    exact ⟨between, e', grouped', whole operand' (q.rests_equation operand folds),
      .inr ⟨isOperation, x, fresh x List.mem_cons_self, grafted⟩⟩
  · obtain rfl : row = [e] := (RestsAll.cons operation .nil).eq_alone (by simpa [Rule.makes] using isOperation)
    have alone : Rests .operation [q.assign e] [q.assign e] :=
      .rest (declined_alone (Rule.isItem_of_isOperand rfl) (by decide))
    exact ⟨between, q.assign e, grouped', whole rfl (q.rests_equation isExpression alone), .inl ⟨isOperation, rfl⟩⟩

variable {s s' : Script} {limit limit' : Nat}

/-- The tokens of `UPDATE table SET column =`. -/
def words : List Token := [q.update, q.table, q.set, q.column, q.equals]

/-- The statement that sets the column to the value of an expression. -/
def statement (e : Bare) : Bare :=
  .mk () (.update ⟨q.update, .mk () (.table ⟨none, q.table⟩), none, [], q.set, [q.assign e], none, none⟩)

/-- The words before the column stand for themselves and a name. -/
theorem prepares : Prepares [q.update, q.table] [.mk () (.leaf q.update), .mk () (.column ⟨none, none, q.table⟩)] :=
  Prepares.nil.join (.name q.table) (by rw [q.update.property]; rfl)

theorem separates_set : separates q.set.val.kind = true := by
  rw [q.set.property]
  rfl

/-- An expression that is no operation and no conjunction is assigned as it stands. -/
theorem parses_statement (parses : Parses (leaves ts) [e]) (isExpression : e.kind.isExpression = true)
    (noConjunction : e.kind ≠ .conjunction) (noOperation : e.kind ≠ .operation) :
    Parses (leaves (q.words ++ ts)) [q.statement e] := by
  obtain ⟨between, e', grouped, terms, ⟨-, rfl⟩ | ⟨operation, -⟩⟩ := q.exists_terms parses isExpression noConjunction
  swap
  · exact absurd operation noOperation
  have done : RestsAll (Rule.clauseRules ++ Rule.statementRules) [q.assign e] [q.assign e] :=
    restsAll_alone rfl (by decide)
  have equation : Parses (leaves (q.column :: q.equals :: ts)) [q.assign e] := .mk grouped (terms.append done)
  have assigns : (Rule.glance Tree.node (q.assign e)).assigns = true := by
    show ((q.equals.val.lexeme == "=") && true) = true
    rw [q.equals.property.2]
    rfl
  refine Row.parses_statement equation rfl q.prepares q.separates_set rfl ⟨by simp [Node.kind], ?_, List.cons_ne_nil _ _⟩ ?_ ?_
  · have table : (Rule.glance Tree.node (.mk () (.table ⟨none, q.table⟩) : Bare)).kind = .table := rfl
    simpa [Node.Slots, q.update.property, q.set.property, table] using assigns
  · have value := (equation.regular _ (List.mem_singleton_self _)).node
    simpa using ⟨Tree.regular_table q.table, value⟩
  · have value : Layout.stage Rule.clauseRules (.child (q.assign e)) = [q.assign e] := rfl
    have table : Layout.stage Rule.clauseRules (.child (.mk () (.table ⟨none, q.table⟩))) =
        [.mk () (.column ⟨none, none, q.table⟩)] := rfl
    have word (t : Token) : Layout.stage Rule.clauseRules (.token t) = [.mk () (.leaf t)] := rfl
    simp [Node.layout, Layout.staged, Layout.listed, Layout.labelled, value, table, word]

/-- `Rule.update` objects to an operation behind `SET` whose left side is an operation. -/
theorem objects {o : Operation Bare} (left : o.left.kind = .operation) :
    Rule.apply Tree.node .update ⟨[], .mk () (.leaf q.update), [.mk () (.column ⟨none, none, q.table⟩), .mk () (.leaf q.set),
      .mk () (.operation o)]⟩ = .error ⟨.mk () (.operation o), .notAnAssignment⟩ := by
  have noAssignment : Rule.isAssignment Tree.node (.mk () (.operation o)) = false := by
    show (_ && Rule.isNode Tree.node .column o.left) = false
    rw [Rule.isNode, show (Tree.node o.left).kind = .operation from left]
    exact Bool.and_false _
  have refused : Rule.takeAssignments Tree.node false (.mk () (.leaf q.set)) [.mk () (.operation o)] =
      .error ⟨.mk () (.operation o), .notAnAssignment⟩ := by
    have operand : Rule.isOperand Tree.node (.mk () (.operation o) : Bare) = true := rfl
    rw [Rule.takeAssignments, if_pos operand, noAssignment]
    rfl
  have source : Rule.takeSource? Tree.node false [.mk () (.column ⟨none, none, q.table⟩), .mk () (.leaf q.set),
      .mk () (.operation o)] = .ok (some (.newTable ⟨none, q.table⟩, [.mk () (.leaf q.set), .mk () (.operation o)])) := rfl
  have noAlias : Rule.takeAlias Tree.node true ([] ++ [Tree.mk () (.leaf q.set), .mk () (.operation o)]) =
      .ok (none, [.mk () (.leaf q.set), .mk () (.operation o)]) := by
    refine takeAlias_bare none ?_
    rintro _ ⟨⟩
    refine ⟨rfl, ?_⟩
    show (some q.set.val.kind == some .asKw) = false
    rw [q.set.property]
    rfl
  have noJoins : Rule.takeNodes Tree.node .join [.mk () (.leaf q.set), .mk () (.operation o)] =
      ([], [.mk () (.leaf q.set), .mk () (.operation o)]) := rfl
  rw [List.nil_append] at noAlias
  simp only [Rule.apply, Rule.applyUpdate, leaf?_leaf q.update.property, source, noAlias, noJoins,
    leaf?_leaf q.set.property, refused, bind, Except.bind]

/-- What a run over the tokens of a value behind `UPDATE table SET column =` comes to, where the value is an operation. -/
theorem settle_objected (parses : Parses (leaves ts) [e]) (isOperation : e.kind = .operation)
    (enough : (q.words ++ ts).length < limit) :
    ∃ e' row, e'.leadingToken? = some q.column.val ∧
      settle (.standard limit) false ((q.words ++ ts).length + 1) (leaves (q.words ++ ts)) =
        .error (.objected ⟨e', .notAnAssignment⟩) row := by
  have isExpression : e.kind.isExpression = true := by rw [isOperation]; rfl
  obtain ⟨between, e', grouped, terms, ⟨other, -⟩ | ⟨-, x, fresh, grafted⟩⟩ :=
    q.exists_terms parses isExpression (by rw [isOperation]; nofun)
  · exact absurd isOperation other
  obtain ⟨grouped, terms⟩ := q.prepares.terms q.separates_set grouped terms
  obtain ⟨o, rfl, left⟩ := grafted.exists_left rfl isOperation fresh
  let row : Row := [.mk () (.leaf q.update), .mk () (.column ⟨none, none, q.table⟩), .mk () (.leaf q.set), .mk () (.operation o)]
  refine ⟨_, row, grafted.leadingToken? rfl, ?_⟩
  have idle : RestsAll (Rule.clauseRules ++ [Rule.select]) row row := by
    refine restsAll_of_idle fun rule listed => ?_
    have listed' : rule ∈ Rule.clauseRules ++ Rule.statementRules := by
      revert listed
      cases rule <;> decide
    have update : rule.startsAtLeaf q.update.val.kind = false := by
      rw [q.update.property]
      revert listed
      cases rule <;> decide
    have set : rule.startsAtLeaf q.set.val.kind = false := by
      rw [q.set.property]
      revert listed
      cases rule <;> decide
    simpa [row] using ⟨update, Rule.startsAt_clause listed' nofun, set, Rule.startsAt_clause listed' nofun⟩
  exact @Row.settle_objected .update (Rule.operandRules ++ [Rule.conjunction] ++ (Rule.clauseRules ++ [Rule.select])) [] [] _ _ _ _ _ _ _ rfl
    (leaf_of_mem_leaves _) (by rw [Folding.weight_leaves]) (by rwa [Folding.weight_leaves]) grouped (terms.append idle)
    (fun _ _ _ _ few => absurd few (Nat.not_lt_zero _)) (q.objects left)

end Setting

namespace Folding

variable {s s' : Script} {limit limit' : Nat} {e : Bare} (notesCalls : Bool)

end Folding

end SqlFold
