import SqlFold.Proofs.Cover.Starts
import SqlFold.Proofs.Cover.Taken

/-!
# Leaves that a rule consumes

`Rule.consumes` lists the kinds of which a rule leaves no leaf when it comes to rest: it does not decline
at such a leaf, or not at the sibling before it, or not at the first of the words before it. Every fold
by one of these rules takes a leaf that is consumed (`Node.Written.exists_consumed`).
-/

namespace SqlFold

variable {α β : Type}

namespace Rule

/-- Whether a rule never comes to rest before a leaf of the given kind is taken. -/
def consumes : Rule → TokenKind → Bool
  | literal, kind => isValueKind kind
  | allColumns, kind => kind == .star
  | operation, kind => startsOperator kind
  | conjunction, kind => joinsOperands kind
  | join, kind => kind == .joinKw
  | whereClause, kind => kind == .whereKw
  | havingClause, kind => kind == .havingKw
  | groupBy, kind => kind == .groupKw
  | orderBy, kind => kind == .orderKw
  | _, _ => false

variable {view : α → Node α} {left right : List α} {here : α} {t : Token}

/-- A reading that goes on to an answer never declines if the answer does not. -/
theorem bind_ne_none {x : Checked α β} {k : β → Checked α (Option (Fold α))}
    (later : ∀ b, k b ≠ .ok none) : (x >>= k) ≠ .ok none := by
  intro eq
  obtain ⟨b, _, eq⟩ := bind_eq_ok eq
  exact later b eq

theorem fold_ne_none {node : Node (Origin α)} : fold left node right ≠ .ok none := nofun

theorem object_ne_none {fault : Fault} :
    (object here fault : Checked α (Option (Fold α))) ≠ .ok none := nofun

/-- Rules that answer at every leaf of some kinds. -/
theorem apply_ne_none {rule : Rule} (shown : view here = .leaf t) (consumes : rule.consumes t.kind = true)
    (alone : rule ≠ .operation ∧ rule ≠ .conjunction ∧ rule ≠ .join) :
    rule.apply view ⟨left, here, right⟩ ≠ .ok none := by
  have keyword {kind : TokenKind} (same : (t.kind == kind) = true) : leaf? view kind here = some t := by
    rw [leaf?_of_leaf shown, if_pos (beq_iff_eq.mp same)]
  have restriction {kind : TokenKind} (same : (t.kind == kind) = true) :
      takeRestriction? view kind ⟨left, here, right⟩ ≠ .ok none := by
    rw [takeRestriction?, keyword same]
    cases right with
    | nil => rintro ⟨⟩
    | cons a after =>
      dsimp only
      split <;> rintro ⟨⟩
  cases rule with
  | literal =>
    simp only [apply, applyLiteral, shown, Node.token?]
    rw [if_pos (show isValueKind t.kind = true from consumes)]
    exact fold_ne_none
  | allColumns =>
    simp only [apply, applyAllColumns, keyword consumes]
    exact bind_ne_none fun _ => fold_ne_none
  | whereClause =>
    intro declined
    obtain ⟨s, taken, eq⟩ := bind_eq_ok declined
    cases s with
    | none => exact restriction consumes taken
    | some => cases eq
  | havingClause =>
    intro declined
    obtain ⟨s, taken, eq⟩ := bind_eq_ok declined
    cases s with
    | none => exact restriction consumes taken
    | some => cases eq
  | groupBy =>
    simp only [apply, applyGroupBy, keyword consumes]
    split
    · exact object_ne_none
    · split
      · exact object_ne_none
      · exact bind_ne_none fun _ => fold_ne_none
  | orderBy =>
    simp only [apply, applyOrderBy, keyword consumes]
    split
    · exact object_ne_none
    · split
      · exact object_ne_none
      · exact bind_ne_none fun _ => fold_ne_none
  | operation => exact absurd rfl alone.1
  | conjunction => exact absurd rfl alone.2.1
  | join => exact absurd rfl alone.2.2
  | _ => cases consumes

/-- An operand is no leaf. -/
theorem token?_of_isOperand {a : α} (operand : isOperand view a = true) : (view a).token? = none := by
  rw [isOperand, Node.isExpression] at operand
  cases shown : view a with
  | leaf =>
    rw [shown] at operand
    cases operand
  | _ => rfl

/-- What is asked of the nearest sibling. -/
theorem head?_any {p : α → Bool} {as : List α} (holds : as.head?.any p = true) :
    ∃ a rest, as = a :: rest ∧ p a = true := by
  cases as with
  | nil => cases holds
  | cons a rest => exact ⟨a, rest, rfl, holds⟩

/-- An operator is read at a leaf that starts one. -/
theorem exists_takeOperator? (shown : view here = .leaf t) (starts : startsOperator t.kind = true) :
    ∃ operator, takeOperator? view (here :: right) = some operator := by
  have single (rest : List α) : takeOperator?.single t here rest = some ⟨[t], here, rest⟩ := if_pos starts
  have token : (view here).token? = some t := by rw [shown]; rfl
  unfold takeOperator?
  simp only [token]
  cases right with
  | nil => exact ⟨_, single []⟩
  | cons b after =>
    dsimp only
    split
    · split
      · exact ⟨_, rfl⟩
      · exact ⟨_, single _⟩
    · next notKw _ =>
      rw [notKw] at starts
      cases starts
    · exact ⟨_, single _⟩

/-- `Rule.operation` does not decline both at an operator and at the sibling before it. -/
theorem operation_ne_none (shown : view here = .leaf t) (starts : startsOperator t.kind = true)
    (declined : applyOperation view ⟨left, here, right⟩ = .ok none) :
    ∃ a before, left = a :: before ∧ applyOperation view ⟨before, a, here :: right⟩ ≠ .ok none := by
  have token : (view here).token? = some t := by rw [shown]; rfl
  simp only [applyOperation, token, starts, Bool.true_and] at declined
  split at declined
  · exact absurd declined object_ne_none
  · next operandBefore =>
    rw [Bool.not_eq_true, Bool.not_eq_false'] at operandBefore
    obtain ⟨a, before, rfl, operand⟩ := head?_any operandBefore
    obtain ⟨operator, read⟩ : ∃ operator, takeOperator? view (here :: right) = some operator :=
      exists_takeOperator? shown starts
    refine ⟨a, before, rfl, ?_⟩
    simp only [applyOperation, token?_of_isOperand operand, operand, if_true, read]
    split
    · exact object_ne_none
    · split
      · exact fold_ne_none
      · exact object_ne_none

/-- `Rule.conjunction` does not decline both at a joining word and at the sibling before it. -/
theorem conjunction_ne_none (shown : view here = .leaf t) (joins : joinsOperands t.kind = true)
    (declined : applyConjunction view ⟨left, here, right⟩ = .ok none) :
    ∃ a before, left = a :: before ∧ applyConjunction view ⟨before, a, here :: right⟩ ≠ .ok none := by
  have token : (view here).token? = some t := by rw [shown]; rfl
  have word : leafOf? view joinsOperands here = some t := leafOf?_eq_some.mpr ⟨shown, joins⟩
  simp only [applyConjunction, token, joins, Bool.true_and] at declined
  split at declined
  · exact absurd declined object_ne_none
  · next operandBefore =>
    rw [Bool.not_eq_true, Bool.not_eq_false'] at operandBefore
    obtain ⟨a, before, rfl, operand⟩ := head?_any operandBefore
    refine ⟨a, before, rfl, ?_⟩
    simp only [applyConjunction, token?_of_isOperand operand, operand, if_true]
    intro declined
    obtain ⟨s, taken, eq⟩ := bind_eq_ok declined
    split at eq
    · cases right with
      | nil =>
        simp only [takeJuncts, word] at taken
        cases taken
      | cons b rest =>
        simp only [takeJuncts, word] at taken
        split at taken
        · obtain ⟨_, _, eq⟩ := bind_eq_ok taken
          cases eq
        · cases taken
    · exact fold_ne_none eq

/-- `Rule.join` does not decline at the first of the words up to a `JOIN`. -/
theorem applyJoin_ne_none {modifiers : List Token} {word : α} {rest : List α}
    (first : (left.head?.any fun a => (leafOf? view TokenKind.isJoinModifier a).isSome) = false)
    (read : takeModifiers view (here :: right) = (modifiers, word :: rest))
    (isWord : leaf? view .joinKw word = some t) :
    applyJoin view ⟨left, here, right⟩ ≠ .ok none := by
  unfold applyJoin
  simp only [first, Bool.false_eq_true, if_false, read, isWord]
  refine bind_ne_none fun source => ?_
  split
  · exact object_ne_none
  · exact bind_ne_none fun _ => bind_ne_none fun _ => fold_ne_none

/-- So it does not decline at all of them. -/
theorem join_ne_none {modifiers : List Token} {word : α} {rest : List α}
    (read : takeModifiers view (here :: right) = (modifiers, word :: rest))
    (isWord : leaf? view .joinKw word = some t) :
    ∃ left' here' right', List.reverse left ++ here :: right = List.reverse left' ++ here' :: right' ∧
      applyJoin view ⟨left', here', right'⟩ ≠ .ok none := by
  induction left generalizing here right modifiers with
  | nil => exact ⟨[], here, right, rfl, applyJoin_ne_none rfl read isWord⟩
  | cons a left ih =>
    cases modifier : leafOf? view TokenKind.isJoinModifier a with
    | some u =>
      have longer : takeModifiers view (a :: here :: right) = (u :: modifiers, word :: rest) := by
        rw [takeModifiers, modifier, read]
      obtain ⟨left', here', right', split, answers⟩ := ih longer
      exact ⟨left', here', right', by simpa using split, answers⟩
    | none =>
      refine ⟨a :: left, here, right, rfl, applyJoin_ne_none ?_ read isWord⟩
      rw [List.head?_cons, Option.any_some, modifier]
      rfl

/-- `JOIN` itself is no modifier. -/
theorem takeModifiers_of_join (shown : view here = .leaf t) (word : t.kind = .joinKw) :
    takeModifiers view (here :: right) = ([], here :: right) := by
  have none : leafOf? view TokenKind.isJoinModifier here = none := by
    rw [leafOf?, shown, Node.token?, Option.filter_some, word]
    rfl
  rw [takeModifiers, none]

/-- Whether a leaf of the given kind is consumed by some rule. -/
def isConsumed (kind : TokenKind) : Bool := standard.any (consumes · kind)

theorem isConsumed_of_consumes {rule : Rule} {kind : TokenKind} (consumed : rule.consumes kind = true) :
    isConsumed kind = true := List.any_eq_true.mpr ⟨rule, mem_standard rule, consumed⟩

end Rule

/-- The last of several names joined by points. -/
theorem Dotted.mem {names : List Token} {ps : List (Piece α)} (dotted : Dotted names ps) {t : Token}
    (mem : t ∈ names) : .token t ∈ ps := by
  induction dotted with
  | single name => rw [List.mem_singleton.mp mem]; exact List.mem_cons_self
  | cons _ _ ih =>
    rcases List.mem_cons.mp mem with rfl | mem
    · exact List.mem_cons_self
    · exact List.mem_cons_of_mem _ (List.mem_cons_of_mem _ (ih mem))

/-- The layers that are made by taking a leaf that is consumed. -/
theorem Node.Written.exists_consumed {glance : α → Glance} {n : Node α} {ps : List (Piece α)}
    (written : n.Written ps) (slots : n.Slots glance)
    (made : n.kind ∉ [.tokenLeaf, .column, .table, .bracket, .call, .fromClause, .select, .update, .root]) :
    ∃ t, .token t ∈ ps ∧ Rule.isConsumed t.kind = true := by
  have by_rule {t : Token} (rule : Rule) (consumed : rule.consumes t.kind = true) :
      Rule.isConsumed t.kind = true := Rule.isConsumed_of_consumes consumed
  have of_kind {t : Token} {kind : TokenKind} (same : t.kind = kind)
      (consumed : Rule.isConsumed kind = true) : Rule.isConsumed t.kind = true := same ▸ consumed
  cases written with
  | literal l => exact ⟨l.value, by simp, by_rule .literal slots.1⟩
  | allColumns names => exact ⟨_, names.mem (by simp), of_kind slots.2.2 (by decide)⟩
  | operation o =>
    obtain ⟨_, _, shape⟩ := slots
    have read {t : Token} (mem : t ∈ o.operator) :
        .token t ∈ (Piece.child o.left :: o.operator.map .token ++ [Piece.child o.right]) := by
      simp [mem]
    generalize o.operator = words at shape read
    cases shape with
    | single starts => exact ⟨_, read List.mem_cons_self, by_rule .operation starts⟩
    | isNot isKw => exact ⟨_, read List.mem_cons_self, of_kind isKw (by decide)⟩
    | @notLike _ u _ word =>
      refine ⟨u, read (by simp), ?_⟩
      rcases word with word | word
      · exact of_kind word (by decide)
      · exact of_kind word (by decide)
  | membership o => exact ⟨o.keyword, by simp, of_kind slots.2.2.2 (by decide)⟩
  | conjunction c =>
    obtain ⟨t, shown, joins⟩ := slots.2.2 c.second List.mem_cons_self
    refine ⟨t, ?_, by_rule .conjunction joins⟩
    simp [Conjunction.parts, shown]
  | join named =>
    obtain ⟨⟨modifiers, word, keywords, isJoin, _⟩, _⟩ := slots
    refine ⟨word, ?_, of_kind isJoin (by decide)⟩
    simp [keywords]
  | whereClause c => exact ⟨c.keyword, by simp [Restriction.pieces], of_kind slots.1 (by decide)⟩
  | havingClause c => exact ⟨c.keyword, by simp [Restriction.pieces], of_kind slots.1 (by decide)⟩
  | groupBy => exact ⟨_, List.mem_cons_self, of_kind slots.1 (by decide)⟩
  | orderBy => exact ⟨_, List.mem_cons_self, of_kind slots.1 (by decide)⟩
  | _ => simp [Node.kind] at made

end SqlFold
