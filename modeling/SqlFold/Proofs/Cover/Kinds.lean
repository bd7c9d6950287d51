import SqlFold.Proofs.Cover.Clauses

/-!
# What kind of node a rule makes

`Rule.makes` is the kind of the nodes that a rule folds. Only `Rule.bracket` makes a branch, and
`Rule.applyBracket_fold` says which one. No rule makes more than one table: all that it takes from
the siblings but the source of rows are operands, brackets and clauses.
-/

namespace SqlFold

/-- The table that a fold makes for a sub-node. -/
def Origin.newTable? {α : Type} : Origin α → Option TableName
  | .sibling _ => none
  | .newTable name => some name

namespace Rule

variable {α β : Type} {view : α → Node α} {kind : NodeKind}

/-- The kind of the nodes that a rule folds. -/
def makes : Rule → NodeKind
  | bracket => .bracket
  | call => .call
  | literal => .literal
  | allColumns => .allColumns
  | column => .column
  | membership => .membership
  | operation => .operation
  | conjunction => .conjunction
  | fromClause => .fromClause
  | join => .join
  | whereClause => .whereClause
  | havingClause => .havingClause
  | groupBy => .groupBy
  | orderBy => .orderBy
  | select => .select
  | update => .update

/-- The tables that a fold makes for sub-nodes. -/
def newTables (os : List (Origin α)) : List TableName := os.filterMap Origin.newTable?

@[simp] theorem newTables_nil : newTables ([] : List (Origin α)) = [] := rfl

@[simp] theorem newTables_sibling (a : α) (os : List (Origin α)) :
    newTables (.sibling a :: os) = newTables os := rfl

@[simp] theorem newTables_append (os os' : List (Origin α)) :
    newTables (os ++ os') = newTables os ++ newTables os' :=
  List.filterMap_append

@[simp] theorem newTables_siblings (as : List α) : newTables (as.map .sibling) = [] := by
  induction as with
  | nil => rfl
  | cons a as ih => exact ih

@[simp] theorem newTables_sibling? (a : Option α) : newTables (a.map .sibling).toList = [] := by
  cases a <;> rfl

/-- Nothing but the first sub-node may be a new table. -/
theorem length_newTables_cons {os : List (Origin α)} (o : Origin α) (plain : newTables os = []) :
    (newTables (o :: os)).length ≤ 1 := by
  rw [← List.singleton_append, newTables_append, plain, List.append_nil]
  exact List.length_filterMap_le _ _

/-- What is no table was not made. -/
theorem newTables_of_kind (view : α → Node α) {os : List (Origin α)}
    (others : ∀ o ∈ os, (glanceOrigin view o).kind ≠ .table) : newTables os = [] := by
  refine List.filterMap_eq_nil_iff.mpr fun o mem => ?_
  cases o with
  | sibling a => rfl
  | newTable name => exact absurd rfl (others _ mem)

/-- Operands are no tables. -/
theorem newTables_operands {part : β → Origin α} {bs : List β}
    (operands : ∀ b ∈ bs, (glanceOrigin view (part b)).kind.isExpression = true) :
    newTables (bs.map part) = [] := by
  refine newTables_of_kind view (List.forall_mem_map.mpr fun b mem table => ?_)
  have operand := operands b mem
  rw [table] at operand
  cases operand

/-- Whether a folded node, if there is one, is of the given kind and has no more than one new table
below it. -/
def FoldsOnly (kind : NodeKind) (answer : Checked α (Option (Fold α))) : Prop :=
  ∀ f, answer = .ok (some f) → f.node.kind = kind ∧ (newTables f.node.children).length ≤ 1

theorem foldsOnly_decline : FoldsOnly kind (decline : Checked α (Option (Fold α))) :=
  fun _ eq => (decline_ne eq).elim

theorem foldsOnly_object {culprit : α} {fault : Fault} : FoldsOnly kind (object culprit fault) :=
  fun _ eq => (object_ne eq).elim

theorem foldsOnly_missingAfter {culprit : α} {wanted : Wanted} :
    FoldsOnly kind (missingAfter view culprit wanted) := foldsOnly_object

theorem foldsOnly_fold {left right : List α} {node : Node (Origin α)} (made : node.kind = kind)
    (tables : (newTables node.children).length ≤ 1) : FoldsOnly kind (fold left node right) := by
  intro f eq
  rw [fold_eq_ok eq]
  exact ⟨made, tables⟩

/-- A node without new tables below it. -/
theorem foldsOnly_plain {left right : List α} {node : Node (Origin α)} (made : node.kind = kind)
    (plain : newTables node.children = []) : FoldsOnly kind (fold left node right) :=
  foldsOnly_fold made (by simp [plain])

theorem foldsOnly_bind {x : Checked α β} {k : β → Checked α (Option (Fold α))}
    (later : ∀ b, x = .ok b → FoldsOnly kind (k b)) : FoldsOnly kind (x >>= k) := by
  intro f eq
  obtain ⟨b, taken, eq⟩ := bind_eq_ok eq
  exact later b taken f eq

/-- What a rule folds is of its kind and has no more than one new table. -/
theorem apply_foldsOnly (rule : Rule) (focus : Focus α) :
    FoldsOnly rule.makes (rule.apply view focus) := by
  cases rule with
  | bracket =>
    show FoldsOnly _ (applyBracket view focus)
    unfold applyBracket
    split
    · split
      · split
        · exact foldsOnly_plain rfl (by simp)
        · exact foldsOnly_object
      · split
        · exact foldsOnly_object
        · exact foldsOnly_decline
    · exact foldsOnly_bind fun _ _ => foldsOnly_decline
    · exact foldsOnly_decline
  | call =>
    show FoldsOnly _ (applyCall view focus)
    unfold applyCall
    split
    · split
      · exact foldsOnly_plain rfl (by simp)
      · exact foldsOnly_decline
    · exact foldsOnly_decline
  | literal =>
    show FoldsOnly _ (applyLiteral view focus)
    unfold applyLiteral
    split
    · exact foldsOnly_decline
    · split
      · exact foldsOnly_plain rfl (by simp)
      · split
        · split
          · exact foldsOnly_plain rfl (by simp)
          · exact foldsOnly_decline
        · exact foldsOnly_decline
  | allColumns =>
    show FoldsOnly _ (applyAllColumns view focus)
    unfold applyAllColumns
    split
    · exact foldsOnly_decline
    · exact foldsOnly_bind fun _ _ => foldsOnly_plain rfl (by simp)
  | column =>
    show FoldsOnly _ (applyColumn view focus)
    unfold applyColumn
    split
    · exact foldsOnly_decline
    · split
      · exact foldsOnly_decline
      · exact foldsOnly_bind fun _ _ => foldsOnly_plain rfl (by simp)
  | membership =>
    show FoldsOnly _ (applyMembership view focus)
    unfold applyMembership
    split
    · dsimp only
      split
      · split
        · exact foldsOnly_plain rfl (by simp)
        · exact foldsOnly_decline
      · exact foldsOnly_decline
    · exact foldsOnly_decline
  | operation =>
    show FoldsOnly _ (applyOperation view focus)
    unfold applyOperation
    split
    · split
      · exact foldsOnly_object
      · exact foldsOnly_decline
    · split
      · split
        · exact foldsOnly_decline
        · split
          · exact foldsOnly_missingAfter
          · split
            · exact foldsOnly_plain rfl (by simp)
            · exact foldsOnly_object
      · exact foldsOnly_decline
  | conjunction =>
    show FoldsOnly _ (applyConjunction view focus)
    unfold applyConjunction
    split
    · split
      · exact foldsOnly_object
      · exact foldsOnly_decline
    · split
      · refine foldsOnly_bind fun s taken => ?_
        split
        · exact foldsOnly_decline
        · next second rest after =>
          obtain ⟨_, _, _, operands, _⟩ := takeJuncts_ok taken
          refine foldsOnly_plain rfl ?_
          simpa [Conjunction.parts] using newTables_operands operands
      · exact foldsOnly_decline
  | fromClause =>
    show FoldsOnly _ (applyFromClause view focus)
    unfold applyFromClause
    split
    · exact foldsOnly_decline
    · refine foldsOnly_bind fun s _ => ?_
      split
      · exact foldsOnly_decline
      · refine foldsOnly_bind fun _ _ => foldsOnly_fold rfl ?_
        rw [Node.children_fromClause]
        exact length_newTables_cons _ newTables_nil
  | join =>
    show FoldsOnly _ (applyJoin view focus)
    unfold applyJoin
    split
    · exact foldsOnly_decline
    · split
      · exact foldsOnly_decline
      · split
        · exact foldsOnly_decline
        · refine foldsOnly_bind fun s _ => ?_
          split
          · exact foldsOnly_object
          · refine foldsOnly_bind fun _ _ => foldsOnly_bind fun c taken => foldsOnly_fold rfl ?_
            obtain ⟨_, _, _, kinds⟩ := takeJoinRestriction_ok taken
            rw [Node.children_join]
            refine length_newTables_cons _ (newTables_of_kind view fun o mem table => ?_)
            obtain ⟨condition, isCondition, rfl⟩ := Option.map_eq_some_iff.mp (Option.mem_toList.mp mem)
            rcases kinds condition isCondition with ⟨_, operand⟩ | ⟨_, bracket⟩
            · rw [table] at operand
              cases operand
            · cases table.symm.trans bracket
  | whereClause =>
    refine foldsOnly_bind fun s taken => ?_
    split
    · exact foldsOnly_decline
    · next condition after =>
      obtain ⟨a, _, _, _, expression, _⟩ := takeRestriction?_some taken
      exact foldsOnly_plain rfl (by simp [expression])
  | havingClause =>
    refine foldsOnly_bind fun s taken => ?_
    split
    · exact foldsOnly_decline
    · next condition after =>
      obtain ⟨a, _, _, _, expression, _⟩ := takeRestriction?_some taken
      exact foldsOnly_plain rfl (by simp [expression])
  | groupBy =>
    show FoldsOnly _ (applyGroupBy view focus)
    unfold applyGroupBy
    split
    · exact foldsOnly_decline
    · split
      · exact foldsOnly_object
      · split
        · exact foldsOnly_object
        · exact foldsOnly_bind fun _ _ => foldsOnly_plain rfl (by simp)
  | orderBy =>
    show FoldsOnly _ (applyOrderBy view focus)
    unfold applyOrderBy
    split
    · exact foldsOnly_decline
    · split
      · exact foldsOnly_object
      · split
        · exact foldsOnly_object
        · refine foldsOnly_bind fun s taken => foldsOnly_plain rfl ?_
          obtain ⟨_, _, _, _, _, slots⟩ := takeSortKeys_ok taken
          rw [Node.children_orderBy]
          exact newTables_operands fun i mem => (slots i mem).1
  | select =>
    show FoldsOnly _ (applySelect view focus)
    unfold applySelect
    split
    · exact foldsOnly_decline
    · refine foldsOnly_bind fun s taken => ?_
      dsimp only
      split
      · obtain ⟨_, _, _, _, _, operands, _⟩ := takeProjections_ok taken
        exact foldsOnly_plain rfl (by simp [newTables_operands operands])
      · exact foldsOnly_decline
  | update =>
    show FoldsOnly _ (applyUpdate view focus)
    unfold applyUpdate
    split
    · exact foldsOnly_decline
    · refine foldsOnly_bind fun s _ => ?_
      split
      · exact foldsOnly_object
      · refine foldsOnly_bind fun s _ => ?_
        obtain ⟨aliasName, rest⟩ := s
        dsimp only
        split
        · exact foldsOnly_decline
        · split
          · exact foldsOnly_decline
          · refine foldsOnly_bind fun s _ => ?_
            split
            · refine foldsOnly_fold rfl ?_
              rw [Node.children_update, List.cons_append, List.cons_append, List.cons_append]
              exact length_newTables_cons _ (by simp)
            · exact foldsOnly_decline

/-- What a rule folds is of its kind. -/
theorem apply_kind {rule : Rule} {focus : Focus α} {f : Fold α}
    (answer : rule.apply view focus = .ok (some f)) : f.node.kind = rule.makes :=
  (apply_foldsOnly rule focus f answer).1

/-- What a rule folds has no more than one new table. -/
theorem length_newTables_le {rule : Rule} {focus : Focus α} {f : Fold α}
    (answer : rule.apply view focus = .ok (some f)) : (newTables f.node.children).length ≤ 1 :=
  (apply_foldsOnly rule focus f answer).2

/-- The branch that the bracket at the focus opens: everything up to the bracket that closes it. -/
theorem applyBracket_fold {focus : Focus α} {f : Fold α}
    (answer : applyBracket view focus = .ok (some f)) :
    ∃ opening closing inner last, view focus.here = .leaf opening ∧ opening.kind = .bracketOpen ∧
      splitAtClosing? view 0 focus.right = some (inner, closing, f.right) ∧
        focus.right = inner ++ last :: f.right ∧ view last = .leaf closing ∧
          f = ⟨focus.left, .bracket ⟨opening, closing, inner.map .sibling⟩, f.right⟩ := by
  unfold applyBracket at answer
  split at answer
  · next opening here =>
    split at answer
    · next kind =>
      split at answer
      · next inner closing after split =>
        obtain ⟨last, right, shown, _⟩ := splitAtClosing?_some split
        obtain rfl := fold_eq_ok answer
        exact ⟨opening, closing, inner, last, here, kind, split, right, shown, rfl⟩
      · exact (object_ne answer).elim
    · split at answer
      · exact (object_ne answer).elim
      · exact (decline_ne answer).elim
  · obtain ⟨_, _, declined⟩ := bind_eq_ok answer
    exact (decline_ne declined).elim
  · exact (decline_ne answer).elim

/-- A folded node that is a branch was folded by `Rule.bracket`. -/
theorem eq_bracket_of_isBranch {rule : Rule} {focus : Focus α} {f : Fold α}
    (answer : rule.apply view focus = .ok (some f)) (branch : f.node.isBranch = true) :
    rule = .bracket := by
  have kind : f.node.kind = .bracket ∨ f.node.kind = .root := by
    cases node : f.node with
    | bracket => exact .inl rfl
    | root => exact .inr rfl
    | _ =>
      rw [node] at branch
      cases branch
  rw [apply_kind answer] at kind
  cases rule with
  | bracket => rfl
  | _ => rcases kind with eq | eq <;> cases eq

end Rule

end SqlFold
