import SqlFold.Proofs.Cover.Clauses
import SqlFold.Proofs.Edges.Operands

/-!
# What is an edge for the rules on clauses and statements

For these rules a semicolon is an edge, and for `Rule.fromClause` every leaf but `AS`. The readers of
sources and aliases are told which leaf they meet. `Rule.apply_widen` states it for every rule but
`Rule.bracket`, which looks for a closing bracket everywhere.
-/

namespace SqlFold.Rule

variable {α : Type} {view : α → Node α} {front tail : List α}

/-! ## Sources and aliases -/

section Leaf

variable {sort : TokenKind → Bool} (ends : Edge view sort tail)

include ends

theorem takeSource?_append (subquery : Bool) (as : List α) :
    Both (Option.map (longer tail)) (takeSource? view subquery as)
      (takeSource? view subquery (as ++ tail)) := by
  cases as with
  | cons a rest =>
    have same : Both id (source? view subquery a) (source? view subquery a) := by
      cases source? view subquery a with
      | ok source => exact .ok source
      | error => exact .error
    refine same.bind fun source => ?_
    cases source with
    | none => exact .of_ok rfl
    | some source => exact .of_ok rfl
  | nil =>
    cases tail with
    | nil => exact .of_ok rfl
    | cons s tail =>
      obtain ⟨t, shown, _⟩ := edge_cons.mp ends
      have none : takeSource? view subquery (s :: tail) = .ok none := by
        simp only [takeSource?, source?, shown]
        rfl
      rw [List.nil_append, none]
      exact .of_ok rfl

omit ends in
theorem bareName?_of_edge {s : α} {as : List α} (edge : Edge view sort (s :: as)) :
    bareName? view s = none := by
  obtain ⟨t, shown, _⟩ := edge_cons.mp edge
  rw [bareName?, shown]

theorem takeAlias_append (noAs : sort .asKw = false) (bare : Bool) (as : List α) :
    Both (longer tail) (takeAlias view bare as) (takeAlias view bare (as ++ tail)) := by
  cases as with
  | nil =>
    cases tail with
    | nil => exact .of_ok rfl
    | cons s tail =>
      have none : takeAlias view bare (s :: tail) = .ok (none, s :: tail) := by
        simp only [takeAlias, leafIs_of_edge ends noAs, bareName?_of_edge ends]
        cases bare <;> rfl
      rw [List.nil_append, none]
      exact .of_ok rfl
  | cons a rest =>
    simp only [List.cons_append, takeAlias]
    cases leafIs view .asKw a with
    | false =>
      simp only [Bool.false_eq_true, if_false]
      split <;> exact .of_ok rfl
    | true =>
      simp only [if_true]
      cases rest with
      | cons b rest =>
        simp only [List.cons_append]
        cases bareName? view b with
        | some name => exact .of_ok rfl
        | none => exact .error
      | nil =>
        cases tail with
        | nil => exact .error
        | cons s tail =>
          have none : bareName? view s = none := bareName?_of_edge ends
          simp only [List.nil_append, none]
          exact .error

theorem takeModifiers_append (others : ∀ kind, sort kind = true → kind.isJoinModifier = false)
    (as : List α) :
    takeModifiers view (as ++ tail) = longer tail (takeModifiers view as) := by
  induction as with
  | nil =>
    cases tail with
    | nil => rfl
    | cons s tail =>
      simp only [List.nil_append, takeModifiers, leafOf?_of_edge ends others]
      rfl
  | cons a rest ih =>
    simp only [List.cons_append, takeModifiers, ih]
    cases leafOf? view TokenKind.isJoinModifier a <;> rfl

theorem takeJoinRestriction_append (noOn : sort .onKw = false) (noUsing : sort .usingKw = false)
    (as : List α) :
    Both (longer tail) (takeJoinRestriction view as) (takeJoinRestriction view (as ++ tail)) := by
  cases as with
  | nil =>
    cases tail with
    | nil => exact .of_ok rfl
    | cons s tail =>
      simp only [List.nil_append, takeJoinRestriction, leaf?_of_edge ends noOn,
        leaf?_of_edge ends noUsing]
      exact .of_ok rfl
  | cons a rest =>
    simp only [List.cons_append, takeJoinRestriction]
    cases leaf? view .onKw a with
    | some keyword =>
      cases rest with
      | cons e after =>
        simp only [List.cons_append]
        split
        · exact .of_ok rfl
        · exact .error
      | nil =>
        cases tail with
        | nil => exact .error
        | cons s tail =>
          simp only [List.nil_append, isOperand_of_edge ends]
          exact .error
    | none =>
      cases leaf? view .usingKw a with
      | none => exact .of_ok rfl
      | some keyword =>
        cases rest with
        | cons e after =>
          simp only [List.cons_append]
          split
          · exact .of_ok rfl
          · exact .error
        | nil =>
          cases tail with
          | nil => exact .error
          | cons s tail =>
            simp only [List.nil_append,
              isNode_of_edge ends (show NodeKind.tokenLeaf ≠ .bracket by decide)]
            exact .error

end Leaf

/-! ## Select lists -/

/-- Siblings with which no select list goes on. -/
def EndsList (view : α → Node α) (tail : List α) : Prop :=
  ∀ s ∈ tail.head?, isOperand view s = false ∧ leafIs view .asKw s = false ∧ leafIs view .comma s = false

theorem bareName?_of_not_operand {s : α} (noOperand : isOperand view s = false) : bareName? view s = none := by
  unfold bareName?
  split
  · next shown =>
    rw [isOperand, shown] at noOperand
    cases noOperand
  · rfl

theorem missingColumn_both {β γ : Type} {f : β → γ} (comma : Bool) (previous previous' : α) :
    Both f (missingColumn view comma previous) (missingColumn view comma previous') := by
  cases comma <;> exact .error

section Projections

variable (ends : EndsList view tail)

include ends

theorem takeAlias_of_endsList (as : List α) :
    Both (longer tail) (takeAlias view false as) (takeAlias view false (as ++ tail)) := by
  cases as with
  | nil =>
    cases tail with
    | nil => exact .of_ok rfl
    | cons s tail =>
      simp only [List.nil_append, takeAlias, (ends s rfl).2.1]
      exact .of_ok rfl
  | cons a rest =>
    simp only [List.cons_append, takeAlias]
    cases leafIs view .asKw a with
    | false => exact .of_ok rfl
    | true =>
      simp only [if_true]
      cases rest with
      | cons b rest =>
        simp only [List.cons_append]
        cases bareName? view b with
        | some name => exact .of_ok rfl
        | none => exact .error
      | nil =>
        cases tail with
        | nil => exact .error
        | cons s tail =>
          simp only [List.nil_append, bareName?_of_not_operand (ends s rfl).1]
          exact .error

theorem takeProjections_append (comma : Bool) (previous previous' : α) (as : List α) :
    Both (longer tail) (takeProjections view comma previous as)
      (takeProjections view comma previous' (as ++ tail)) := by
  induction comma, previous, as using takeProjections.induct view generalizing previous' with
  | case1 comma previous =>
    rw [takeProjections]
    cases tail with
    | nil =>
      rw [List.append_nil, takeProjections]
      exact missingColumn_both ..
    | cons s tail =>
      have noOperand : isOperand view s = false := (ends s rfl).1
      rw [List.nil_append, takeProjections_cons, noOperand]
      exact missingColumn_both ..
  | case2 comma previous a rest operand objection aliased =>
    have both := takeAlias_of_endsList ends rest
    rw [List.cons_append, takeProjections_cons, takeProjections_cons, if_pos operand, if_pos operand]
    rw [aliased] at both ⊢
    generalize takeAlias view false (rest ++ tail) = aliased' at both ⊢
    cases both with
    | error => exact .error
  | case3 comma previous a rest operand aliasName aliased =>
    have both := takeAlias_of_endsList ends rest
    rw [List.cons_append, takeProjections_cons, takeProjections_cons, if_pos operand, if_pos operand]
    rw [aliased] at both ⊢
    generalize takeAlias view false (rest ++ tail) = aliased' at both ⊢
    cases both with
    | ok =>
      simp only [longer, List.nil_append]
      cases tail with
      | nil => exact .of_ok rfl
      | cons s tail =>
        simp only [(ends s rfl).2.2]
        exact .of_ok rfl
  | case4 comma previous a rest operand aliasName b behind aliased isComma _ ih =>
    have both := takeAlias_of_endsList ends rest
    rw [List.cons_append, takeProjections_cons, takeProjections_cons, if_pos operand, if_pos operand]
    rw [aliased] at both ⊢
    generalize takeAlias view false (rest ++ tail) = aliased' at both ⊢
    cases both with
    | ok =>
      simp only [longer, List.cons_append, isComma, if_true]
      exact (ih b).bind fun _ => .of_ok rfl
  | case5 comma previous a rest operand aliasName b behind aliased noComma =>
    have both := takeAlias_of_endsList ends rest
    rw [List.cons_append, takeProjections_cons, takeProjections_cons, if_pos operand, if_pos operand]
    rw [aliased] at both ⊢
    generalize takeAlias view false (rest ++ tail) = aliased' at both ⊢
    cases both with
    | ok =>
      simp only [longer, List.cons_append, noComma]
      exact .of_ok rfl
  | case6 comma previous a rest noOperand =>
    rw [List.cons_append, takeProjections_cons, takeProjections_cons, if_neg noOperand,
      if_neg noOperand]
    exact missingColumn_both ..

end Projections

section Semicolon

variable (ends : Edge view (· == .semicolon) tail)

include ends

/-! ## Lists -/

theorem takeExpressions_append (previous : α) (as : List α) :
    Both (longer tail) (takeExpressions view previous as)
      (takeExpressions view previous (as ++ tail)) := by
  induction previous, as using takeExpressions.induct view with
  | case1 previous =>
    cases tail with
    | nil => exact .error
    | cons s tail =>
      have noOperand := isOperand_of_edge ends
      cases tail with
      | nil =>
        simp only [List.nil_append, takeExpressions, noOperand]
        exact .error
      | cons b tail =>
        simp only [List.nil_append, takeExpressions, noOperand]
        exact .error
  | case2 previous a operand =>
    cases tail with
    | nil =>
      simp only [List.append_nil, takeExpressions, operand, if_true]
      exact .of_ok rfl
    | cons s tail =>
      simp only [List.cons_append, List.nil_append, takeExpressions, operand, if_true,
        leafIs_of_edge ends (show (TokenKind.comma == .semicolon) = false from rfl)]
      exact .of_ok rfl
  | case3 previous a noOperand =>
    cases tail with
    | nil =>
      simp only [List.append_nil, takeExpressions, noOperand]
      exact .error
    | cons s tail =>
      simp only [List.cons_append, List.nil_append, takeExpressions, noOperand]
      exact .error
  | case4 previous a comma rest operand isComma ih =>
    simp only [List.cons_append, takeExpressions, operand, isComma, if_true]
    exact ih.bind fun _ => .of_ok rfl
  | case5 previous a comma rest operand noComma =>
    simp only [List.cons_append, takeExpressions, operand, noComma, if_true]
    exact .of_ok rfl
  | case6 previous a comma rest noOperand =>
    simp only [List.cons_append, takeExpressions, noOperand]
    exact .error

theorem takeDirection_append (as : List α) :
    takeDirection view (as ++ tail) = longer tail (takeDirection view as) := by
  cases as with
  | nil =>
    cases tail with
    | nil => rfl
    | cons s tail =>
      have noWord : leafOf? view isDirection s = none :=
        leafOf?_of_edge ends (by simp [isDirection])
      simp only [List.nil_append, takeDirection, noWord]
      rfl
  | cons a rest =>
    simp only [List.cons_append, takeDirection]
    cases leafOf? view isDirection a <;> rfl

theorem takeSortKeys_append (previous : α) (as : List α) :
    Both (longer tail) (takeSortKeys view previous as) (takeSortKeys view previous (as ++ tail)) := by
  induction previous, as using takeSortKeys.induct view with
  | case1 previous =>
    rw [takeSortKeys]
    cases tail with
    | nil =>
      rw [List.append_nil, takeSortKeys]
      exact .error
    | cons s tail =>
      have noOperand : isOperand view s = false := isOperand_of_edge ends
      rw [List.nil_append, takeSortKeys_cons, noOperand]
      exact .error
  | case2 previous a rest operand ended =>
    rw [List.cons_append, takeSortKeys_cons, takeSortKeys_cons, takeDirection_append ends]
    simp only [operand, ended, if_true, longer, List.nil_append]
    cases tail with
    | nil => exact .of_ok rfl
    | cons s tail =>
      have semi : leafIs view .semicolon s = true := endsStatement_iff.mpr ends
      simp only [semi, if_true]
      exact .of_ok rfl
  | case3 previous a rest operand b behind next isEnd =>
    rw [List.cons_append, takeSortKeys_cons, takeSortKeys_cons, takeDirection_append ends]
    simp only [operand, next, if_true, longer, List.cons_append, isEnd]
    exact .of_ok rfl
  | case4 previous a rest operand b behind next notEnd isComma _ ih =>
    rw [List.cons_append, takeSortKeys_cons, takeSortKeys_cons, takeDirection_append ends]
    simp only [operand, next, if_true, longer, List.cons_append, notEnd, isComma]
    exact ih.bind fun _ => .of_ok rfl
  | case5 previous a rest operand b behind next notEnd noComma =>
    rw [List.cons_append, takeSortKeys_cons, takeSortKeys_cons, takeDirection_append ends]
    simp only [operand, next, if_true, longer, List.cons_append, notEnd, noComma]
    exact .error
  | case6 previous a rest noOperand =>
    rw [List.cons_append, takeSortKeys_cons, takeSortKeys_cons]
    simp only [noOperand]
    exact .error

/-! ## Statements -/

theorem takeOptionalLeaf_append {kind : TokenKind} (other : (kind == .semicolon) = false)
    (as : List α) :
    takeOptionalLeaf view kind (as ++ tail) = longer tail (takeOptionalLeaf view kind as) := by
  cases as with
  | nil =>
    cases tail with
    | nil => rfl
    | cons s tail =>
      simp only [List.nil_append, takeOptionalLeaf, leaf?_of_edge ends other]
      rfl
  | cons a rest =>
    simp only [List.cons_append, takeOptionalLeaf]
    cases leaf? view kind a <;> rfl

theorem takeNode_append {kind : NodeKind} (other : NodeKind.tokenLeaf ≠ kind) (as : List α) :
    takeNode view kind (as ++ tail) = longer tail (takeNode view kind as) := by
  cases as with
  | nil =>
    cases tail with
    | nil => rfl
    | cons s tail =>
      simp only [List.nil_append, takeNode, isNode_of_edge ends other]
      rfl
  | cons a rest =>
    simp only [List.cons_append, takeNode]
    cases isNode view kind a <;> rfl

theorem takeNodes_append {kind : NodeKind} (other : NodeKind.tokenLeaf ≠ kind) (as : List α) :
    takeNodes view kind (as ++ tail) = longer tail (takeNodes view kind as) := by
  simp only [takeNodes, List.span_eq_takeWhile_dropWhile, longer]
  induction as with
  | nil =>
    cases tail with
    | nil => rfl
    | cons s tail =>
      have noNode : isNode view kind s = false := isNode_of_edge ends other
      rw [List.nil_append, List.takeWhile_cons_of_neg (by simp [noNode]),
        List.dropWhile_cons_of_neg (by simp [noNode])]
      rfl
  | cons a rest ih =>
    rw [List.cons_append, List.takeWhile_cons, List.dropWhile_cons, List.takeWhile_cons,
      List.dropWhile_cons]
    cases isNode view kind a with
    | false => rfl
    | true =>
      obtain ⟨taken, left⟩ := Prod.mk.inj ih
      simp only [if_true, taken, left]

theorem endsStatement_append (as : List α) :
    endsStatement view (as ++ tail) = endsStatement view as := by
  cases as with
  | nil => exact endsStatement_iff.mpr ends
  | cons a rest => rfl

omit ends in
theorem missingAssignment_both {β γ : Type} {f : β → γ} (comma : Bool) (previous previous' : α) :
    Both f (missingAssignment view comma previous) (missingAssignment view comma previous') := by
  cases comma <;> exact .error

theorem takeAssignments_append (comma : Bool) (previous : α) (as : List α) :
    Both (longer tail) (takeAssignments view comma previous as)
      (takeAssignments view comma previous (as ++ tail)) := by
  induction comma, previous, as using takeAssignments.induct view with
  | case1 comma previous =>
    cases tail with
    | nil => exact missingAssignment_both ..
    | cons s tail =>
      have noOperand := isOperand_of_edge ends
      cases tail with
      | nil =>
        simp only [List.nil_append, takeAssignments, noOperand]
        exact missingAssignment_both ..
      | cons b tail =>
        simp only [List.nil_append, takeAssignments, noOperand]
        exact missingAssignment_both ..
  | case2 comma previous a operand isOne =>
    cases tail with
    | nil =>
      simp only [List.append_nil, takeAssignments, operand, isOne, if_true]
      exact .of_ok rfl
    | cons s tail =>
      simp only [List.cons_append, List.nil_append, takeAssignments, operand, isOne, if_true,
        leafIs_of_edge ends (show (TokenKind.comma == .semicolon) = false from rfl)]
      exact .of_ok rfl
  | case3 comma previous a operand notOne =>
    cases tail with
    | nil =>
      simp only [List.append_nil, takeAssignments, operand, notOne, if_true]
      exact .error
    | cons s tail =>
      simp only [List.cons_append, List.nil_append, takeAssignments, operand, notOne, if_true]
      exact .error
  | case4 comma previous a noOperand =>
    cases tail with
    | nil =>
      simp only [List.append_nil, takeAssignments, noOperand]
      exact missingAssignment_both ..
    | cons s tail =>
      simp only [List.cons_append, List.nil_append, takeAssignments, noOperand]
      exact missingAssignment_both ..
  | case5 comma previous a b rest operand isOne isComma ih =>
    simp only [List.cons_append, takeAssignments, operand, isOne, isComma, if_true]
    exact ih.bind fun _ => .of_ok rfl
  | case6 comma previous a b rest operand isOne noComma =>
    simp only [List.cons_append, takeAssignments, operand, isOne, noComma, if_true]
    exact .of_ok rfl
  | case7 comma previous a b rest operand notOne =>
    simp only [List.cons_append, takeAssignments, operand, notOne, if_true]
    exact .error
  | case8 comma previous a b rest noOperand =>
    simp only [List.cons_append, takeAssignments, noOperand]
    exact missingAssignment_both ..

end Semicolon

/-! ## Rules -/

section Rules

theorem applyFromClause_widen (ends : Edge view (· != .asKw) tail) (focus : Focus α) :
    Both (Option.map (Fold.widen front tail)) (applyFromClause view focus)
      (applyFromClause view (focus.widen front tail)) := by
  obtain ⟨left, here, right⟩ := focus
  show Both _ (applyFromClause view ⟨left, here, right⟩)
    (applyFromClause view ⟨left ++ front, here, right ++ tail⟩)
  unfold applyFromClause
  dsimp only
  cases leaf? view .fromKw here with
  | none => exact .decline
  | some keyword =>
    refine (takeSource?_append ends true right).bind fun s => ?_
    cases s with
    | none => exact .decline
    | some s => exact (takeAlias_append ends rfl true s.2).bind fun _ => .fold ..

variable (starts : Edge view (· == .semicolon) front) (ends : Edge view (· == .semicolon) tail)
  (focus : Focus α)

include ends

include starts in
theorem applyJoin_widen :
    Both (Option.map (Fold.widen front tail)) (applyJoin view focus)
      (applyJoin view (focus.widen front tail)) := by
  obtain ⟨left, here, right⟩ := focus
  have other (kind : TokenKind) (semi : (kind == .semicolon) = true) : kind.isJoinModifier = false := by
    rw [beq_iff_eq.mp semi]
    rfl
  have before := any_head?_append starts
    (fun _ _ edge => congrArg Option.isSome (leafOf?_of_edge edge other)) left
  show Both _ (applyJoin view ⟨left, here, right⟩)
    (applyJoin view ⟨left ++ front, here, right ++ tail⟩)
  simp only [applyJoin, before]
  split
  · exact .decline
  · rw [← List.cons_append, takeModifiers_append ends other]
    obtain ⟨modifiers, _ | ⟨a, rest⟩⟩ := takeModifiers view (here :: right)
    · cases tail with
      | nil => exact .decline
      | cons s tail =>
        simp only [longer, List.nil_append,
          leaf?_of_edge ends (show (TokenKind.joinKw == .semicolon) = false from rfl)]
        exact .decline
    · simp only [longer, List.cons_append]
      cases leaf? view .joinKw a with
      | none => exact .decline
      | some word =>
        refine (takeSource?_append ends true rest).bind fun s => ?_
        cases s with
        | none => exact .object ..
        | some s =>
          refine (takeAlias_append ends rfl true s.2).bind fun s' => ?_
          exact (takeJoinRestriction_append ends rfl rfl s'.2).bind fun _ => .fold ..

theorem takeRestriction?_widen (kind : TokenKind) :
    Both (Option.map (longer tail)) (takeRestriction? view kind focus)
      (takeRestriction? view kind (focus.widen front tail)) := by
  obtain ⟨left, here, right⟩ := focus
  show Both _ (takeRestriction? view kind ⟨left, here, right⟩)
    (takeRestriction? view kind ⟨left ++ front, here, right ++ tail⟩)
  unfold takeRestriction?
  dsimp only
  cases leaf? view kind here with
  | none => exact .of_ok rfl
  | some keyword =>
    cases right with
    | cons a after =>
      simp only [List.cons_append]
      split
      · exact .of_ok rfl
      · exact .error
    | nil =>
      cases tail with
      | nil => exact .error
      | cons s tail =>
        simp only [List.nil_append, isOperand_of_edge ends]
        exact .error

theorem applyWhereClause_widen :
    Both (Option.map (Fold.widen front tail)) (applyWhereClause view focus)
      (applyWhereClause view (focus.widen front tail)) := by
  refine (takeRestriction?_widen ends focus .whereKw).bind fun s => ?_
  cases s with
  | none => exact .decline
  | some s => exact .fold ..

theorem applyHavingClause_widen :
    Both (Option.map (Fold.widen front tail)) (applyHavingClause view focus)
      (applyHavingClause view (focus.widen front tail)) := by
  refine (takeRestriction?_widen ends focus .havingKw).bind fun s => ?_
  cases s with
  | none => exact .decline
  | some s => exact .fold ..

theorem applyGroupBy_widen :
    Both (Option.map (Fold.widen front tail)) (applyGroupBy view focus)
      (applyGroupBy view (focus.widen front tail)) := by
  obtain ⟨left, here, right⟩ := focus
  show Both _ (applyGroupBy view ⟨left, here, right⟩)
    (applyGroupBy view ⟨left ++ front, here, right ++ tail⟩)
  unfold applyGroupBy
  dsimp only
  cases leaf? view .groupKw here with
  | none => exact .decline
  | some group =>
    cases right with
    | cons a rest =>
      simp only [List.cons_append]
      cases leaf? view .byKw a with
      | none => exact .object ..
      | some byKeyword => exact (takeExpressions_append ends a rest).bind fun _ => .fold ..
    | nil =>
      cases tail with
      | nil => exact .object ..
      | cons s tail =>
        simp only [List.nil_append,
          leaf?_of_edge ends (show (TokenKind.byKw == .semicolon) = false from rfl)]
        exact .object ..

theorem applyOrderBy_widen :
    Both (Option.map (Fold.widen front tail)) (applyOrderBy view focus)
      (applyOrderBy view (focus.widen front tail)) := by
  obtain ⟨left, here, right⟩ := focus
  show Both _ (applyOrderBy view ⟨left, here, right⟩)
    (applyOrderBy view ⟨left ++ front, here, right ++ tail⟩)
  unfold applyOrderBy
  dsimp only
  cases leaf? view .orderKw here with
  | none => exact .decline
  | some order =>
    cases right with
    | cons a rest =>
      simp only [List.cons_append]
      cases leaf? view .byKw a with
      | none => exact .object ..
      | some byKeyword => exact (takeSortKeys_append ends a rest).bind fun _ => .fold ..
    | nil =>
      cases tail with
      | nil => exact .object ..
      | cons s tail =>
        simp only [List.nil_append,
          leaf?_of_edge ends (show (TokenKind.byKw == .semicolon) = false from rfl)]
        exact .object ..

theorem applySelect_widen :
    Both (Option.map (Fold.widen front tail)) (applySelect view focus)
      (applySelect view (focus.widen front tail)) := by
  obtain ⟨left, here, right⟩ := focus
  show Both _ (applySelect view ⟨left, here, right⟩)
    (applySelect view ⟨left ++ front, here, right ++ tail⟩)
  unfold applySelect
  dsimp only
  cases leaf? view .selectKw here with
  | none => exact .decline
  | some keyword =>
    simp only [takeOptionalLeaf_append ends (show (TokenKind.distinctKw == .semicolon) = false from rfl)]
    have endsList : EndsList view tail := fun s first => by
      cases tail with
      | nil => cases first
      | cons =>
        cases first
        exact ⟨isOperand_of_edge ends, leafIs_of_edge ends rfl, leafIs_of_edge ends rfl⟩
    refine (takeProjections_append endsList false _ _ _).bind fun s => ?_
    have nodes {kind : NodeKind} (other : NodeKind.tokenLeaf ≠ kind) (as : List α) :
        takeNode view kind (as ++ tail) = longer tail (takeNode view kind as) :=
      takeNode_append ends other as
    simp only [longer, takeNodes_append ends (show NodeKind.tokenLeaf ≠ .join by decide),
      nodes (show NodeKind.tokenLeaf ≠ .fromClause by decide),
      nodes (show NodeKind.tokenLeaf ≠ .whereClause by decide),
      nodes (show NodeKind.tokenLeaf ≠ .groupBy by decide),
      nodes (show NodeKind.tokenLeaf ≠ .havingClause by decide),
      nodes (show NodeKind.tokenLeaf ≠ .orderBy by decide), endsStatement_append ends]
    split
    · exact .fold ..
    · exact .decline

theorem applyUpdate_widen :
    Both (Option.map (Fold.widen front tail)) (applyUpdate view focus)
      (applyUpdate view (focus.widen front tail)) := by
  obtain ⟨left, here, right⟩ := focus
  show Both _ (applyUpdate view ⟨left, here, right⟩)
    (applyUpdate view ⟨left ++ front, here, right ++ tail⟩)
  unfold applyUpdate
  dsimp only
  cases leaf? view .updateKw here with
  | none => exact .decline
  | some keyword =>
    refine (takeSource?_append ends false right).bind fun s => ?_
    cases s with
    | none => exact .object ..
    | some s =>
      refine (takeAlias_append ends rfl true s.2).bind fun s' => ?_
      simp only [longer, takeNodes_append ends (show NodeKind.tokenLeaf ≠ .join by decide)]
      obtain ⟨joins, _ | ⟨b, rest⟩⟩ := takeNodes view .join s'.2
      · cases tail with
        | nil => exact .decline
        | cons s tail =>
          simp only [List.nil_append,
            leaf?_of_edge ends (show (TokenKind.setKw == .semicolon) = false from rfl)]
          exact .decline
      · simp only [List.cons_append]
        cases leaf? view .setKw b with
        | none => exact .decline
        | some setKeyword =>
          refine (takeAssignments_append ends false b rest).bind fun s'' => ?_
          simp only [longer, takeNode_append ends (show NodeKind.tokenLeaf ≠ .whereClause by decide),
            takeNode_append ends (show NodeKind.tokenLeaf ≠ .orderBy by decide),
            endsStatement_append ends]
          split
          · exact .fold ..
          · exact .decline

omit ends in
/-- A rule other than `Rule.bracket` sees the leaves that it spares as it sees the edge of the branch. -/
theorem apply_widen {rule : Rule} (other : rule ≠ .bracket) (starts : Edge view rule.spares front)
    (ends : Edge view rule.spares tail) :
    Both (Option.map (Fold.widen front tail)) (rule.apply view focus)
      (rule.apply view (focus.widen front tail)) := by
  cases rule with
  | bracket => exact absurd rfl other
  | call => exact applyCall_widen starts ends focus
  | literal => exact applyLiteral_widen starts ends focus
  | allColumns => exact applyAllColumns_widen starts focus
  | column => exact applyColumn_widen starts ends focus
  | membership => exact applyMembership_widen ends focus
  | operation => exact applyOperation_widen starts ends focus
  | conjunction => exact applyConjunction_widen focus starts ends
  | fromClause => exact applyFromClause_widen ends focus
  | join => exact applyJoin_widen starts ends focus
  | whereClause => exact applyWhereClause_widen ends focus
  | havingClause => exact applyHavingClause_widen ends focus
  | groupBy => exact applyGroupBy_widen ends focus
  | orderBy => exact applyOrderBy_widen ends focus
  | select => exact applySelect_widen ends focus
  | update => exact applyUpdate_widen ends focus

end Rules

end SqlFold.Rule
