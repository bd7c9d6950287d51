import SqlFold.Proofs.Cover.Clauses
import SqlFold.Proofs.Translation.Operands

/-!
# Clauses and statements under a translation

The rules behind `Rule.conjunction` give corresponding answers on corresponding siblings, and so does
every rule (`Rule.Translates.apply_agree`). The rule for `UPDATE` asks whether an operator is written
`=`, so it needs siblings of which the translation assigns something where they do themselves.
-/

namespace SqlFold.Rule

variable {α α' : Type} {view : α → Node α} {view' : α' → Node α'} {g : α → α'}
  {h : Token → Token} (tr : Translates view view' g h)

namespace Translates

include tr

/-! ## Sources and aliases -/

theorem source? (subquery : Bool) (a : α) :
    Agree g h (Option.map (Origin.map g h)) (Rule.source? view subquery a)
      (Rule.source? view' subquery (g a)) := by
  unfold Rule.source?
  rw [tr.node]
  cases view a with
  | column c =>
    simp only [Node.map, Node.mapTokens, Option.isSome_map]
    split
    · exact agree_object a (.refl _)
    · exact .of_ok rfl
  | bracket p => cases subquery <;> exact .of_ok rfl
  | _ => exact .of_ok rfl

theorem takeSource? (subquery : Bool) (as : List α) :
    Agree g h (Option.map fun s => (s.1.map g h, s.2.map g)) (Rule.takeSource? view subquery as)
      (Rule.takeSource? view' subquery (as.map g)) := by
  cases as with
  | nil => exact .of_ok rfl
  | cons a rest =>
    refine (tr.source? subquery a).bind fun source _ => .of_ok ?_
    cases source <;> rfl

theorem bareName? (a : α) : Rule.bareName? view' (g a) = (Rule.bareName? view a).map h := by
  unfold Rule.bareName?
  rw [tr.node]
  cases view a with
  | column c => obtain ⟨_ | _, _ | _, _⟩ := c <;> rfl
  | _ => rfl

theorem takeAlias (bare : Bool) (as : List α) :
    Agree g h (fun s => (s.1.map h, s.2.map g)) (Rule.takeAlias view bare as)
      (Rule.takeAlias view' bare (as.map g)) := by
  cases as with
  | nil => exact .of_ok rfl
  | cons a rest =>
    simp only [List.map_cons, Rule.takeAlias, tr.leafIs]
    split
    · cases rest with
      | nil => exact agree_object a (.refl _)
      | cons b rest =>
        simp only [List.map_cons, tr.bareName?]
        cases Rule.bareName? view b with
        | none => exact agree_object a (.refl _)
        | some name => exact .of_ok rfl
    · cases bare with
      | false => exact .of_ok rfl
      | true =>
        simp only [if_true, tr.bareName?]
        cases Rule.bareName? view a <;> exact .of_ok rfl

theorem applyFromClause_agree (focus : Focus α) :
    Agree g h (Option.map (Fold.map g h)) (applyFromClause view focus)
      (applyFromClause view' (focus.map g)) := by
  unfold applyFromClause
  rw [show (focus.map g).here = g focus.here from rfl, tr.leaf?]
  cases Rule.leaf? view .fromKw focus.here with
  | none => exact agree_decline
  | some keyword =>
    refine (tr.takeSource? true focus.right).bind fun source _ => ?_
    cases source with
    | none => exact agree_decline
    | some s => exact (tr.takeAlias true s.2).bind fun _ _ => agree_fold rfl rfl rfl

/-! ## Joins -/

theorem takeModifiers (as : List α) :
    Rule.takeModifiers view' (as.map g) =
      ((Rule.takeModifiers view as).1.map h, (Rule.takeModifiers view as).2.map g) := by
  induction as with
  | nil => rfl
  | cons a rest ih =>
    simp only [List.map_cons, Rule.takeModifiers, tr.leafOf?]
    cases Rule.leafOf? view TokenKind.isJoinModifier a with
    | none => rfl
    | some t =>
      rw [Option.map_some, ih]
      rfl

theorem takeJoinRestriction (as : List α) :
    Agree g h
      (fun s : Option (Restriction (Origin α)) × List α =>
        (s.1.map fun c => ⟨h c.keyword, c.expression.map g h⟩, s.2.map g))
      (Rule.takeJoinRestriction view as) (Rule.takeJoinRestriction view' (as.map g)) := by
  cases as with
  | nil => exact .of_ok rfl
  | cons a rest =>
    simp only [List.map_cons, Rule.takeJoinRestriction, tr.leaf?]
    cases Rule.leaf? view .onKw a with
    | some keyword =>
      cases rest with
      | nil => exact tr.missingAfter a .expression
      | cons e after =>
        simp only [Option.map_some, List.map_cons, tr.isOperand]
        split
        · exact .of_ok rfl
        · exact tr.missingAfter a .expression
    | none =>
      cases Rule.leaf? view .usingKw a with
      | some keyword =>
        cases rest with
        | nil => exact tr.missingAfter a .columnList
        | cons e after =>
          simp only [Option.map_none, Option.map_some, List.map_cons, tr.isNode]
          split
          · exact .of_ok rfl
          · exact tr.missingAfter a .columnList
      | none => exact .of_ok rfl

theorem applyJoin_agree (focus : Focus α) :
    Agree g h (Option.map (Fold.map g h)) (applyJoin view focus)
      (applyJoin view' (focus.map g)) := by
  unfold applyJoin
  have before : ((focus.map g).left.head?.any fun a =>
        (Rule.leafOf? view' TokenKind.isJoinModifier a).isSome) =
      focus.left.head?.any fun a => (Rule.leafOf? view TokenKind.isJoinModifier a).isSome := by
    apply any_head?
    intro a
    rw [tr.leafOf?, Option.isSome_map]
  rw [before, show (focus.map g).here :: (focus.map g).right =
    (focus.here :: focus.right).map g from rfl, tr.takeModifiers]
  split
  · exact agree_decline
  · obtain ⟨modifiers, _ | ⟨a, rest⟩⟩ := Rule.takeModifiers view (focus.here :: focus.right)
    · exact agree_decline
    · simp only [List.map_cons, tr.leaf?]
      cases Rule.leaf? view .joinKw a with
      | none => exact agree_decline
      | some word =>
        refine (tr.takeSource? true rest).bind fun source _ => ?_
        cases source with
        | none =>
          refine agree_object a (.expected .table (.some (.refl _)) ?_)
          cases rest with
          | nil => exact .none
          | cons b _ => exact .some (tr.mention b)
        | some s =>
          refine (tr.takeAlias true s.2).bind fun _ _ => ?_
          refine (tr.takeJoinRestriction _).bind fun r _ => ?_
          refine agree_fold rfl ?_ rfl
          obtain ⟨_ | condition, after⟩ := r
          · simp [Node.map, Node.mapTokens]
          · simp [Node.map, Node.mapTokens, Restriction.map, Restriction.mapTokens]

/-! ## Conditions -/

theorem takeRestriction? (kind : TokenKind) (focus : Focus α) :
    Agree g h
      (Option.map fun s : Restriction (Origin α) × List α =>
        (⟨h s.1.keyword, s.1.expression.map g h⟩, s.2.map g))
      (Rule.takeRestriction? view kind focus)
      (Rule.takeRestriction? view' kind (focus.map g)) := by
  unfold Rule.takeRestriction?
  rw [show (focus.map g).here = g focus.here from rfl,
    show (focus.map g).right = focus.right.map g from rfl, tr.leaf?]
  cases Rule.leaf? view kind focus.here with
  | none => exact .of_ok rfl
  | some keyword =>
    cases focus.right with
    | nil => exact tr.missingAfter focus.here .expression
    | cons a after =>
      simp only [Option.map_some, List.map_cons, tr.isOperand]
      split
      · exact .of_ok rfl
      · exact agree_object a (.expected .expression (.some (.refl _)) (.some (tr.mention a)))

theorem applyWhereClause_agree (focus : Focus α) :
    Agree g h (Option.map (Fold.map g h)) (applyWhereClause view focus)
      (applyWhereClause view' (focus.map g)) := by
  refine (tr.takeRestriction? .whereKw focus).bind fun condition _ => ?_
  cases condition with
  | none => exact agree_decline
  | some s => exact agree_fold rfl rfl rfl

theorem applyHavingClause_agree (focus : Focus α) :
    Agree g h (Option.map (Fold.map g h)) (applyHavingClause view focus)
      (applyHavingClause view' (focus.map g)) := by
  refine (tr.takeRestriction? .havingKw focus).bind fun condition _ => ?_
  cases condition with
  | none => exact agree_decline
  | some s => exact agree_fold rfl rfl rfl

/-! ## Lists -/

theorem takeExpressions (previous : α) (as : List α) :
    Agree g h (fun s => (s.1.map g, s.2.map g)) (Rule.takeExpressions view previous as)
      (Rule.takeExpressions view' (g previous) (as.map g)) := by
  fun_induction Rule.takeExpressions view previous as with
  | case1 previous => exact tr.missingAfter previous .expression
  | case2 previous a operand =>
    simp only [List.map_cons, List.map_nil, Rule.takeExpressions, tr.isOperand, operand, if_true]
    exact .of_ok rfl
  | case3 previous a noOperand =>
    simp only [List.map_cons, List.map_nil, Rule.takeExpressions, tr.isOperand, noOperand]
    exact tr.misplaced a .expression
  | case4 previous a comma rest operand isComma ih =>
    simp only [List.map_cons, Rule.takeExpressions, tr.isOperand, operand, if_true, tr.leafIs,
      isComma]
    exact ih.bind fun _ _ => .of_ok rfl
  | case5 previous a comma rest operand noComma =>
    simp only [List.map_cons, Rule.takeExpressions, tr.isOperand, operand, if_true, tr.leafIs,
      noComma]
    exact .of_ok rfl
  | case6 previous a comma rest noOperand =>
    simp only [List.map_cons, Rule.takeExpressions, tr.isOperand, noOperand]
    exact tr.misplaced a .expression

theorem applyGroupBy_agree (focus : Focus α) :
    Agree g h (Option.map (Fold.map g h)) (applyGroupBy view focus)
      (applyGroupBy view' (focus.map g)) := by
  unfold applyGroupBy
  rw [show (focus.map g).here = g focus.here from rfl,
    show (focus.map g).right = focus.right.map g from rfl, tr.leaf?]
  cases Rule.leaf? view .groupKw focus.here with
  | none => exact agree_decline
  | some group =>
    cases focus.right with
    | nil => exact agree_object focus.here (.refl _)
    | cons a rest =>
      simp only [Option.map_some, List.map_cons, tr.leaf?]
      cases Rule.leaf? view .byKw a with
      | none => exact agree_object focus.here (.refl _)
      | some byKeyword =>
        refine (tr.takeExpressions a rest).bind fun s _ => ?_
        refine agree_fold rfl ?_ rfl
        simp [Node.map, Node.mapTokens, Origin.map]

theorem takeDirection (as : List α) :
    Rule.takeDirection view' (as.map g) =
      ((Rule.takeDirection view as).1.map h, (Rule.takeDirection view as).2.map g) := by
  cases as with
  | nil => rfl
  | cons a rest =>
    simp only [List.map_cons, Rule.takeDirection, tr.leafOf?]
    cases Rule.leafOf? view isDirection a <;> rfl

theorem takeSortKeys (previous : α) (as : List α) :
    Agree g h
      (fun s : List (SortKey (Origin α)) × List α =>
        (s.1.map fun i => ⟨i.expression.map g h, i.direction.map h⟩, s.2.map g))
      (Rule.takeSortKeys view previous as)
      (Rule.takeSortKeys view' (g previous) (as.map g)) := by
  fun_induction Rule.takeSortKeys view previous as with
  | case1 previous =>
    rw [List.map_nil, Rule.takeSortKeys]
    exact tr.missingAfter previous .expression
  | case2 previous a rest operand item ended =>
    rw [List.map_cons, takeSortKeys_cons, tr.isOperand, tr.takeDirection]
    simp only [operand, ended, if_true]
    exact .of_ok rfl
  | case3 previous a rest operand item b behind next isEnd =>
    rw [List.map_cons, takeSortKeys_cons, tr.isOperand, tr.takeDirection]
    simp only [operand, next, if_true, List.map_cons, tr.leafIs, isEnd]
    exact .of_ok rfl
  | case4 previous a rest operand item b behind next notEnd isComma _ ih =>
    rw [List.map_cons, takeSortKeys_cons, tr.isOperand, tr.takeDirection]
    simp only [operand, next, if_true, List.map_cons, tr.leafIs, notEnd, isComma]
    exact ih.bind fun _ _ => .of_ok rfl
  | case5 previous a rest operand b behind next notEnd noComma =>
    rw [List.map_cons, takeSortKeys_cons, tr.isOperand, tr.takeDirection]
    simp only [operand, next, if_true, List.map_cons, tr.leafIs, notEnd, noComma]
    exact tr.misplaced b .direction
  | case6 previous a rest noOperand =>
    rw [List.map_cons, takeSortKeys_cons, tr.isOperand]
    simp only [noOperand]
    exact tr.misplaced a .expression

theorem applyOrderBy_agree (focus : Focus α) :
    Agree g h (Option.map (Fold.map g h)) (applyOrderBy view focus)
      (applyOrderBy view' (focus.map g)) := by
  unfold applyOrderBy
  rw [show (focus.map g).here = g focus.here from rfl,
    show (focus.map g).right = focus.right.map g from rfl, tr.leaf?]
  cases Rule.leaf? view .orderKw focus.here with
  | none => exact agree_decline
  | some order =>
    cases focus.right with
    | nil => exact agree_object focus.here (.refl _)
    | cons a rest =>
      simp only [Option.map_some, List.map_cons, tr.leaf?]
      cases Rule.leaf? view .byKw a with
      | none => exact agree_object focus.here (.refl _)
      | some byKeyword =>
        refine (tr.takeSortKeys a rest).bind fun s _ => ?_
        refine agree_fold rfl ?_ rfl
        simp [Node.map, Node.mapTokens, SortKey.map]

/-! ## Statements -/

theorem takeOptionalLeaf (kind : TokenKind) (as : List α) :
    Rule.takeOptionalLeaf view' kind (as.map g) =
      ((Rule.takeOptionalLeaf view kind as).1.map h,
        (Rule.takeOptionalLeaf view kind as).2.map g) := by
  cases as with
  | nil => rfl
  | cons a rest =>
    simp only [List.map_cons, Rule.takeOptionalLeaf, tr.leaf?]
    cases Rule.leaf? view kind a <;> rfl

theorem takeNode (kind : NodeKind) (as : List α) :
    Rule.takeNode view' kind (as.map g) =
      ((Rule.takeNode view kind as).1.map g, (Rule.takeNode view kind as).2.map g) := by
  cases as with
  | nil => rfl
  | cons a rest =>
    simp only [List.map_cons, Rule.takeNode, tr.isNode]
    split <;> rfl

theorem takeNodes (kind : NodeKind) (as : List α) :
    Rule.takeNodes view' kind (as.map g) =
      ((Rule.takeNodes view kind as).1.map g, (Rule.takeNodes view kind as).2.map g) := by
  have same : Rule.isNode view' kind ∘ g = Rule.isNode view kind := funext (tr.isNode kind)
  rw [Rule.takeNodes, Rule.takeNodes, List.span_eq_takeWhile_dropWhile,
    List.span_eq_takeWhile_dropWhile, List.takeWhile_map, List.dropWhile_map, same]

theorem endsStatement (as : List α) :
    Rule.endsStatement view' (as.map g) = Rule.endsStatement view as := by
  cases as with
  | nil => rfl
  | cons a _ => exact tr.leafIs .semicolon a

theorem missingColumn {β γ : Type} {f : β → γ} (comma : Bool) (previous : α) :
    Agree g h f (Rule.missingColumn view comma previous)
      (Rule.missingColumn view' comma (g previous)) := by
  cases comma with
  | true => exact agree_object previous (.refl _)
  | false => exact tr.missingAfter previous .firstColumn

theorem takeProjections (comma : Bool) (previous : α) (as : List α) :
    Agree g h
      (fun s : List (Projection (Origin α)) × List α =>
        (s.1.map fun i => ⟨i.expression.map g h, i.aliasName.map h⟩, s.2.map g))
      (Rule.takeProjections view comma previous as)
      (Rule.takeProjections view' comma (g previous) (as.map g)) := by
  fun_induction Rule.takeProjections view comma previous as with
  | case1 comma previous =>
    rw [List.map_nil, Rule.takeProjections]
    exact tr.missingColumn comma previous
  | case2 comma previous a rest operand objection aliased =>
    have agreed := tr.takeAlias false rest
    rw [List.map_cons, takeProjections_cons, tr.isOperand, if_pos operand]
    rw [aliased] at agreed
    generalize Rule.takeAlias view' false (rest.map g) = aliased' at agreed ⊢
    cases agreed with
    | error renamed => exact .error renamed
  | case3 comma previous a rest operand aliasName aliased =>
    have agreed := tr.takeAlias false rest
    rw [List.map_cons, takeProjections_cons, tr.isOperand, if_pos operand]
    rw [aliased] at agreed
    generalize Rule.takeAlias view' false (rest.map g) = aliased' at agreed ⊢
    cases agreed with
    | ok => exact .of_ok rfl
  | case4 comma previous a rest operand aliasName b behind aliased isComma _ ih =>
    have agreed := tr.takeAlias false rest
    rw [List.map_cons, takeProjections_cons, tr.isOperand, if_pos operand]
    rw [aliased] at agreed
    generalize Rule.takeAlias view' false (rest.map g) = aliased' at agreed ⊢
    cases agreed with
    | ok =>
      simp only [List.map_cons, tr.leafIs, isComma, if_true]
      exact ih.bind fun _ _ => .of_ok rfl
  | case5 comma previous a rest operand aliasName b behind aliased noComma =>
    have agreed := tr.takeAlias false rest
    rw [List.map_cons, takeProjections_cons, tr.isOperand, if_pos operand]
    rw [aliased] at agreed
    generalize Rule.takeAlias view' false (rest.map g) = aliased' at agreed ⊢
    cases agreed with
    | ok =>
      simp only [List.map_cons, tr.leafIs, noComma]
      exact .of_ok rfl
  | case6 comma previous a rest noOperand =>
    rw [List.map_cons, takeProjections_cons, tr.isOperand, if_neg noOperand]
    exact tr.missingColumn comma previous

theorem beforeSelectList (focus : Focus α) :
    Rule.beforeSelectList view' (focus.map g) = g (Rule.beforeSelectList view focus) := by
  unfold Rule.beforeSelectList
  rw [show (focus.map g).right = focus.right.map g from rfl]
  cases focus.right with
  | nil => rfl
  | cons a _ =>
    simp only [List.map_cons, tr.leafIs]
    split <;> rfl

theorem applySelect_agree (focus : Focus α) :
    Agree g h (Option.map (Fold.map g h)) (applySelect view focus)
      (applySelect view' (focus.map g)) := by
  unfold applySelect
  rw [show (focus.map g).here = g focus.here from rfl,
    show (focus.map g).right = focus.right.map g from rfl, tr.leaf?]
  cases Rule.leaf? view .selectKw focus.here with
  | none => exact agree_decline
  | some keyword =>
    simp only [Option.map_some, tr.takeOptionalLeaf, tr.beforeSelectList]
    refine (tr.takeProjections false _ _).bind fun s _ => ?_
    simp only [tr.takeNode, tr.takeNodes, tr.endsStatement]
    split
    · refine agree_fold rfl ?_ rfl
      simp [Node.map, Node.mapTokens, Projection.map, Origin.map, Function.comp_def]
    · exact agree_decline

theorem missingAssignment {β γ : Type} {f : β → γ} (comma : Bool) (previous : α) :
    Agree g h f (Rule.missingAssignment view comma previous)
      (Rule.missingAssignment view' comma (g previous)) := by
  cases comma with
  | true => exact agree_object previous (.refl _)
  | false => exact tr.missingAfter previous .firstAssignment

theorem takeAssignments (comma : Bool) (previous : α) (as : List α)
    (assigns : ∀ a ∈ as, isAssignment view' (g a) = isAssignment view a) :
    Agree g h (fun s => (s.1.map g, s.2.map g)) (Rule.takeAssignments view comma previous as)
      (Rule.takeAssignments view' comma (g previous) (as.map g)) := by
  fun_induction Rule.takeAssignments view comma previous as with
  | case1 comma previous => exact tr.missingAssignment comma previous
  | case2 comma previous a operand isOne =>
    simp only [List.map_cons, List.map_nil, Rule.takeAssignments, tr.isOperand, operand, if_true,
      assigns a (by simp), isOne]
    exact .of_ok rfl
  | case3 comma previous a operand notOne =>
    simp only [List.map_cons, List.map_nil, Rule.takeAssignments, tr.isOperand, operand, if_true,
      assigns a (by simp), notOne]
    exact agree_object a (.refl _)
  | case4 comma previous a noOperand =>
    simp only [List.map_cons, List.map_nil, Rule.takeAssignments, tr.isOperand, noOperand]
    exact tr.missingAssignment comma previous
  | case5 comma previous a b rest operand isOne isComma ih =>
    simp only [List.map_cons, Rule.takeAssignments, tr.isOperand, operand, if_true,
      assigns a (by simp), isOne, tr.leafIs, isComma]
    refine (ih fun c hc => assigns c (by simp [hc])).bind fun _ _ => .of_ok rfl
  | case6 comma previous a b rest operand isOne noComma =>
    simp only [List.map_cons, Rule.takeAssignments, tr.isOperand, operand, if_true,
      assigns a (by simp), isOne, tr.leafIs, noComma]
    exact .of_ok rfl
  | case7 comma previous a b rest operand notOne =>
    simp only [List.map_cons, Rule.takeAssignments, tr.isOperand, operand, if_true,
      assigns a (by simp), notOne]
    exact agree_object a (.refl _)
  | case8 comma previous a b rest noOperand =>
    simp only [List.map_cons, Rule.takeAssignments, tr.isOperand, noOperand]
    exact tr.missingAssignment comma previous

theorem applyUpdate_agree (focus : Focus α)
    (assigns : ∀ a ∈ focus.right, isAssignment view' (g a) = isAssignment view a) :
    Agree g h (Option.map (Fold.map g h)) (applyUpdate view focus)
      (applyUpdate view' (focus.map g)) := by
  unfold applyUpdate
  rw [show (focus.map g).here = g focus.here from rfl,
    show (focus.map g).right = focus.right.map g from rfl, tr.leaf?]
  cases Rule.leaf? view .updateKw focus.here with
  | none => exact agree_decline
  | some keyword =>
    refine (tr.takeSource? false focus.right).bind fun source sourceTaken => ?_
    cases source with
    | none => exact agree_object focus.here (.refl _)
    | some s =>
      obtain ⟨table, rest⟩ := s
      refine (tr.takeAlias true rest).bind fun s aliasTaken => ?_
      obtain ⟨aliasName, rest₁⟩ := s
      simp only [tr.takeNodes]
      cases joinsTaken : Rule.takeNodes view .join rest₁ with
      | mk joins rest₂ =>
        cases rest₂ with
        | nil => exact agree_decline
        | cons b rest₂ =>
          simp only [List.map_cons, tr.leaf?]
          cases Rule.leaf? view .setKw b with
          | none => exact agree_decline
          | some setKeyword =>
            obtain ⟨a, right, _⟩ := takeSource?_some sourceTaken
            obtain ⟨front, _, rfl, _⟩ := takeAlias_ok aliasTaken
            obtain ⟨rfl, _⟩ := takeNodes_eq joinsTaken
            have behind : ∀ c ∈ rest₂, isAssignment view' (g c) = isAssignment view c := by
              intro c hc
              apply assigns
              simp [right, hc]
            refine (tr.takeAssignments false b rest₂ behind).bind fun s _ => ?_
            simp only [tr.takeNode, tr.endsStatement]
            split
            · refine agree_fold rfl ?_ rfl
              simp [Node.map, Node.mapTokens, Origin.map, Function.comp_def]
            · exact agree_decline

/-! ## Every rule -/

/-- A rule gives corresponding answers on corresponding siblings. -/
theorem apply_agree (rule : Rule) (focus : Focus α)
    (assigns : ∀ a ∈ focus.right, isAssignment view' (g a) = isAssignment view a) :
    Agree g h (Option.map (Fold.map g h)) (rule.apply view focus)
      (rule.apply view' (focus.map g)) := by
  cases rule with
  | bracket => exact tr.applyBracket_agree focus
  | call => exact tr.applyCall_agree focus
  | literal => exact tr.applyLiteral_agree focus
  | allColumns => exact tr.applyAllColumns_agree focus
  | column => exact tr.applyColumn_agree focus
  | membership => exact tr.applyMembership_agree focus
  | operation => exact tr.applyOperation_agree focus
  | conjunction => exact tr.applyConjunction_agree focus
  | fromClause => exact tr.applyFromClause_agree focus
  | join => exact tr.applyJoin_agree focus
  | whereClause => exact tr.applyWhereClause_agree focus
  | havingClause => exact tr.applyHavingClause_agree focus
  | groupBy => exact tr.applyGroupBy_agree focus
  | orderBy => exact tr.applyOrderBy_agree focus
  | select => exact tr.applySelect_agree focus
  | update => exact tr.applyUpdate_agree focus assigns

end Translates

/-- Where the tokens stay, corresponding siblings get one answer. -/
theorem apply_map (shows : ∀ a, view' (g a) = (view a).map g) (rule : Rule) (focus : Focus α) :
    rule.apply view' (focus.map g) =
      ((rule.apply view focus).map (Option.map (Fold.map g id))).mapError (Objection.map g) := by
  have tr := Translates.of_map shows
  have assigns (a : α) : isAssignment view' (g a) = isAssignment view a := by
    unfold isAssignment
    rw [shows]
    cases view a with
    | operation o =>
      simp only [Node.map, tr.isNode]
      rfl
    | _ => rfl
  have agreed := tr.apply_agree rule focus fun a _ => assigns a
  generalize rule.apply view focus = answer at agreed ⊢
  generalize rule.apply view' (focus.map g) = answer' at agreed ⊢
  cases agreed with
  | ok fold => rfl
  | error renamed =>
    rw [renamed.eq_of_id]
    rfl

/-- An objection is to one of the siblings or to a node below them. -/
theorem culprit_of_closed {P : α → Prop} (closed : ∀ a, P a → ∀ c ∈ (view a).children, P c)
    {rule : Rule} {focus : Focus α}
    (all : ∀ a ∈ focus.left.reverse ++ focus.here :: focus.right, P a) {o : Objection α}
    (answer : rule.apply view focus = .error o) : P o.culprit := by
  classical
  have hereP : P focus.here := all _ (by simp)
  -- The rule does the same on siblings that carry a proof of `P` with them.
  let r (a : α) : {a // P a} := if p : P a then ⟨a, p⟩ else ⟨focus.here, hereP⟩
  have back {a : α} (p : P a) : (r a).val = a := by simp only [r, dif_pos p]
  let proven (s : {a // P a}) : Node {a // P a} := (view s.val).map r
  have shows (s : {a // P a}) : view s.val = (proven s).map Subtype.val := by
    rw [Node.map_map]
    conv_lhs => rw [← Node.map_id' (view s.val)]
    exact Node.map_congr fun c mem => (back (closed s.val s.property c mem)).symm
  have same : (focus.map r).map Subtype.val = focus := by
    have each {as : List α} (mem : ∀ a ∈ as, P a) : (as.map r).map Subtype.val = as := by
      rw [List.map_map]
      conv_rhs => rw [← List.map_id as]
      exact List.map_congr_left fun a ha => back (mem a ha)
    obtain ⟨left, here, right⟩ := focus
    simp only [Focus.map, Focus.mk.injEq]
    exact ⟨each fun a ha => all a (by simp [ha]), back hereP, each fun a ha => all a (by simp [ha])⟩
  have mapped := apply_map shows rule (focus.map r)
  rw [same, answer] at mapped
  cases inner : rule.apply proven (focus.map r) with
  | ok fold =>
    rw [inner] at mapped
    cases mapped
  | error o' =>
    rw [inner] at mapped
    cases mapped
    exact o'.culprit.property

end SqlFold.Rule
