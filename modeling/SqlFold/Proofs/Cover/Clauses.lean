import Mathlib.Data.List.TakeDrop
import Mathlib.Data.List.TakeWhile
import SqlFold.Proofs.Cover.Operands

/-!
# Folds of clauses and statements

The rules from `Rule.fromClause` on cover what they take. `Rule.apply_covers` says so of every rule.
-/

namespace SqlFold.Rule

variable {α : Type} {view : α → Node α}

/-! ## Sources and aliases -/

theorem takeSource?_some {subquery : Bool} {as rest : List α} {source : Origin α}
    (h : takeSource? view subquery as = .ok (some (source, rest))) :
    ∃ a, as = a :: rest ∧ Matches view (.child source) a ∧ (glanceOrigin view source).IsSource ∧
      (subquery = false → (glanceOrigin view source).kind = .table) := by
  cases as with
  | nil => cases h
  | cons a as =>
    obtain ⟨source', found, h⟩ := bind_eq_ok h
    cases source' with
    | none => cases h
    | some source' =>
      cases h
      refine ⟨a, rfl, ?_⟩
      unfold source? at found
      split at found
      · next c ha =>
        split at found
        · exact (object_ne found).elim
        · next noSchema =>
          cases found
          obtain ⟨s, t, n⟩ := c
          simp only [Bool.not_eq_true, Option.isSome_eq_false_iff, Option.isNone_iff_eq_none] at noSchema
          subst noSchema
          exact ⟨.table ha, .inl rfl, fun _ => rfl⟩
      · next p ha =>
        cases subquery with
        | false => cases found
        | true =>
          cases found
          exact ⟨.sibling a, .inr (by simp [glanceOrigin, glance, ha, Node.kind]), by simp⟩
      · cases found

theorem bareName?_some {a : α} {t : Token} (h : bareName? view a = some t) :
    view a = .column ⟨none, none, t⟩ := by
  unfold bareName? at h
  split at h
  · next ha =>
    cases h
    exact ha
  · cases h

/-- An alias covers a column and, where it is written, the `AS` before it. -/
theorem takeAlias_ok {bare : Bool} {as rest : List α} {aliasName : Option Token}
    (h : takeAlias view bare as = .ok (aliasName, rest)) :
    ∃ front ps, as = front ++ rest ∧ Aliased (!bare) aliasName ps ∧ MatchesAll view ps front ∧
      ∀ t ∈ aliasName, ∃ a ∈ front, view a = .column ⟨none, none, t⟩ := by
  cases as with
  | nil =>
    cases h
    exact ⟨[], [], rfl, .none, .nil, by simp⟩
  | cons a as =>
    simp only [takeAlias] at h
    split at h
    · next isWord =>
      obtain ⟨word, ha, kind⟩ := leafIs_iff.mp isWord
      cases as with
      | nil => exact (object_ne h).elim
      | cons b as =>
        dsimp only at h
        split at h
        · next name found =>
          cases h
          have hb := bareName?_some found
          exact ⟨[a, b], _, rfl, .worded kind, .cons (.leaf ha) (.cons (.name hb) .nil),
            by simp [hb]⟩
        · exact (object_ne h).elim
    · split at h
      · next name found =>
        cases h
        cases bare with
        | false => cases found
        | true =>
          have ha := bareName?_some found
          exact ⟨[a], _, rfl, .bare rfl, .cons (.name ha) .nil, by simp [ha]⟩
      · cases h
        exact ⟨[], [], rfl, .none, .nil, by simp⟩

/-- The name of an alias is a name, since it was a column. -/
theorem symbol_of_alias {aliasName : Option Token} {front as : List α} (subset : front ⊆ as)
    (named : ∀ t ∈ aliasName, ∃ a ∈ front, view a = .column ⟨none, none, t⟩)
    (sound : ∀ a ∈ as, ∀ c, view a = .column c → c.Sound) :
    ∀ t ∈ aliasName, t.kind = .symbol := by
  intro t ht
  obtain ⟨a, ha, eq⟩ := named t ht
  exact (sound a (subset ha) _ eq).symbols t (by simp)

/-! ## From and joins -/

theorem applyFromClause_covers {focus : Focus α} {f : Fold α}
    (h : applyFromClause view focus = .ok (some f)) :
    ∃ back ahead, Covers view focus f back ahead := by
  unfold applyFromClause at h
  split at h
  · exact (decline_ne h).elim
  · next keyword here =>
    obtain ⟨here, kind⟩ := leaf?_eq_some.mp here
    obtain ⟨source?, taken, h⟩ := bind_eq_ok h
    cases source? with
    | none => exact (decline_ne h).elim
    | some p =>
      obtain ⟨source, rest⟩ := p
      obtain ⟨⟨aliasName, after⟩, aliasTaken, h⟩ := bind_eq_ok h
      obtain rfl := fold_eq_ok h
      obtain ⟨a, right, matched, isSource, _⟩ := takeSource?_some taken
      obtain ⟨front, ps, rfl, aliased, matched', named⟩ := takeAlias_ok aliasTaken
      refine ⟨[], a :: front, rfl, right, ⟨_, .fromClause aliased, ?_⟩,
        ⟨focus.here, by simp, kind_of_leaf here⟩, by simp [Node.kind], fun sound => ?_⟩
      · exact .cons (.leaf here) (.cons matched matched')
      · have subset : front ⊆ [].reverse ++ focus.here :: a :: front := by
          intro b hb
          simp [hb]
        exact ⟨kind, isSource, symbol_of_alias subset named sound⟩

/-- The modifiers are the leaves that they are read from. -/
theorem takeModifiers_eq {as rest : List α} {modifiers : List Token}
    (h : takeModifiers view as = (modifiers, rest)) :
    ∃ front, as = front ++ rest ∧ MatchesAll view (modifiers.map .token) front ∧
      ∀ t ∈ modifiers, t.kind.isJoinModifier = true := by
  induction as generalizing modifiers with
  | nil =>
    cases h
    exact ⟨[], rfl, .nil, by simp⟩
  | cons a as ih =>
    unfold takeModifiers at h
    split at h
    · next t isModifier =>
      obtain ⟨ha, kind⟩ := leafOf?_eq_some.mp isModifier
      cases taken : takeModifiers view as with
      | mk modifiers' rest' =>
        rw [taken] at h
        cases h
        obtain ⟨front, rfl, matched, kinds⟩ := ih taken
        exact ⟨a :: front, rfl, .cons (.leaf ha) matched, by simpa using ⟨kind, kinds⟩⟩
    · cases h
      exact ⟨[], rfl, .nil, by simp⟩

/-- The condition of a join covers its keyword and its expression. -/
theorem takeJoinRestriction_ok {as rest : List α} {condition : Option (Restriction (Origin α))}
    (h : takeJoinRestriction view as = .ok (condition, rest)) :
    ∃ front, as = front ++ rest ∧
      MatchesAll view ((condition.map Restriction.pieces).getD []) front ∧
      ∀ c ∈ condition,
        c.keyword.kind = .onKw ∧ (glanceOrigin view c.expression).kind.isExpression = true ∨
          c.keyword.kind = .usingKw ∧ (glanceOrigin view c.expression).kind = .bracket := by
  cases as with
  | nil =>
    cases h
    exact ⟨[], rfl, .nil, by simp⟩
  | cons a as =>
    simp only [takeJoinRestriction] at h
    split at h
    · next keyword isOn =>
      obtain ⟨ha, kind⟩ := leaf?_eq_some.mp isOn
      cases as with
      | nil => exact (object_ne h).elim
      | cons e after =>
        dsimp only at h
        split at h
        · next operand =>
          cases h
          refine ⟨[a, e], rfl, .cons (.leaf ha) (.cons (.sibling e) .nil), ?_⟩
          rintro _ ⟨⟩
          exact .inl ⟨kind, operand⟩
        · exact (object_ne h).elim
    · next keyword _ isUsing =>
      obtain ⟨ha, kind⟩ := leaf?_eq_some.mp isUsing
      cases as with
      | nil => exact (object_ne h).elim
      | cons e after =>
        dsimp only at h
        split at h
        · next list =>
          cases h
          refine ⟨[a, e], rfl, .cons (.leaf ha) (.cons (.sibling e) .nil), ?_⟩
          rintro _ ⟨⟩
          exact .inr ⟨kind, isNode_iff.mp list⟩
        · exact (object_ne h).elim
    · cases h
      exact ⟨[], rfl, .nil, by simp⟩

theorem applyJoin_covers {focus : Focus α} {f : Fold α} (h : applyJoin view focus = .ok (some f)) :
    ∃ back ahead, Covers view focus f back ahead := by
  unfold applyJoin at h
  split at h
  · exact (decline_ne h).elim
  · split at h
    · exact (decline_ne h).elim
    · next modifiers a rest taken =>
      obtain ⟨front, start, matched, kinds⟩ := takeModifiers_eq taken
      split at h
      · exact (decline_ne h).elim
      · next word isWord =>
        obtain ⟨ha, kind⟩ := leaf?_eq_some.mp isWord
        obtain ⟨source?, sourceTaken, h⟩ := bind_eq_ok h
        cases source? with
        | none => exact (object_ne h).elim
        | some p =>
          obtain ⟨source, rest'⟩ := p
          obtain ⟨⟨aliasName, rest''⟩, aliasTaken, h⟩ := bind_eq_ok h
          obtain ⟨⟨condition, after⟩, conditionTaken, h⟩ := bind_eq_ok h
          obtain rfl := fold_eq_ok h
          obtain ⟨b, rfl, matchedSource, isSource, _⟩ := takeSource?_some sourceTaken
          obtain ⟨named, ps, rfl, aliased, matchedAlias, aliasNamed⟩ := takeAlias_ok aliasTaken
          obtain ⟨restricted, rfl, matchedCondition, slots⟩ := takeJoinRestriction_ok conditionTaken
          obtain ⟨ahead, taken, right⟩ : ∃ ahead,
              focus.here :: ahead = front ++ [a] ++ b :: named ++ restricted ∧
                focus.right = ahead ++ after := by
            cases front with
            | nil =>
              obtain ⟨rfl, right⟩ := List.cons.inj start
              exact ⟨b :: named ++ restricted, rfl, by simpa using right⟩
            | cons c front =>
              obtain ⟨rfl, right⟩ := List.cons.inj start
              exact ⟨front ++ [a] ++ b :: named ++ restricted, rfl, by simpa using right⟩
          refine ⟨[], ahead, rfl, right, ⟨_, .join aliased, ?_⟩, ⟨a, ?_, kind_of_leaf ha⟩,
            by simp [Node.kind], fun sound => ⟨⟨modifiers, word, rfl, kind, kinds⟩, isSource, ?_,
              slots⟩⟩
          · rw [List.reverse_nil, List.nil_append, taken, List.map_append]
            exact ((matched.append (matchesAll_leaf ha)).append
              (.cons matchedSource matchedAlias)).append matchedCondition
          · rw [List.reverse_nil, List.nil_append, taken]
            simp
          · refine symbol_of_alias ?_ aliasNamed sound
            rw [List.reverse_nil, List.nil_append, taken]
            intro c hc
            simp [hc]

/-! ## Conditions and lists -/

theorem takeRestriction?_some {kind : TokenKind} {focus : Focus α}
    {condition : Restriction (Origin α)} {after : List α}
    (h : takeRestriction? view kind focus = .ok (some (condition, after))) :
    ∃ a, focus.right = a :: after ∧ view focus.here = .leaf condition.keyword ∧
      condition.keyword.kind = kind ∧ condition.expression = .sibling a ∧
      isOperand view a = true := by
  unfold takeRestriction? at h
  split at h
  · cases h
  · next keyword here =>
    obtain ⟨here, kind⟩ := leaf?_eq_some.mp here
    split at h
    · exact (object_ne h).elim
    · next a rest right =>
      split at h
      · next operand =>
        cases h
        exact ⟨a, right, here, kind, rfl, operand⟩
      · exact (object_ne h).elim

/-- A keyword and its condition are covered by any node that is written so. -/
theorem restriction_covers {kind : TokenKind} {focus : Focus α} {condition : Restriction (Origin α)}
    {after : List α} (taken : takeRestriction? view kind focus = .ok (some (condition, after)))
    {node : Node (Origin α)} (written : node.Written condition.pieces)
    (notLeaf : node.kind ≠ .tokenLeaf)
    (slots : condition.keyword.kind = kind →
      (glanceOrigin view condition.expression).kind.isExpression = true →
        node.Slots (glanceOrigin view)) :
    ∃ back ahead, Covers view focus ⟨focus.left, node, after⟩ back ahead := by
  obtain ⟨a, right, here, kind, expression, operand⟩ := takeRestriction?_some taken
  refine ⟨[], [a], rfl, right, ⟨_, written, ?_⟩, ⟨focus.here, by simp, kind_of_leaf here⟩, notLeaf,
    fun _ => slots kind (by rw [expression]; exact operand)⟩
  rw [Restriction.pieces, expression]
  exact .cons (.leaf here) (.cons (.sibling a) .nil)

theorem applyWhereClause_covers {focus : Focus α} {f : Fold α}
    (h : applyWhereClause view focus = .ok (some f)) :
    ∃ back ahead, Covers view focus f back ahead := by
  obtain ⟨condition?, taken, h⟩ := bind_eq_ok h
  cases condition? with
  | none => exact (decline_ne h).elim
  | some p =>
    obtain rfl := fold_eq_ok h
    exact restriction_covers taken (.whereClause _) (by simp [Node.kind]) (fun k e => ⟨k, e⟩)

theorem applyHavingClause_covers {focus : Focus α} {f : Fold α}
    (h : applyHavingClause view focus = .ok (some f)) :
    ∃ back ahead, Covers view focus f back ahead := by
  obtain ⟨condition?, taken, h⟩ := bind_eq_ok h
  cases condition? with
  | none => exact (decline_ne h).elim
  | some p =>
    obtain rfl := fold_eq_ok h
    exact restriction_covers taken (.havingClause _) (by simp [Node.kind]) (fun k e => ⟨k, e⟩)

/-- A list of expressions covers them and the commas between them. -/
theorem takeExpressions_ok {previous : α} {as rest es : List α}
    (h : takeExpressions view previous as = .ok (es, rest)) :
    ∃ front ps, as = front ++ rest ∧
      Listed (fun e qs => qs = [.child e]) (es.map Origin.sibling) ps ∧ MatchesAll view ps front ∧
      ∀ e ∈ es, isOperand view e = true := by
  induction previous, as using takeExpressions.induct view generalizing es with
  | case1 previous => exact (object_ne h).elim
  | case2 previous a operand =>
    simp only [takeExpressions, operand, if_true] at h
    cases h
    exact ⟨[a], _, rfl, .single rfl, .cons (.sibling a) .nil, by simpa using operand⟩
  | case3 previous a noOperand =>
    simp only [takeExpressions, noOperand] at h
    exact (object_ne h).elim
  | case4 previous a comma rest' operand isComma ih =>
    simp only [takeExpressions, operand, isComma, if_true] at h
    obtain ⟨⟨es', after⟩, taken, done⟩ := bind_eq_ok h
    cases done
    obtain ⟨front, ps, rfl, listed, matched, operands⟩ := ih taken
    obtain ⟨t, hc, kind⟩ := leafIs_iff.mp isComma
    refine ⟨a :: comma :: front, _, rfl, .cons rfl kind listed, ?_,
      List.forall_mem_cons.mpr ⟨operand, operands⟩⟩
    exact .cons (.sibling a) (.cons (.leaf hc) matched)
  | case5 previous a comma rest' operand noComma =>
    simp only [takeExpressions, operand, noComma, if_true] at h
    cases h
    exact ⟨[a], _, rfl, .single rfl, .cons (.sibling a) .nil, by simpa using operand⟩
  | case6 previous a comma rest' noOperand =>
    simp only [takeExpressions, noOperand] at h
    exact (object_ne h).elim

theorem applyGroupBy_covers {focus : Focus α} {f : Fold α}
    (h : applyGroupBy view focus = .ok (some f)) : ∃ back ahead, Covers view focus f back ahead := by
  unfold applyGroupBy at h
  split at h
  · exact (decline_ne h).elim
  · next group here =>
    obtain ⟨here, kind⟩ := leaf?_eq_some.mp here
    split at h
    · exact (object_ne h).elim
    · next a rest right =>
      split at h
      · exact (object_ne h).elim
      · next byKeyword isBy =>
        obtain ⟨ha, kind'⟩ := leaf?_eq_some.mp isBy
        obtain ⟨⟨es, after⟩, taken, h⟩ := bind_eq_ok h
        obtain rfl := fold_eq_ok h
        obtain ⟨front, ps, rfl, listed, matched, operands⟩ := takeExpressions_ok taken
        refine ⟨[], a :: front, rfl, right, ⟨_, .groupBy listed, ?_⟩,
          ⟨focus.here, by simp, kind_of_leaf here⟩, by simp [Node.kind],
          fun _ => ⟨kind, kind', List.forall_mem_map.mpr operands⟩⟩
        exact .cons (.leaf here) (.cons (.leaf ha) matched)

/-- A direction covers its leaf. -/
theorem takeDirection_split (view : α → Node α) (as : List α) :
    ∃ front, as = front ++ (takeDirection view as).2 ∧
      MatchesAll view (Piece.ofToken? (takeDirection view as).1) front ∧
      ∀ t ∈ (takeDirection view as).1, isDirection t.kind = true := by
  cases as with
  | nil => exact ⟨[], rfl, .nil, by simp [takeDirection]⟩
  | cons a as =>
    simp only [takeDirection]
    split
    · next t found =>
      obtain ⟨ha, kind⟩ := leafOf?_eq_some.mp found
      exact ⟨[a], rfl, matchesAll_leaf ha, by simpa using kind⟩
    · exact ⟨[], rfl, .nil, by simp⟩

/-- The equation of `takeSortKeys` at a sibling. -/
theorem takeSortKeys_cons (previous a : α) (rest : List α) :
    takeSortKeys view previous (a :: rest) =
      if isOperand view a then
        let item : SortKey (Origin α) := ⟨.sibling a, (takeDirection view rest).1⟩
        match (takeDirection view rest).2 with
        | [] => .ok ([item], [])
        | b :: rest' =>
          if leafIs view .semicolon b then .ok ([item], b :: rest')
          else if leafIs view .comma b then do
            let (items, after) ← takeSortKeys view b rest'
            return (item :: items, after)
          else misplaced view b .direction
      else misplaced view a .expression := by
  rw [takeSortKeys]
  split
  · dsimp only
    split <;> rename_i h <;> rw [h]
  · rfl

/-- A list of sort keys covers them, their directions and the commas between them. -/
theorem takeSortKeys_ok {previous : α} {as rest : List α} {items : List (SortKey (Origin α))}
    (h : takeSortKeys view previous as = .ok (items, rest)) :
    ∃ front ps, as = front ++ rest ∧
      Listed (fun i qs => qs = .child i.expression :: Piece.ofToken? i.direction) items ps ∧
      MatchesAll view ps front ∧
      ∀ i ∈ items, (glanceOrigin view i.expression).kind.isExpression = true ∧
        ∀ t ∈ i.direction, isDirection t.kind = true := by
  have last {a : α} {rest' rest : List α} (operand : isOperand view a = true)
      (stays : (takeDirection view rest').2 = rest) :
      ∃ front ps, a :: rest' = front ++ rest ∧
        Listed (fun i qs => qs = .child i.expression :: Piece.ofToken? i.direction)
          [SortKey.mk (Origin.sibling a) (takeDirection view rest').1] ps ∧
        MatchesAll view ps front ∧
        ∀ i ∈ [SortKey.mk (Origin.sibling a) (takeDirection view rest').1],
          (glanceOrigin view i.expression).kind.isExpression = true ∧
            ∀ t ∈ i.direction, isDirection t.kind = true := by
    obtain ⟨front, eq, matched, isWord⟩ := takeDirection_split view rest'
    subst stays
    refine ⟨a :: front, _, congrArg (a :: ·) eq, .single rfl, .cons (.sibling a) matched, ?_⟩
    exact List.forall_mem_singleton.mpr ⟨operand, isWord⟩
  induction previous, as using takeSortKeys.induct view generalizing items with
  | case1 previous =>
    rw [takeSortKeys] at h
    exact (object_ne h).elim
  | case2 previous a rest' operand ended =>
    rw [takeSortKeys_cons, if_pos operand] at h
    simp only [ended] at h
    cases h
    exact last operand ended
  | case3 previous a rest' operand b behind next isEnd =>
    rw [takeSortKeys_cons, if_pos operand] at h
    simp only [next, isEnd, if_true] at h
    cases h
    exact last operand next
  | case4 previous a rest' operand b behind next notEnd isComma _ ih =>
    rw [takeSortKeys_cons, if_pos operand] at h
    simp only [next, notEnd, isComma, if_true] at h
    obtain ⟨⟨items', after⟩, taken, done⟩ := bind_eq_ok h
    cases done
    obtain ⟨front', eq, matched', isWord⟩ := takeDirection_split view rest'
    obtain ⟨front, ps, split, listed, matched, slots⟩ := ih taken
    obtain ⟨t, hb, kind⟩ := leafIs_iff.mp isComma
    refine ⟨a :: front' ++ b :: front, _, ?_, .cons rfl kind listed, ?_, ?_⟩
    · rw [next, split] at eq
      rw [eq]
      simp
    · exact (MatchesAll.append (.cons (.sibling a) matched') (.cons (.leaf hb) matched))
    · exact List.forall_mem_cons.mpr ⟨⟨operand, isWord⟩, slots⟩
  | case5 previous a rest' operand b behind next notEnd noComma =>
    rw [takeSortKeys_cons, if_pos operand] at h
    simp only [next, notEnd, noComma] at h
    exact (object_ne h).elim
  | case6 previous a rest' noOperand =>
    rw [takeSortKeys_cons, if_neg noOperand] at h
    exact (object_ne h).elim

theorem applyOrderBy_covers {focus : Focus α} {f : Fold α}
    (h : applyOrderBy view focus = .ok (some f)) : ∃ back ahead, Covers view focus f back ahead := by
  unfold applyOrderBy at h
  split at h
  · exact (decline_ne h).elim
  · next order here =>
    obtain ⟨here, kind⟩ := leaf?_eq_some.mp here
    split at h
    · exact (object_ne h).elim
    · next a rest right =>
      split at h
      · exact (object_ne h).elim
      · next byKeyword isBy =>
        obtain ⟨ha, kind'⟩ := leaf?_eq_some.mp isBy
        obtain ⟨⟨items, after⟩, taken, h⟩ := bind_eq_ok h
        obtain rfl := fold_eq_ok h
        obtain ⟨front, ps, rfl, listed, matched, slots⟩ := takeSortKeys_ok taken
        refine ⟨[], a :: front, rfl, right, ⟨_, .orderBy listed, ?_⟩,
          ⟨focus.here, by simp, kind_of_leaf here⟩, by simp [Node.kind],
          fun _ => ⟨kind, kind', slots⟩⟩
        exact .cons (.leaf here) (.cons (.leaf ha) matched)

/-! ## Statements -/

theorem takeOptionalLeaf_eq {kind : TokenKind} {as rest : List α} {t : Option Token}
    (h : takeOptionalLeaf view kind as = (t, rest)) :
    ∃ front, as = front ++ rest ∧ MatchesAll view (Piece.ofToken? t) front ∧
      ∀ u ∈ t, u.kind = kind := by
  cases as with
  | nil =>
    cases h
    exact ⟨[], rfl, .nil, by simp⟩
  | cons a as =>
    simp only [takeOptionalLeaf] at h
    split at h
    · next u found =>
      cases h
      obtain ⟨ha, isKind⟩ := leaf?_eq_some.mp found
      exact ⟨[a], rfl, matchesAll_leaf ha, by simpa using isKind⟩
    · cases h
      exact ⟨[], rfl, .nil, by simp⟩

/-- An optional clause covers itself. -/
theorem takeNode_eq {kind : NodeKind} {as rest : List α} {node : Option α}
    (h : takeNode view kind as = (node, rest)) :
    as = node.toList ++ rest ∧
      ∀ c ∈ node.map Origin.sibling, (glanceOrigin view c).kind = kind := by
  cases as with
  | nil =>
    cases h
    exact ⟨rfl, by simp⟩
  | cons a as =>
    simp only [takeNode] at h
    split at h
    · next found =>
      cases h
      exact ⟨rfl, by rintro _ ⟨⟩; exact isNode_iff.mp found⟩
    · cases h
      exact ⟨rfl, by simp⟩

/-- Clauses of one kind cover themselves. -/
theorem takeNodes_eq {kind : NodeKind} {as rest nodes : List α}
    (h : takeNodes view kind as = (nodes, rest)) :
    as = nodes ++ rest ∧ ∀ c ∈ nodes.map Origin.sibling, (glanceOrigin view c).kind = kind := by
  rw [takeNodes, List.span_eq_takeWhile_dropWhile] at h
  cases h
  refine ⟨(List.takeWhile_append_dropWhile).symm, List.forall_mem_map.mpr fun c hc => ?_⟩
  exact isNode_iff.mp (List.mem_takeWhile_imp hc)

/-- The equation of `takeProjections` at a sibling. -/
theorem takeProjections_cons (comma : Bool) (previous a : α) (rest : List α) :
    takeProjections view comma previous (a :: rest) =
      if isOperand view a then
        match takeAlias view false rest with
        | .error objection => .error objection
        | .ok (aliasName, []) => .ok ([⟨.sibling a, aliasName⟩], [])
        | .ok (aliasName, b :: rest') =>
          if leafIs view .comma b then do
            let (items, after) ← takeProjections view true b rest'
            return (⟨.sibling a, aliasName⟩ :: items, after)
          else .ok ([⟨.sibling a, aliasName⟩], b :: rest')
      else missingColumn view comma previous := by
  rw [takeProjections]
  split
  · split <;> rename_i h <;> simp only [h]
  · rfl

theorem missingColumn_ne {comma : Bool} {previous : α} {β : Type} {b : β}
    (h : missingColumn view comma previous = .ok b) : False := by
  unfold missingColumn at h
  split at h
  · exact object_ne h
  · exact object_ne h

/-- A select list covers its entries and the commas between them. -/
theorem takeProjections_ok {comma : Bool} {previous : α} {as rest : List α}
    {items : List (Projection (Origin α))}
    (h : takeProjections view comma previous as = .ok (items, rest)) :
    ∃ front ps, as = front ++ rest ∧ Listed Projected items ps ∧ MatchesAll view ps front ∧
      (∀ i ∈ items, (glanceOrigin view i.expression).kind.isExpression = true) ∧
      ∀ i ∈ items, ∀ t ∈ i.aliasName, ∃ a ∈ front, view a = .column ⟨none, none, t⟩ := by
  have last {a : α} {rest' rest : List α} {aliasName : Option Token}
      (operand : isOperand view a = true)
      (aliased : takeAlias view false rest' = .ok (aliasName, rest)) :
      ∃ front ps, a :: rest' = front ++ rest ∧
        Listed Projected [Projection.mk (Origin.sibling a) aliasName] ps ∧
        MatchesAll view ps front ∧
        (∀ i ∈ [Projection.mk (Origin.sibling a) aliasName],
          (glanceOrigin view i.expression).kind.isExpression = true) ∧
        ∀ i ∈ [Projection.mk (Origin.sibling a) aliasName], ∀ t ∈ i.aliasName,
          ∃ a ∈ front, view a = .column ⟨none, none, t⟩ := by
    obtain ⟨front, ps, rfl, isAlias, matched, named⟩ := takeAlias_ok aliased
    refine ⟨a :: front, _, rfl, .single (.mk isAlias), .cons (.sibling a) matched,
      List.forall_mem_singleton.mpr operand, List.forall_mem_singleton.mpr fun t ht => ?_⟩
    obtain ⟨b, hb, eq⟩ := named t ht
    exact ⟨b, List.mem_cons_of_mem _ hb, eq⟩
  induction comma, previous, as using takeProjections.induct view generalizing items with
  | case1 comma previous =>
    rw [takeProjections] at h
    exact (missingColumn_ne h).elim
  | case2 comma previous a rest' operand objection aliased =>
    rw [takeProjections_cons, if_pos operand, aliased] at h
    cases h
  | case3 comma previous a rest' operand aliasName aliased =>
    rw [takeProjections_cons, if_pos operand, aliased] at h
    cases h
    exact last operand aliased
  | case4 comma previous a rest' operand aliasName b behind aliased isComma _ ih =>
    rw [takeProjections_cons, if_pos operand, aliased] at h
    simp only [isComma, if_true] at h
    obtain ⟨⟨items', after⟩, taken, done⟩ := bind_eq_ok h
    cases done
    obtain ⟨front', ps', eq, isAlias, matched', named'⟩ := takeAlias_ok aliased
    obtain ⟨front, ps, split, listed, matched, operands, named⟩ := ih taken
    obtain ⟨t, hb, kind⟩ := leafIs_iff.mp isComma
    refine ⟨a :: front' ++ b :: front, _, ?_, .cons (.mk isAlias) kind listed, ?_,
      List.forall_mem_cons.mpr ⟨operand, operands⟩, List.forall_mem_cons.mpr ⟨?_, ?_⟩⟩
    · rw [split] at eq
      rw [eq]
      simp
    · exact MatchesAll.append (.cons (.sibling a) matched') (.cons (.leaf hb) matched)
    · intro u hu
      obtain ⟨c, hc, column⟩ := named' u hu
      exact ⟨c, by simp [hc], column⟩
    · intro i hi u hu
      obtain ⟨c, hc, column⟩ := named i hi u hu
      exact ⟨c, by simp [hc], column⟩
  | case5 comma previous a rest' operand aliasName b behind aliased noComma =>
    rw [takeProjections_cons, if_pos operand, aliased] at h
    simp only [noComma] at h
    cases h
    exact last operand aliased
  | case6 comma previous a rest' noOperand =>
    rw [takeProjections_cons, if_neg noOperand] at h
    exact (missingColumn_ne h).elim

theorem applySelect_covers {focus : Focus α} {f : Fold α}
    (h : applySelect view focus = .ok (some f)) : ∃ back ahead, Covers view focus f back ahead := by
  unfold applySelect at h
  split at h
  · exact (decline_ne h).elim
  · next keyword here =>
    obtain ⟨here, kind⟩ := leaf?_eq_some.mp here
    cases distinctTaken : takeOptionalLeaf view .distinctKw focus.right with
    | mk distinct rest =>
    rw [distinctTaken] at h
    obtain ⟨⟨items, rest₁⟩, itemsTaken, h⟩ := bind_eq_ok h
    cases sourceTaken : takeNode view .fromClause rest₁ with
    | mk source rest₂ =>
    cases joinsTaken : takeNodes view .join rest₂ with
    | mk joins rest₃ =>
    cases filterTaken : takeNode view .whereClause rest₃ with
    | mk filter rest₄ =>
    cases groupingTaken : takeNode view .groupBy rest₄ with
    | mk grouping rest₅ =>
    cases havingTaken : takeNode view .havingClause rest₅ with
    | mk having rest₆ =>
    cases orderingTaken : takeNode view .orderBy rest₆ with
    | mk ordering rest₇ =>
    simp only [sourceTaken, joinsTaken, filterTaken, groupingTaken, havingTaken,
      orderingTaken] at h
    split at h
    · obtain rfl := fold_eq_ok h
      obtain ⟨front₀, right, matched₀, isDistinct⟩ := takeOptionalLeaf_eq distinctTaken
      obtain ⟨front₁, ps, rfl, listed, matched₁, operands, named⟩ := takeProjections_ok itemsTaken
      obtain ⟨rfl, isSource⟩ := takeNode_eq sourceTaken
      obtain ⟨rfl, areJoins⟩ := takeNodes_eq joinsTaken
      obtain ⟨rfl, isFilter⟩ := takeNode_eq filterTaken
      obtain ⟨rfl, isGrouping⟩ := takeNode_eq groupingTaken
      obtain ⟨rfl, isHaving⟩ := takeNode_eq havingTaken
      obtain ⟨rfl, isOrdering⟩ := takeNode_eq orderingTaken
      refine ⟨[], front₀ ++ front₁ ++ source.toList ++ joins ++ filter.toList ++ grouping.toList
        ++ having.toList ++ ordering.toList, rfl, by simp [right], ⟨_, .select listed, ?_⟩,
        ⟨focus.here, by simp, kind_of_leaf here⟩, by simp [Node.kind], fun sound => ?_⟩
      · exact ((((((MatchesAll.append (.cons (.leaf here) matched₀) matched₁).append
          (matchesAll_sibling? source)).append (matchesAll_siblings joins)).append
          (matchesAll_sibling? filter)).append (matchesAll_sibling? grouping)).append
          (matchesAll_sibling? having)).append (matchesAll_sibling? ordering)
      · refine ⟨kind, isDistinct, fun i hi => ⟨operands i hi, ?_⟩, isSource, areJoins, isFilter,
          isGrouping, isHaving, isOrdering⟩
        refine symbol_of_alias ?_ (named i hi) sound
        intro a ha
        simp [ha]
    · exact (decline_ne h).elim

theorem missingAssignment_ne {comma : Bool} {previous : α} {β : Type} {b : β}
    (h : missingAssignment view comma previous = .ok b) : False := by
  unfold missingAssignment at h
  split at h
  · exact object_ne h
  · exact object_ne h

/-- The assignments cover themselves and the commas between them. -/
theorem takeAssignments_ok {comma : Bool} {previous : α} {as rest es : List α}
    (h : takeAssignments view comma previous as = .ok (es, rest)) :
    ∃ front ps, as = front ++ rest ∧
      Listed (fun e qs => qs = [.child e]) (es.map Origin.sibling) ps ∧ MatchesAll view ps front ∧
      ∀ e ∈ es, isAssignment view e = true := by
  induction comma, previous, as using takeAssignments.induct view generalizing es with
  | case1 comma previous => exact (missingAssignment_ne h).elim
  | case2 comma previous a operand assigns =>
    simp only [takeAssignments, operand, assigns, if_true] at h
    cases h
    exact ⟨[a], _, rfl, .single rfl, .cons (.sibling a) .nil, List.forall_mem_singleton.mpr assigns⟩
  | case3 comma previous a operand assigns =>
    simp only [takeAssignments, operand, assigns, if_true] at h
    exact (object_ne h).elim
  | case4 comma previous a noOperand =>
    simp only [takeAssignments, noOperand] at h
    exact (missingAssignment_ne h).elim
  | case5 comma previous a b rest' operand assigns isComma ih =>
    simp only [takeAssignments, operand, assigns, isComma, if_true] at h
    obtain ⟨⟨es', after⟩, taken, done⟩ := bind_eq_ok h
    cases done
    obtain ⟨front, ps, rfl, listed, matched, all⟩ := ih taken
    obtain ⟨t, hb, kind⟩ := leafIs_iff.mp isComma
    refine ⟨a :: b :: front, _, rfl, .cons rfl kind listed, ?_,
      List.forall_mem_cons.mpr ⟨assigns, all⟩⟩
    exact .cons (.sibling a) (.cons (.leaf hb) matched)
  | case6 comma previous a b rest' operand assigns noComma =>
    simp only [takeAssignments, operand, assigns, noComma, if_true] at h
    cases h
    exact ⟨[a], _, rfl, .single rfl, .cons (.sibling a) .nil, List.forall_mem_singleton.mpr assigns⟩
  | case7 comma previous a b rest' operand assigns =>
    simp only [takeAssignments, operand, assigns, if_true] at h
    exact (object_ne h).elim
  | case8 comma previous a b rest' noOperand =>
    simp only [takeAssignments, noOperand] at h
    exact (missingAssignment_ne h).elim

theorem applyUpdate_covers {focus : Focus α} {f : Fold α}
    (h : applyUpdate view focus = .ok (some f)) : ∃ back ahead, Covers view focus f back ahead := by
  unfold applyUpdate at h
  split at h
  · exact (decline_ne h).elim
  · next keyword here =>
    obtain ⟨here, kind⟩ := leaf?_eq_some.mp here
    obtain ⟨source?, tableTaken, h⟩ := bind_eq_ok h
    cases source? with
    | none => exact (object_ne h).elim
    | some p =>
      obtain ⟨table, rest⟩ := p
      obtain ⟨⟨aliasName, rest₁⟩, aliasTaken, h⟩ := bind_eq_ok h
      dsimp only at h
      split at h
      · exact (decline_ne h).elim
      · next joins b rest₂ joinsTaken =>
        split at h
        · exact (decline_ne h).elim
        · next setKeyword isSet =>
          obtain ⟨hb, kind'⟩ := leaf?_eq_some.mp isSet
          obtain ⟨⟨es, rest₃⟩, assignmentsTaken, h⟩ := bind_eq_ok h
          cases filterTaken : takeNode view .whereClause rest₃ with
          | mk filter rest₄ =>
          cases orderingTaken : takeNode view .orderBy rest₄ with
          | mk ordering rest₅ =>
          simp only [filterTaken, orderingTaken] at h
          split at h
          · obtain rfl := fold_eq_ok h
            obtain ⟨a, right, matchedTable, _, isTable⟩ := takeSource?_some tableTaken
            obtain ⟨front, as, rfl, aliased, matchedAlias, named⟩ := takeAlias_ok aliasTaken
            obtain ⟨rfl, areJoins⟩ := takeNodes_eq joinsTaken
            obtain ⟨front', ps, rfl, listed, matched, assigns⟩ := takeAssignments_ok assignmentsTaken
            obtain ⟨rfl, isFilter⟩ := takeNode_eq filterTaken
            obtain ⟨rfl, isOrdering⟩ := takeNode_eq orderingTaken
            refine ⟨[], a :: front ++ joins ++ b :: front' ++ filter.toList ++ ordering.toList, rfl,
              by simp [right], ⟨_, .update aliased listed, ?_⟩,
              ⟨focus.here, by simp, kind_of_leaf here⟩, by simp [Node.kind], fun sound => ?_⟩
            · exact ((((MatchesAll.append (.cons (.leaf here) (.cons matchedTable matchedAlias))
                (matchesAll_siblings joins))).append (.cons (.leaf hb) matched)).append
                (matchesAll_sibling? filter)).append (matchesAll_sibling? ordering)
            · refine ⟨kind, isTable rfl, ?_, areJoins, kind', List.forall_mem_map.mpr assigns,
                isFilter, isOrdering⟩
              refine symbol_of_alias ?_ named sound
              intro c hc
              simp [hc]
          · exact (decline_ne h).elim

/-! ## Every rule -/

/-- What a rule folds is covered by what it takes. -/
theorem apply_covers {rule : Rule} {focus : Focus α} {f : Fold α}
    (h : rule.apply view focus = .ok (some f)) : ∃ back ahead, Covers view focus f back ahead := by
  cases rule with
  | bracket => exact applyBracket_covers h
  | call => exact applyCall_covers h
  | literal => exact applyLiteral_covers h
  | allColumns => exact applyAllColumns_covers h
  | column => exact applyColumn_covers h
  | membership => exact applyMembership_covers h
  | operation => exact applyOperation_covers h
  | conjunction => exact applyConjunction_covers h
  | fromClause => exact applyFromClause_covers h
  | join => exact applyJoin_covers h
  | whereClause => exact applyWhereClause_covers h
  | havingClause => exact applyHavingClause_covers h
  | groupBy => exact applyGroupBy_covers h
  | orderBy => exact applyOrderBy_covers h
  | select => exact applySelect_covers h
  | update => exact applyUpdate_covers h

end SqlFold.Rule
