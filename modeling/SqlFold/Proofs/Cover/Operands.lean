import SqlFold.Proofs.Cover.Basic

/-!
# Folds of operands

The rules up to `Rule.conjunction` cover what they take: brackets, calls, literals, names and
operators.
-/

namespace SqlFold.Rule

variable {α : Type} {view : α → Node α}

/-! ## Brackets and calls -/

/-- The closing bracket splits the siblings into those before it, itself and those after it. -/
theorem splitAtClosing?_some {depth : Nat} {as inner after : List α} {closing : Token}
    (h : splitAtClosing? view depth as = some (inner, closing, after)) :
    ∃ a, as = inner ++ a :: after ∧ view a = .leaf closing ∧ closing.kind = .bracketClose := by
  induction as generalizing depth inner with
  | nil => simp [splitAtClosing?] at h
  | cons a rest ih =>
    have within {depth' : Nat}
        (h : splitAtClosing?.within view depth' a rest = some (inner, closing, after)) :
        ∃ b, a :: rest = inner ++ b :: after ∧ view b = .leaf closing ∧
          closing.kind = .bracketClose := by
      simp only [splitAtClosing?.within, Option.map_eq_some_iff, Prod.exists, Prod.mk.injEq] at h
      obtain ⟨inner', _, _, split, rfl, rfl, rfl⟩ := h
      obtain ⟨b, rfl, hb⟩ := ih split
      exact ⟨b, rfl, hb⟩
    unfold splitAtClosing? at h
    split at h
    · exact within h
    · next t ht =>
      split at h
      · exact within h
      · split at h
        · next kind =>
          split at h
          · cases h
            exact ⟨a, rfl, token?_eq_some.mp ht, kind⟩
          · exact within h
        · exact within h

theorem applyBracket_covers {focus : Focus α} {f : Fold α}
    (h : applyBracket view focus = .ok (some f)) : ∃ back ahead, Covers view focus f back ahead := by
  unfold applyBracket at h
  split at h
  · next opening here =>
    split at h
    · next kind =>
      split at h
      · next inner closing after split =>
        obtain ⟨a, right, ha, kind'⟩ := splitAtClosing?_some split
        obtain rfl := fold_eq_ok h
        refine ⟨[], inner ++ [a], rfl, by simp [right], ⟨_, .bracket _, ?_⟩,
          ⟨focus.here, by simp, kind_of_leaf here⟩, by simp [Node.kind], fun _ => ⟨kind, kind'⟩⟩
        exact .cons (.leaf here) ((matchesAll_siblings inner).append (matchesAll_leaf ha))
      · exact (object_ne h).elim
    · split at h
      · exact (object_ne h).elim
      · exact (decline_ne h).elim
  · obtain ⟨_, _, h⟩ := bind_eq_ok h
    exact (decline_ne h).elim
  · exact (decline_ne h).elim

theorem applyCall_covers {focus : Focus α} {f : Fold α} (h : applyCall view focus = .ok (some f)) :
    ∃ back ahead, Covers view focus f back ahead := by
  unfold applyCall at h
  split at h
  · next name arguments after here right =>
    obtain ⟨here, kind⟩ := leaf?_eq_some.mp here
    split at h
    · next cond =>
      simp only [Bool.and_eq_true, isNode_iff] at cond
      obtain rfl := fold_eq_ok h
      refine ⟨[], [arguments], rfl, right, ⟨_, .call _, ?_⟩,
        ⟨focus.here, by simp, kind_of_leaf here⟩, by simp [Node.kind],
        fun _ => ⟨kind, cond.1, rfl⟩⟩
      exact .cons (.leaf here) (.cons (.sibling _) .nil)
    · exact (decline_ne h).elim
  · exact (decline_ne h).elim

/-! ## Literals and names -/

theorem takeLeaf?_some {kind : TokenKind} {as rest : List α} {t : Token}
    (h : takeLeaf? view kind as = some (t, rest)) :
    ∃ a, as = a :: rest ∧ view a = .leaf t ∧ t.kind = kind := by
  cases as with
  | nil => cases h
  | cons a as =>
    simp only [takeLeaf?, Option.map_eq_some_iff, Prod.mk.injEq] at h
    obtain ⟨_, leaf, rfl, rfl⟩ := h
    exact ⟨a, rfl, leaf?_eq_some.mp leaf⟩

theorem applyLiteral_covers {focus : Focus α} {f : Fold α}
    (h : applyLiteral view focus = .ok (some f)) : ∃ back ahead, Covers view focus f back ahead := by
  unfold applyLiteral at h
  split at h
  · exact (decline_ne h).elim
  · next t here =>
    have here := token?_eq_some.mp here
    split at h
    · next kind =>
      obtain rfl := fold_eq_ok h
      exact ⟨[], [], rfl, rfl, ⟨_, .literal _, matchesAll_leaf here⟩,
        ⟨focus.here, by simp, kind_of_leaf here⟩, by simp [Node.kind],
        fun _ => ⟨kind, by simp⟩⟩
    · split at h
      · next sign =>
        simp only [Bool.and_eq_true] at sign
        split at h
        · next number after taken =>
          obtain ⟨a, right, ha, kind⟩ := takeLeaf?_some taken
          obtain rfl := fold_eq_ok h
          refine ⟨[], [a], rfl, right, ⟨_, .literal _, ?_⟩,
            ⟨focus.here, by simp, kind_of_leaf here⟩, by simp [Node.kind],
            fun _ => ⟨by simp [kind, isValueKind], by simp [kind, sign.1]⟩⟩
          exact .cons (.leaf here) (matchesAll_leaf ha)
        · exact (decline_ne h).elim
      · exact (decline_ne h).elim

/-- The names after a name with their points are written behind it. -/
theorem takeNames_ok {room : Nat} {as rest : List α} {names : List Token}
    (h : takeNames view room as = .ok (names, rest)) :
    names.length ≤ room ∧ (∀ t ∈ names, t.kind = .symbol) ∧
      ∃ front, as = front ++ rest ∧ ∀ a first, view a = .leaf first →
        ∃ ps, Dotted (first :: names) ps ∧ MatchesAll view ps (a :: front) := by
  induction room, as using takeNames.induct view generalizing names with
  | case1 room =>
    simp only [takeNames] at h
    cases h
    exact ⟨by simp, by simp, [], rfl, fun a first ha => ⟨_, .single first, matchesAll_leaf ha⟩⟩
  | case2 after point isPoint => simp [takeNames, isPoint, object] at h
  | case3 point isPoint room => simp [takeNames, isPoint, object] at h
  | case4 point isPoint room a after notName => simp [takeNames, isPoint, notName, object] at h
  | case5 point isPoint room a after name isName ih =>
    simp only [takeNames, isPoint, isName, if_true] at h
    obtain ⟨⟨names', rest'⟩, taken, done⟩ := bind_eq_ok h
    cases done
    obtain ⟨short, symbols, front, rfl, written⟩ := ih taken
    obtain ⟨p, hp, kind⟩ := leafIs_iff.mp isPoint
    obtain ⟨ha, kind'⟩ := leaf?_eq_some.mp isName
    refine ⟨by simpa using short, by simpa [kind'] using symbols, point :: a :: front, rfl, ?_⟩
    intro b first hb
    obtain ⟨ps, dotted, matched⟩ := written a name ha
    exact ⟨_, .cons kind dotted, .cons (.leaf hb) (.cons (.leaf hp) matched)⟩
  | case6 room point after noPoint =>
    unfold takeNames at h
    rw [if_neg noPoint] at h
    cases h
    exact ⟨by simp, by simp, [], rfl, fun a first ha => ⟨_, .single first, matchesAll_leaf ha⟩⟩

/-- The parts of a column name in source order. -/
theorem columnName_parts (first : Token) {names : List Token} (short : names.length ≤ 2) :
    (columnName first names).schema.toList ++ (columnName first names).table.toList
      ++ [(columnName first names).column] = first :: names := by
  match names, short with
  | [], _ => rfl
  | [_], _ => rfl
  | [_, _], _ => rfl

theorem applyColumn_covers {focus : Focus α} {f : Fold α}
    (h : applyColumn view focus = .ok (some f)) : ∃ back ahead, Covers view focus f back ahead := by
  unfold applyColumn at h
  split at h
  · exact (decline_ne h).elim
  · next first here =>
    obtain ⟨here, kind⟩ := leaf?_eq_some.mp here
    split at h
    · exact (decline_ne h).elim
    · obtain ⟨⟨names, after⟩, taken, done⟩ := bind_eq_ok h
      obtain rfl := fold_eq_ok done
      obtain ⟨short, symbols, front, right, written⟩ := takeNames_ok taken
      obtain ⟨ps, dotted, matched⟩ := written _ _ here
      have parts := columnName_parts first short
      refine ⟨[], front, rfl, right, ⟨ps, .column (parts ▸ dotted), matched⟩,
        ⟨focus.here, by simp, kind_of_leaf here⟩, by simp [Node.kind], fun _ => ⟨?_, ?_⟩⟩
      · rw [parts]
        simpa [kind] using symbols
      · rcases names with _ | ⟨_, _ | ⟨_, _ | _⟩⟩ <;> simp_all [columnName]

/-- The qualifiers with their points are written before what they qualify. -/
theorem takeQualifiers_ok {room : Nat} {as rest : List α} {names : List Token}
    (h : takeQualifiers view room as = .ok (names, rest)) :
    names.length ≤ room ∧ (∀ t ∈ names, t.kind = .symbol) ∧
      ∃ back, as = back ++ rest ∧ ∀ ts ps bs, Dotted ts ps → MatchesAll view ps bs →
        ∃ qs, Dotted (names.reverse ++ ts) qs ∧ MatchesAll view qs (back.reverse ++ bs) := by
  induction room, as using takeQualifiers.induct view generalizing names with
  | case1 room =>
    simp only [takeQualifiers] at h
    cases h
    exact ⟨by simp, by simp, [], rfl, fun _ ps _ dotted matched => ⟨ps, dotted, matched⟩⟩
  | case2 room point isPoint => simp [takeQualifiers, isPoint, object] at h
  | case3 room point isPoint a before notName =>
    simp [takeQualifiers, isPoint, notName, object] at h
  | case4 point isPoint a before name isName =>
    simp [takeQualifiers, isPoint, isName, object] at h
  | case5 point isPoint a before name room isName ih =>
    unfold takeQualifiers at h
    simp only [isPoint, isName, if_true] at h
    obtain ⟨⟨names', rest'⟩, taken, done⟩ := bind_eq_ok h
    cases done
    obtain ⟨short, symbols, back, rfl, written⟩ := ih taken
    obtain ⟨p, hp, kind⟩ := leafIs_iff.mp isPoint
    obtain ⟨ha, kind'⟩ := leaf?_eq_some.mp isName
    refine ⟨by simpa using short, by simpa [kind'] using symbols, point :: a :: back, rfl, ?_⟩
    intro ts ps bs dotted matched
    obtain ⟨qs, dotted', matched'⟩ := written (name :: ts) _ _ (.cons kind dotted)
      (.cons (.leaf ha) (.cons (.leaf hp) matched))
    exact ⟨qs, by simpa using dotted', by simpa using matched'⟩
  | case6 room point before noPoint =>
    unfold takeQualifiers at h
    rw [if_neg noPoint] at h
    cases h
    exact ⟨by simp, by simp, [], rfl, fun _ ps _ dotted matched => ⟨ps, dotted, matched⟩⟩

theorem applyAllColumns_covers {focus : Focus α} {f : Fold α}
    (h : applyAllColumns view focus = .ok (some f)) :
    ∃ back ahead, Covers view focus f back ahead := by
  unfold applyAllColumns at h
  split at h
  · exact (decline_ne h).elim
  · next star here =>
    obtain ⟨here, kind⟩ := leaf?_eq_some.mp here
    obtain ⟨⟨names, before⟩, taken, done⟩ := bind_eq_ok h
    obtain rfl := fold_eq_ok done
    obtain ⟨short, symbols, back, left, written⟩ := takeQualifiers_ok taken
    obtain ⟨ps, dotted, matched⟩ := written _ _ _ (.single star) (matchesAll_leaf here)
    have parts : names[1]?.toList ++ names[0]?.toList = names.reverse := by
      rcases names with _ | ⟨_, _ | ⟨_, _ | _⟩⟩
      · rfl
      · rfl
      · rfl
      · simp at short
    refine ⟨back, [], left, rfl, ⟨ps, .allColumns ?_, matched⟩,
      ⟨focus.here, by simp, kind_of_leaf here⟩, by simp [Node.kind], fun _ => ⟨?_, ?_, kind⟩⟩
    · show Dotted (names[1]?.toList ++ names[0]?.toList ++ [star]) ps
      rw [parts]
      exact dotted
    · show ∀ t : Token, t ∈ names[1]?.toList ++ names[0]?.toList → t.kind = .symbol
      rw [parts]
      simpa using symbols
    · rcases names with _ | ⟨_, _ | ⟨_, _⟩⟩ <;> simp

/-! ## Operators -/

theorem membershipBehind_fold {left rest : List α} {here : α} {negation : Option Token} {fold : Fold α}
    (answer : membershipBehind view left here negation rest = .ok (some fold)) :
    ∃ keyword w list after, rest = w :: list :: after ∧ view w = .leaf keyword ∧ keyword.kind = .inKw ∧
      isNode view .bracket list = true ∧
        fold = ⟨left, .membership ⟨.sibling here, negation, keyword, .sibling list⟩, after⟩ := by
  unfold membershipBehind at answer
  split at answer
  · next keyword list after read =>
    obtain ⟨w, rfl, shown, isIn⟩ := takeLeaf?_some read
    split at answer
    · next isList => exact ⟨keyword, w, list, after, rfl, shown, isIn, isList, fold_eq_ok answer⟩
    · exact (decline_ne answer).elim
  · exact (decline_ne answer).elim

/-- What `Rule.membership` folds. -/
theorem applyMembership_fold {left right : List α} {here : α} {fold : Fold α}
    (answer : applyMembership view ⟨left, here, right⟩ = .ok (some fold)) :
    ∃ negation keyword words list after, right = words ++ list :: after ∧
      words.map view = (Option.toList negation ++ [keyword]).map .leaf ∧
        (∀ t ∈ negation, t.kind = .notKw) ∧ keyword.kind = .inKw ∧ isOperand view here = true ∧
          isNode view .bracket list = true ∧
            fold = ⟨left, .membership ⟨.sibling here, negation, keyword, .sibling list⟩, after⟩ := by
  rw [applyMembership_eq] at answer
  split at answer
  · next operand =>
    cases read : takeLeaf? view .notKw right with
    | none =>
      rw [read] at answer
      obtain ⟨keyword, w, list, after, rfl, shown, isIn, isList, eq⟩ := membershipBehind_fold answer
      exact ⟨none, keyword, [w], list, after, rfl, by simp [shown], by simp, isIn, operand, isList, eq⟩
    | some s =>
      obtain ⟨t, rest⟩ := s
      rw [read] at answer
      obtain ⟨u, rfl, shown', isNot⟩ := takeLeaf?_some read
      obtain ⟨keyword, w, list, after, rfl, shown, isIn, isList, eq⟩ := membershipBehind_fold answer
      exact ⟨some t, keyword, [u, w], list, after, rfl, by simp [shown', shown], by simpa using isNot, isIn, operand,
        isList, eq⟩
  · exact (decline_ne answer).elim

theorem applyMembership_covers {focus : Focus α} {f : Fold α}
    (h : applyMembership view focus = .ok (some f)) :
    ∃ back ahead, Covers view focus f back ahead := by
  obtain ⟨left, here, right⟩ := focus
  obtain ⟨negation, keyword, words, list, after, rfl, shown, isNot, isIn, operand, isList, rfl⟩ :=
    applyMembership_fold h
  have matched : MatchesAll view (Piece.ofToken? negation ++ [Piece.token keyword]) words := by
    simpa [Piece.ofToken?] using matchesAll_leaves shown
  obtain ⟨w, mem, word⟩ : ∃ w ∈ words, view w = .leaf keyword := by
    rw [← List.mem_map, shown]
    simp
  refine ⟨[], words ++ [list], rfl, by simp, ⟨_, .membership _, ?_⟩, ⟨w, by simp [mem], kind_of_leaf word⟩,
    by simp [Node.kind], fun _ => ⟨operand, isNode_iff.mp isList, isNot, isIn⟩⟩
  refine .cons (.sibling _) ?_
  show MatchesAll view (Piece.ofToken? negation ++ [Piece.token keyword, .child (.sibling list)]) (words ++ [list])
  rw [List.append_cons]
  exact matched.append (.cons (.sibling list) .nil)

/-- An operator covers the one or two leaves that it is read from. -/
theorem takeOperator?_some {as : List α} {o : Operator α} (h : takeOperator? view as = some o) :
    IsOperator o.tokens ∧ o.tokens ≠ [] ∧
      ∃ front, as = front ++ o.after ∧ MatchesAll view (o.tokens.map .token) front ∧
        ∀ a ∈ front, (view a).kind = .tokenLeaf := by
  have single {t : Token} {a : α} {rest : List α} (ha : view a = .leaf t)
      (h : takeOperator?.single t a rest = some o) :
      IsOperator o.tokens ∧ o.tokens ≠ [] ∧
        ∃ front, a :: rest = front ++ o.after ∧ MatchesAll view (o.tokens.map .token) front ∧
          ∀ a ∈ front, (view a).kind = .tokenLeaf := by
    unfold takeOperator?.single at h
    split at h
    · next starts =>
      cases h
      exact ⟨.single starts, by simp, [a], rfl, matchesAll_leaf ha, by simp [kind_of_leaf ha]⟩
    · cases h
  have pair {t u : Token} {a b : α} {after : List α} (ha : view a = .leaf t) (hb : view b = .leaf u)
      (isOp : IsOperator [t, u]) (h : some (⟨[t, u], b, after⟩ : Operator α) = some o) :
      IsOperator o.tokens ∧ o.tokens ≠ [] ∧
        ∃ front, a :: b :: after = front ++ o.after ∧ MatchesAll view (o.tokens.map .token) front ∧
          ∀ a ∈ front, (view a).kind = .tokenLeaf := by
    cases h
    exact ⟨isOp, by simp, [a, b], rfl, .cons (.leaf ha) (matchesAll_leaf hb),
      by simp [kind_of_leaf ha, kind_of_leaf hb]⟩
  cases as with
  | nil => simp [takeOperator?] at h
  | cons a rest =>
    cases token : (view a).token? with
    | none => cases rest <;> simp [takeOperator?, token] at h
    | some t =>
      have ha := token?_eq_some.mp token
      cases rest with
      | nil =>
        simp only [takeOperator?, token] at h
        exact single ha h
      | cons b after =>
        simp only [takeOperator?, token] at h
        split at h
        · next u kind hb =>
          have hb := token?_eq_some.mp hb
          split at h
          · next kind' => exact pair ha hb (.isNot kind kind') h
          · exact single ha h
        · next u kind hb =>
          have hb := token?_eq_some.mp hb
          split at h
          · next kind' => exact pair ha hb (.notLike kind kind') h
          · cases h
        · exact single ha h

theorem applyOperation_covers {focus : Focus α} {f : Fold α}
    (h : applyOperation view focus = .ok (some f)) :
    ∃ back ahead, Covers view focus f back ahead := by
  unfold applyOperation at h
  split at h
  · split at h
    · exact (object_ne h).elim
    · exact (decline_ne h).elim
  · split at h
    · next operand =>
      split at h
      · exact (decline_ne h).elim
      · next operator taken =>
        obtain ⟨isOp, nonempty, front, right, matched, leaves⟩ := takeOperator?_some taken
        split at h
        · exact (object_ne h).elim
        · next a after eq =>
          split at h
          · next operand' =>
            obtain rfl := fold_eq_ok h
            refine ⟨[], front ++ [a], rfl, by simp [right, eq], ⟨_, .operation _, ?_⟩, ?_,
              by simp [Node.kind], fun _ => ⟨operand, operand', isOp⟩⟩
            · exact .cons (.sibling _) (matched.append (.cons (.sibling a) .nil))
            · obtain ⟨b, front', rfl⟩ : ∃ b front', front = b :: front' := by
                cases front with
                | nil =>
                  have := matched.length_eq
                  simp at this
                  exact absurd this nonempty
                | cons b front' => exact ⟨b, front', rfl⟩
              exact ⟨b, by simp, leaves b (by simp)⟩
          · exact (object_ne h).elim
    · exact (decline_ne h).elim

/-- The operands behind the first are written with the words before them. -/
theorem takeJuncts_ok {as rest : List α} {juncts : List (Junct (Origin α))}
    (h : takeJuncts view as = .ok (juncts, rest)) :
    ∃ front, as = front ++ rest ∧
      MatchesAll view
        (juncts.flatMap fun j => Piece.ofToken? j.operator ++ [Piece.child j.expression]) front ∧
      (∀ j ∈ juncts, (glanceOrigin view j.expression).kind.isExpression = true) ∧
      (∀ j ∈ juncts, ∃ t, j.operator = some t ∧ joinsOperands t.kind = true) ∧
      (juncts ≠ [] → ∃ a ∈ front, (view a).kind = .tokenLeaf) := by
  induction as using takeJuncts.induct view generalizing juncts with
  | case1 =>
    cases h
    exact ⟨[], rfl, .nil, by simp, by simp, by simp⟩
  | case2 word noWord =>
    simp only [takeJuncts, noWord] at h
    cases h
    exact ⟨[], rfl, .nil, by simp, by simp, by simp⟩
  | case3 word t isWord =>
    simp only [takeJuncts, isWord] at h
    exact (object_ne h).elim
  | case4 word a after noWord =>
    simp only [takeJuncts, noWord] at h
    cases h
    exact ⟨[], rfl, .nil, by simp, by simp, by simp⟩
  | case5 word a after operator isWord operand ih =>
    simp only [takeJuncts, isWord, operand, if_true] at h
    obtain ⟨⟨juncts', rest'⟩, taken, done⟩ := bind_eq_ok h
    cases done
    obtain ⟨front, rfl, matched, operands, words, _⟩ := ih taken
    obtain ⟨hw, joins⟩ := leafOf?_eq_some.mp isWord
    refine ⟨word :: a :: front, rfl, ?_, ?_, ?_, fun _ => ⟨word, by simp, kind_of_leaf hw⟩⟩
    · exact .cons (.leaf hw) (.cons (.sibling a) matched)
    · simpa [glanceOrigin, glance] using ⟨operand, operands⟩
    · simpa using ⟨joins, words⟩
  | case6 word a after operator isWord notOperand =>
    simp only [takeJuncts, isWord, notOperand] at h
    exact (object_ne h).elim

theorem applyConjunction_covers {focus : Focus α} {f : Fold α}
    (h : applyConjunction view focus = .ok (some f)) :
    ∃ back ahead, Covers view focus f back ahead := by
  unfold applyConjunction at h
  split at h
  · split at h
    · exact (object_ne h).elim
    · exact (decline_ne h).elim
  · split at h
    · next operand =>
      obtain ⟨⟨juncts, rest⟩, taken, h⟩ := bind_eq_ok h
      obtain ⟨front, right, matched, operands, words, leaf⟩ := takeJuncts_ok taken
      cases juncts with
      | nil => exact (decline_ne h).elim
      | cons second juncts =>
        obtain rfl := fold_eq_ok h
        obtain ⟨a, ha, kind⟩ := leaf (by simp)
        refine ⟨[], front, rfl, right, ⟨_, .conjunction _, ?_⟩, ⟨a, by simp [ha], kind⟩,
          by simp [Node.kind], fun _ => ⟨?_, rfl, words⟩⟩
        · exact .cons (.sibling _) matched
        · exact List.forall_mem_cons.mpr ⟨operand, operands⟩
    · exact (decline_ne h).elim

end SqlFold.Rule
