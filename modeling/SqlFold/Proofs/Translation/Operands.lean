import SqlFold.Proofs.Translation.Basic

/-!
# Operands under a translation

The rules up to `Rule.conjunction` give corresponding answers on corresponding siblings.
-/

namespace SqlFold.Rule

variable {α α' : Type} {view : α → Node α} {view' : α' → Node α'} {g : α → α'}
  {h : Token → Token} (tr : Translates view view' g h)

namespace Translates

include tr

/-! ## Brackets and calls -/

theorem splitAtClosing? (depth : Nat) (as : List α) :
    Rule.splitAtClosing? view' depth (as.map g) =
      (Rule.splitAtClosing? view depth as).map fun s => (s.1.map g, h s.2.1, s.2.2.map g) := by
  induction as generalizing depth with
  | nil => simp [Rule.splitAtClosing?]
  | cons a rest ih =>
    have within (depth : Nat) :
        Rule.splitAtClosing?.within view' depth (g a) (rest.map g) =
          (Rule.splitAtClosing?.within view depth a rest).map
            fun s => (s.1.map g, h s.2.1, s.2.2.map g) := by
      simp only [splitAtClosing?.within, ih, Option.map_map]
      rfl
    simp only [List.map_cons, Rule.splitAtClosing?, tr.token?]
    cases (view a).token? with
    | none => exact within depth
    | some t =>
      simp only [Option.map_some, tr.kind]
      split
      · exact within _
      · split
        · cases depth with
          | zero => rfl
          | succ depth => exact within depth
        · exact within _

theorem isItem (a : α) : Rule.isItem view' (g a) = Rule.isItem view a := by
  rw [Rule.isItem, Rule.isItem, tr.isOperand, tr.isNode]

theorem checkItems (item : Bool) (previous : α) (as : List α) :
    Agree g h id (Rule.checkItems view item previous as)
      (Rule.checkItems view' item (g previous) (as.map g)) := by
  induction as generalizing item previous with
  | nil =>
    show Agree g h id (if item then _ else _) (if item then _ else _)
    split
    · exact tr.missingAfter previous .expression
    · exact .ok ()
  | cons a rest ih =>
    simp only [List.map_cons, Rule.checkItems, tr.isItem, tr.leafIs]
    split
    · split
      · exact ih false a
      · exact tr.misplaced a .expression
    · split
      · exact ih true a
      · exact tr.misplaced a .listEnd

theorem checkContent (span : α) (content : List α) (arguments : Bool) :
    Agree g h id (Rule.checkContent view span content arguments)
      (Rule.checkContent view' (g span) (content.map g) arguments) := by
  have checked (items : List α) :
      Agree g h id
        (if arguments && content.isEmpty then .ok ()
          else if items.isEmpty then object span .emptyBrackets
          else Rule.checkItems view true span items)
        (if arguments && (content.map g).isEmpty then .ok ()
          else if (items.map g).isEmpty then object (g span) .emptyBrackets
          else Rule.checkItems view' true (g span) (items.map g)) := by
    simp only [List.isEmpty_map]
    split
    · exact .ok ()
    · split
      · exact agree_object span (.refl _)
      · exact tr.checkItems true span items
  cases content with
  | nil => exact checked []
  | cons a rest =>
    simp only [List.map_cons, Rule.checkContent, tr.leafIs]
    cases arguments && Rule.leafIs view .distinctKw a with
    | true => exact checked rest
    | false => exact checked (a :: rest)

theorem applyBracket_agree (focus : Focus α) :
    Agree g h (Option.map (Fold.map g h)) (applyBracket view focus)
      (applyBracket view' (focus.map g)) := by
  unfold applyBracket
  rw [show (focus.map g).here = g focus.here from rfl, tr.node]
  cases shown : view focus.here with
  | leaf opening =>
    simp only [Node.map, Node.mapTokens, tr.kind]
    split
    · rw [show (focus.map g).right = focus.right.map g from rfl, tr.splitAtClosing?]
      cases Rule.splitAtClosing? view 0 focus.right with
      | none => exact agree_object focus.here (.refl _)
      | some s =>
        refine agree_fold rfl ?_ rfl
        simp [Node.map, Node.mapTokens, Origin.map]
    · split
      · exact agree_object focus.here (.refl _)
      · exact agree_decline
  | bracket span =>
    refine Agree.bind (f := id) ?_ fun _ _ => agree_decline
    have before : (focus.map g).left.head?.any (Rule.leafIs view' .symbol) =
        focus.left.head?.any (Rule.leafIs view .symbol) :=
      any_head? (tr.leafIs .symbol) focus.left
    rw [before]
    exact tr.checkContent focus.here span.children _
  | _ => exact agree_decline

theorem applyCall_agree (focus : Focus α) :
    Agree g h (Option.map (Fold.map g h)) (applyCall view focus)
      (applyCall view' (focus.map g)) := by
  unfold applyCall
  rw [show (focus.map g).here = g focus.here from rfl,
    show (focus.map g).right = focus.right.map g from rfl, tr.leaf?]
  cases Rule.leaf? view .symbol focus.here with
  | none => exact agree_decline
  | some name =>
    cases focus.right with
    | nil => exact agree_decline
    | cons arguments after =>
      have before : (focus.map g).left.head?.any (Rule.leafIs view' .dot) =
          focus.left.head?.any (Rule.leafIs view .dot) := any_head? (tr.leafIs .dot) focus.left
      have distinct : (view' (g arguments)).children.head?.any (Rule.leafIs view' .distinctKw) =
          (view arguments).children.head?.any (Rule.leafIs view .distinctKw) := by
        rw [tr.children]
        exact any_head? (tr.leafIs .distinctKw) _
      simp only [Option.map_some, List.map_cons, tr.isNode, before, distinct]
      split
      · exact agree_fold rfl rfl rfl
      · exact agree_decline

/-! ## Literals and names -/

theorem takeLeaf? (kind : TokenKind) (as : List α) :
    Rule.takeLeaf? view' kind (as.map g) =
      (Rule.takeLeaf? view kind as).map fun s => (h s.1, s.2.map g) := by
  cases as with
  | nil => rfl
  | cons a rest =>
    simp only [List.map_cons, Rule.takeLeaf?, tr.leaf?, Option.map_map]
    rfl

theorem closesOperand (a : α) : Rule.closesOperand view' (g a) = Rule.closesOperand view a := by
  rw [Rule.closesOperand, Rule.closesOperand, tr.tokenKind?, tr.isOperand]

theorem applyLiteral_agree (focus : Focus α) :
    Agree g h (Option.map (Fold.map g h)) (applyLiteral view focus)
      (applyLiteral view' (focus.map g)) := by
  unfold applyLiteral
  rw [show (focus.map g).here = g focus.here from rfl, tr.token?]
  cases (view focus.here).token? with
  | none => exact agree_decline
  | some t =>
    have before : (focus.map g).left.head?.any (Rule.closesOperand view') =
        focus.left.head?.any (Rule.closesOperand view) := any_head? tr.closesOperand focus.left
    simp only [Option.map_some, tr.kind, tr.sign, before]
    split
    · exact agree_fold rfl rfl rfl
    · split
      · rw [show (focus.map g).right = focus.right.map g from rfl, tr.takeLeaf?]
        cases Rule.takeLeaf? view .numericLiteral focus.right with
        | none => exact agree_decline
        | some s => exact agree_fold rfl rfl rfl
      · exact agree_decline

theorem takeQualifiers (room : Nat) (as : List α) :
    Agree g h (fun s : List Token × List α => (s.1.map h, s.2.map g))
      (Rule.takeQualifiers view room as) (Rule.takeQualifiers view' room (as.map g)) := by
  induction room, as using Rule.takeQualifiers.induct view with
  | case1 room =>
    simp only [List.map_nil, Rule.takeQualifiers]
    exact .ok _
  | case2 room point isPoint =>
    simp only [List.map_cons, List.map_nil, Rule.takeQualifiers, tr.leafIs, isPoint, if_true]
    exact agree_object point (.refl _)
  | case3 room point isPoint a before notName =>
    simp only [List.map_cons, Rule.takeQualifiers, tr.leafIs, isPoint, if_true, tr.leaf?, notName,
      Option.map_none]
    exact agree_object point (.refl _)
  | case4 point isPoint a before name isName =>
    unfold Rule.takeQualifiers
    simp only [List.map_cons, tr.leafIs, isPoint, if_true, tr.leaf?, isName, Option.map_some]
    exact agree_object point (.refl _)
  | case5 point isPoint a before name room isName ih =>
    unfold Rule.takeQualifiers
    simp only [List.map_cons, tr.leafIs, isPoint, if_true, tr.leaf?, isName, Option.map_some]
    exact ih.bind fun _ _ => .of_ok rfl
  | case6 room point before noPoint =>
    unfold Rule.takeQualifiers
    simp only [List.map_cons, tr.leafIs, noPoint]
    exact .of_ok rfl

theorem applyAllColumns_agree (focus : Focus α) :
    Agree g h (Option.map (Fold.map g h)) (applyAllColumns view focus)
      (applyAllColumns view' (focus.map g)) := by
  unfold applyAllColumns
  rw [show (focus.map g).here = g focus.here from rfl, tr.leaf?]
  cases Rule.leaf? view .star focus.here with
  | none => exact agree_decline
  | some star =>
    refine Agree.bind (tr.takeQualifiers 2 focus.left) fun s _ => ?_
    refine agree_fold rfl ?_ rfl
    simp [Node.map, Node.mapTokens]

theorem takeNames (room : Nat) (as : List α) :
    Agree g h (fun s : List Token × List α => (s.1.map h, s.2.map g))
      (Rule.takeNames view room as) (Rule.takeNames view' room (as.map g)) := by
  induction room, as using Rule.takeNames.induct view with
  | case1 room =>
    simp only [List.map_nil, Rule.takeNames]
    exact .ok _
  | case2 point after isPoint =>
    simp only [List.map_cons, Rule.takeNames, tr.leafIs, isPoint, if_true]
    exact agree_object point (.refl _)
  | case3 point isPoint room =>
    simp only [List.map_cons, List.map_nil, Rule.takeNames, tr.leafIs, isPoint, if_true]
    exact agree_object point (.refl _)
  | case4 point isPoint room a after notName =>
    simp only [List.map_cons, Rule.takeNames, tr.leafIs, isPoint, if_true, tr.leaf?, notName,
      Option.map_none]
    exact agree_object point (.refl _)
  | case5 point isPoint room a after name isName ih =>
    simp only [List.map_cons, Rule.takeNames, tr.leafIs, isPoint, if_true, tr.leaf?, isName,
      Option.map_some]
    exact ih.bind fun _ _ => .of_ok rfl
  | case6 room point after noPoint =>
    unfold Rule.takeNames
    simp only [List.map_cons, tr.leafIs, noPoint]
    exact .of_ok rfl

theorem applyColumn_agree (focus : Focus α) :
    Agree g h (Option.map (Fold.map g h)) (applyColumn view focus)
      (applyColumn view' (focus.map g)) := by
  unfold applyColumn
  rw [show (focus.map g).here = g focus.here from rfl, tr.leaf?]
  cases Rule.leaf? view .symbol focus.here with
  | none => exact agree_decline
  | some first =>
    have before : (focus.map g).left.head?.any (Rule.leafIs view' .dot) =
        focus.left.head?.any (Rule.leafIs view .dot) := any_head? (tr.leafIs .dot) focus.left
    simp only [Option.map_some, before]
    split
    · exact agree_decline
    · refine Agree.bind (tr.takeNames 2 focus.right) fun s _ => ?_
      refine agree_fold rfl ?_ rfl
      rcases s.1 with _ | ⟨second, _ | ⟨third, names⟩⟩ <;> rfl

/-! ## Operators -/

theorem membershipBehind_agree (left : List α) (here : α) (negation : Option Token) (rest : List α) :
    Agree g h (Option.map (Fold.map g h)) (membershipBehind view left here negation rest)
      (membershipBehind view' (left.map g) (g here) (negation.map h) (rest.map g)) := by
  unfold membershipBehind
  rw [tr.takeLeaf?]
  rcases Rule.takeLeaf? view .inKw rest with _ | ⟨keyword, _ | ⟨list, after⟩⟩
  · exact agree_decline
  · exact agree_decline
  · simp only [Option.map_some, List.map_cons, tr.isNode]
    split
    · exact agree_fold rfl rfl rfl
    · exact agree_decline

theorem applyMembership_agree (focus : Focus α) :
    Agree g h (Option.map (Fold.map g h)) (applyMembership view focus)
      (applyMembership view' (focus.map g)) := by
  obtain ⟨left, here, right⟩ := focus
  simp only [Focus.map, applyMembership_eq, tr.isOperand, tr.takeLeaf?]
  split
  · cases Rule.takeLeaf? view .notKw right with
    | none => exact tr.membershipBehind_agree left here none right
    | some s => exact tr.membershipBehind_agree left here (some s.1) s.2
  · exact agree_decline

theorem takeOperator? (as : List α) :
    Rule.takeOperator? view' (as.map g) =
      (Rule.takeOperator? view as).map fun o => ⟨o.tokens.map h, g o.last, o.after.map g⟩ := by
  have single (t : Token) (a : α) (rest : List α) :
      takeOperator?.single (h t) (g a) (rest.map g) =
        (takeOperator?.single t a rest).map
          fun o => ⟨o.tokens.map h, g o.last, o.after.map g⟩ := by
    simp only [takeOperator?.single, tr.kind]
    split <;> rfl
  cases as with
  | nil => rfl
  | cons a rest =>
    cases rest with
    | nil =>
      simp only [List.map_cons, List.map_nil, Rule.takeOperator?, tr.token?]
      cases (view a).token? with
      | none => rfl
      | some t => exact single t a []
    | cons b after =>
      simp only [List.map_cons, Rule.takeOperator?, tr.token?]
      cases (view a).token? with
      | none => rfl
      | some t =>
        simp only [Option.map_some, tr.kind, tr.token?]
        have one := single t a (b :: after)
        generalize t.kind = kind
        cases (view b).token? with
        | none => cases kind <;> exact one
        | some u =>
          rw [Option.map_some]
          cases kind with
          | isKw =>
            simp only [tr.kind]
            split
            · rfl
            · exact one
          | notKw =>
            simp only [tr.kind]
            split <;> rfl
          | _ => exact one

theorem applyOperation_agree (focus : Focus α) :
    Agree g h (Option.map (Fold.map g h)) (applyOperation view focus)
      (applyOperation view' (focus.map g)) := by
  unfold applyOperation
  have before : (focus.map g).left.head?.any (Rule.isOperand view') =
      focus.left.head?.any (Rule.isOperand view) := any_head? tr.isOperand focus.left
  rw [before, show (focus.map g).here = g focus.here from rfl,
    show (focus.map g).right = focus.right.map g from rfl, tr.token?, tr.isOperand,
    tr.takeOperator?]
  cases (view focus.here).token? with
  | some t =>
    simp only [Option.map_some, tr.kind]
    split
    · exact agree_object focus.here (.missingLeftOperand (tr.mention focus.here))
    · exact agree_decline
  | none =>
    simp only [Option.map_none]
    split
    · cases Rule.takeOperator? view focus.right with
      | none => exact agree_decline
      | some operator =>
        obtain ⟨tokens, last, _ | ⟨a, after⟩⟩ := operator
        · exact tr.missingAfter last .expression
        · simp only [Option.map_some, List.map_cons, tr.isOperand]
          split
          · exact agree_fold rfl rfl rfl
          · exact agree_object a
              (.expected .expression (.some (tr.mention last)) (.some (tr.mention a)))
    · exact agree_decline

theorem takeJuncts (as : List α) :
    Agree g h
      (fun s : List (Junct (Origin α)) × List α =>
        (s.1.map fun j => ⟨j.operator.map h, j.expression.map g h⟩, s.2.map g))
      (Rule.takeJuncts view as) (Rule.takeJuncts view' (as.map g)) := by
  fun_induction Rule.takeJuncts view as with
  | case1 => exact .of_ok rfl
  | case2 word noWord =>
    simp only [List.map_cons, List.map_nil, Rule.takeJuncts, tr.leafOf?, noWord, Option.map_none]
    exact .ok _
  | case3 word t isWord =>
    simp only [List.map_cons, List.map_nil, Rule.takeJuncts, tr.leafOf?, isWord, Option.map_some]
    exact tr.missingAfter word .expression
  | case4 word a after noWord =>
    simp only [List.map_cons, Rule.takeJuncts, tr.leafOf?, noWord, Option.map_none]
    exact .of_ok rfl
  | case5 word a after operator isWord operand ih =>
    simp only [List.map_cons, Rule.takeJuncts, tr.leafOf?, isWord, Option.map_some, tr.isOperand,
      operand, if_true]
    exact ih.bind fun _ _ => .of_ok rfl
  | case6 word a after operator isWord noOperand =>
    simp only [List.map_cons, Rule.takeJuncts, tr.leafOf?, isWord, Option.map_some, tr.isOperand,
      noOperand]
    exact tr.missingAfter word .expression

theorem applyConjunction_agree (focus : Focus α) :
    Agree g h (Option.map (Fold.map g h)) (applyConjunction view focus)
      (applyConjunction view' (focus.map g)) := by
  unfold applyConjunction
  have before : (focus.map g).left.head?.any (Rule.isOperand view') =
      focus.left.head?.any (Rule.isOperand view) := any_head? tr.isOperand focus.left
  rw [before, show (focus.map g).here = g focus.here from rfl,
    show (focus.map g).right = focus.right.map g from rfl, tr.token?, tr.isOperand]
  cases (view focus.here).token? with
  | some t =>
    simp only [Option.map_some, tr.kind]
    split
    · exact agree_object focus.here (.missingLeftOperand (tr.mention focus.here))
    · exact agree_decline
  | none =>
    simp only [Option.map_none]
    split
    · refine (tr.takeJuncts focus.right).bind fun s _ => ?_
      obtain ⟨_ | ⟨second, rest⟩, after⟩ := s
      · exact agree_decline
      · refine agree_fold rfl ?_ rfl
        simp [Node.map, Node.mapTokens, Junct.map, Origin.map]
    · exact agree_decline

end Translates

end SqlFold.Rule
