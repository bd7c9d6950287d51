import SqlFold.Proofs.Cover.Basic

/-!
# What is an edge for the rules on operands

A rule that looks past the last sibling before a leaf of another sort sees there what it sees at the
end of the branch: nothing that it can use. `Rule.Both` compares two readings that succeed together,
where the second one leaves more siblings behind. `Rule.Edge` says of these siblings, which may stand
on either side, that they start with such a leaf, if there are any. `Rule.spares` are the kinds of the
leaves that are edges for a rule: a semicolon for most, every word or mark that it does not look for
for the rules on operands, so an operator for those on calls, literals and names.
-/

namespace SqlFold

variable {α β γ δ : Type}

/-- The focus with more siblings around it. -/
def Focus.widen (front tail : List α) (focus : Focus α) : Focus α :=
  ⟨focus.left ++ front, focus.here, focus.right ++ tail⟩

/-- The fold with more siblings around it. -/
def Fold.widen (front tail : List α) (fold : Fold α) : Fold α :=
  ⟨fold.left ++ front, fold.node, fold.right ++ tail⟩

namespace Rule

/-- Two readings that both fail, or both succeed with values that `f` connects. -/
inductive Both (f : β → γ) : Checked α β → Checked α γ → Prop
  | ok (b : β) : Both f (.ok b) (.ok (f b))
  | error {o o' : Objection α} : Both f (.error o) (.error o')

/-- A value with siblings that are left, and more of them. -/
def longer (tail : List α) (s : β × List α) : β × List α := (s.1, s.2 ++ tail)

variable {view : α → Node α} {front tail : List α}

namespace Both

theorem of_ok {f : β → γ} {b : β} {c : γ} (eq : c = f b) :
    Both f (.ok b : Checked α β) (.ok c) := eq ▸ .ok b

theorem object {f : β → γ} (culprit culprit' : α) (fault fault' : Fault) :
    Both f (Rule.object culprit fault) (Rule.object culprit' fault') := .error

theorem decline : Both (Option.map (Fold.widen front tail)) Rule.decline Rule.decline := .ok none

theorem fold (left : List α) (node : Node (Origin α)) (right : List α) :
    Both (Option.map (Fold.widen front tail)) (Rule.fold left node right)
      (Rule.fold (left ++ front) node (right ++ tail)) := .ok (some (Fold.mk left node right))

/-- A reading that goes on after another. -/
theorem bind {δ' : Type} {f : β → γ} {f' : δ → δ'} {x : Checked α β} {x' : Checked α γ}
    {k : β → Checked α δ} {k' : γ → Checked α δ'} (first : Both f x x')
    (second : ∀ b, Both f' (k b) (k' (f b))) : Both f' (x >>= k) (x' >>= k') := by
  cases first with
  | ok b => exact second b
  | error => exact .error

end Both

/-! ## What is seen of a leaf -/

/-- Whether a rule on operands looks for leaves of a kind beside its focus. -/
def beside : TokenKind → Bool
  | .dot | .symbol | .star | .stringLiteral | .numericLiteral | .preparedArgument | .nullKw | .operator
  | .bracketOpen | .bracketClose | .notKw | .likeKw | .isKw | .inKw => true
  | _ => false

/-- Whether a rule on calls, literals or names looks for leaves of a kind beside its focus. -/
def besideName (kind : TokenKind) : Bool := kind == .dot || closesOperandKind kind

/-- The kinds of the leaves that a rule sees as it sees the edge of the branch. -/
def spares : Rule → TokenKind → Bool
  | bracket, _ => false
  | call, kind | literal, kind | allColumns, kind | column, kind => !besideName kind
  | membership, kind | operation, kind => !beside kind
  | conjunction, kind => !beside kind && !joinsOperands kind
  | fromClause, kind => kind != .asKw
  | _, kind => kind == .semicolon

/-- The siblings further away start with a leaf of the given sort, if there are any. -/
def Edge (view : α → Node α) (sort : TokenKind → Bool) (as : List α) : Prop :=
  ∀ s ∈ as.head?, ∃ t, view s = .leaf t ∧ sort t.kind = true

section Edge

variable {sort : TokenKind → Bool} {s : α}

theorem edge_nil : Edge view sort [] := nofun

theorem edge_cons {as : List α} :
    Edge view sort (s :: as) ↔ ∃ t, view s = .leaf t ∧ sort t.kind = true := by
  simp [Edge]

theorem endsStatement_iff {as : List α} :
    endsStatement view as = true ↔ Edge view (· == .semicolon) as := by
  cases as with
  | nil => exact iff_of_true rfl edge_nil
  | cons s as => simp [endsStatement, edge_cons, leafIs_iff]

variable {as : List α} (edge : Edge view sort (s :: as))

include edge

theorem token?_of_edge : ∃ t, (view s).token? = some t ∧ sort t.kind = true := by
  obtain ⟨t, shown, isSort⟩ := edge_cons.mp edge
  exact ⟨t, by rw [shown]; rfl, isSort⟩

theorem leafOf?_of_edge {sort' : TokenKind → Bool}
    (other : ∀ kind, sort kind = true → sort' kind = false) : leafOf? view sort' s = none := by
  obtain ⟨t, shown, isSort⟩ := token?_of_edge edge
  rw [leafOf?, shown, Option.filter_some, other _ isSort, if_neg Bool.false_ne_true]

theorem leaf?_of_edge {kind : TokenKind} (other : sort kind = false) : leaf? view kind s = none := by
  obtain ⟨t, shown, isSort⟩ := token?_of_edge edge
  rw [leaf?, shown, Option.filter_some, if_neg]
  rintro isKind
  rw [← beq_iff_eq.mp isKind, isSort] at other
  cases other

theorem leafIs_of_edge {kind : TokenKind} (other : sort kind = false) : leafIs view kind s = false := by
  by_contra isLeaf
  obtain ⟨t, shown, rfl⟩ := leafIs_iff.mp (by simpa using isLeaf)
  obtain ⟨u, shown', isSort⟩ := edge_cons.mp edge
  cases shown.symm.trans shown'
  cases isSort.symm.trans other

theorem isNode_of_edge {kind : NodeKind} (other : NodeKind.tokenLeaf ≠ kind) :
    isNode view kind s = false := by
  obtain ⟨t, shown, _⟩ := edge_cons.mp edge
  simpa [isNode, shown, Node.kind] using other

theorem isOperand_of_edge : isOperand view s = false := by
  obtain ⟨t, shown, _⟩ := edge_cons.mp edge
  rw [isOperand, shown]
  rfl

theorem closesOperand_of_edge (other : ∀ kind, sort kind = true → closesOperandKind kind = false) :
    closesOperand view s = false := by
  obtain ⟨t, shown, isSort⟩ := token?_of_edge edge
  rw [closesOperand, Node.tokenKind?, shown, Option.map_some]
  exact other _ isSort

end Edge

/-- What is asked of the nearest sibling is not asked of one further away. -/
theorem any_head?_append {sort : TokenKind → Bool} (ends : Edge view sort tail) {p : α → Bool}
    (no : ∀ s as, Edge view sort (s :: as) → p s = false) (as : List α) :
    (as ++ tail).head?.any p = as.head?.any p := by
  cases as with
  | cons a as => rfl
  | nil =>
    cases tail with
    | nil => rfl
    | cons s tail => exact no s tail ends

/-! ## Calls, literals and names -/

section Right

variable {sort : TokenKind → Bool} (ends : Edge view sort tail)

include ends

theorem takeLeaf?_append {kind : TokenKind} (other : sort kind = false) (as : List α) :
    takeLeaf? view kind (as ++ tail) = (takeLeaf? view kind as).map (longer tail) := by
  cases as with
  | cons a as =>
    simp only [List.cons_append, takeLeaf?, Option.map_map]
    rfl
  | nil =>
    cases tail with
    | nil => rfl
    | cons s tail =>
      simp only [List.nil_append, takeLeaf?, leaf?_of_edge ends other, Option.map_none]

theorem takeNames_append (noDot : sort .dot = false) (noName : sort .symbol = false) (room : Nat)
    (as : List α) :
    Both (longer tail) (takeNames view room as) (takeNames view room (as ++ tail)) := by
  induction room, as using takeNames.induct view with
  | case1 room =>
    unfold takeNames
    cases tail with
    | nil => exact .of_ok rfl
    | cons s tail =>
      simp only [List.nil_append, leafIs_of_edge ends noDot]
      exact .of_ok rfl
  | case2 point after isPoint =>
    unfold takeNames
    simp only [List.cons_append, isPoint, if_true]
    exact .error
  | case3 point isPoint room =>
    unfold takeNames
    simp only [List.cons_append, isPoint, if_true]
    cases tail with
    | nil => exact .error
    | cons s tail =>
      simp only [List.nil_append, leaf?_of_edge ends noName]
      exact .error
  | case4 point isPoint room a after notName =>
    unfold takeNames
    simp only [List.cons_append, isPoint, if_true, notName]
    exact .error
  | case5 point isPoint room a after name isName ih =>
    unfold takeNames
    simp only [List.cons_append, isPoint, if_true, isName]
    exact ih.bind fun _ => .of_ok rfl
  | case6 room point after noPoint =>
    unfold takeNames
    simp only [List.cons_append, noPoint]
    exact .of_ok rfl

end Right

theorem takeQualifiers_append {sort : TokenKind → Bool} (ends : Edge view sort front)
    (noDot : sort .dot = false) (noName : sort .symbol = false) (room : Nat) (as : List α) :
    Both (longer front) (takeQualifiers view room as) (takeQualifiers view room (as ++ front)) := by
  induction room, as using takeQualifiers.induct view with
  | case1 room =>
    unfold takeQualifiers
    cases front with
    | nil => exact .of_ok rfl
    | cons s front =>
      simp only [List.nil_append, leafIs_of_edge ends noDot]
      exact .of_ok rfl
  | case2 room point isPoint =>
    unfold takeQualifiers
    simp only [List.cons_append, isPoint, if_true]
    cases front with
    | nil => exact .error
    | cons s front =>
      simp only [List.nil_append, leaf?_of_edge ends noName]
      exact .error
  | case3 room point isPoint a before notName =>
    unfold takeQualifiers
    simp only [List.cons_append, isPoint, if_true, notName]
    exact .error
  | case4 point isPoint a before name isName =>
    unfold takeQualifiers
    simp only [List.cons_append, isPoint, if_true, isName]
    exact .error
  | case5 point isPoint a before name room isName ih =>
    unfold takeQualifiers
    simp only [List.cons_append, isPoint, if_true, isName]
    exact ih.bind fun _ => .of_ok rfl
  | case6 room point before noPoint =>
    unfold takeQualifiers
    simp only [List.cons_append, noPoint]
    exact .of_ok rfl

/-- The operator with more siblings after it. -/
def Operator.longer (tail : List α) (operator : Operator α) : Operator α :=
  { operator with after := operator.after ++ tail }

theorem not_startsOperator (kind : TokenKind) (spared : (!beside kind) = true) :
    startsOperator kind = false := by
  cases kind <;> first | rfl | cases spared

theorem takeOperator?_append (ends : Edge view (!beside ·) tail) (as : List α) :
    takeOperator? view (as ++ tail) = (takeOperator? view as).map (Operator.longer tail) := by
  have single (t : Token) (a : α) (rest : List α) :
      takeOperator?.single t a (rest ++ tail) =
        (takeOperator?.single t a rest).map (Operator.longer tail) := by
    unfold takeOperator?.single
    split <;> rfl
  cases as with
  | nil =>
    cases tail with
    | nil => rfl
    | cons s tail =>
      obtain ⟨t, shown, spared⟩ := token?_of_edge ends
      have none (rest : List α) : takeOperator?.single t s rest = none := by
        rw [takeOperator?.single, not_startsOperator _ spared, if_neg Bool.false_ne_true]
      cases tail with
      | nil => simp only [List.nil_append, takeOperator?, shown, none, Option.map_none]
      | cons b tail =>
        simp only [List.nil_append, takeOperator?, shown, Option.map_none]
        split
        · next isKw _ =>
          rw [isKw] at spared
          cases spared
        · next notKw _ =>
          rw [notKw] at spared
          cases spared
        · exact none _
  | cons a rest =>
    cases rest with
    | cons b after =>
      simp only [List.cons_append, takeOperator?]
      cases (view a).token? with
      | none => rfl
      | some t =>
        dsimp only
        split
        · split
          · rfl
          · exact single t a (b :: after)
        · split <;> rfl
        · exact single t a (b :: after)
    | nil =>
      cases tail with
      | nil =>
        rw [List.append_nil]
        cases takeOperator? view [a] with
        | none => rfl
        | some o => simp [Operator.longer]
      | cons s tail =>
        obtain ⟨u, shown, spared⟩ := token?_of_edge ends
        have other {kind : TokenKind} (needed : beside kind = true) : u.kind ≠ kind := by
          rintro rfl
          rw [needed] at spared
          cases spared
        simp only [List.cons_append, List.nil_append, takeOperator?]
        cases (view a).token? with
        | none => rfl
        | some t =>
          have alone := single t a []
          dsimp only
          split
          · next shown' =>
            cases shown.symm.trans shown'
            rw [if_neg (other rfl)]
            exact alone
          · next isNot shown' =>
            cases shown.symm.trans shown'
            have none : takeOperator?.single t a [] = none := by
              rw [takeOperator?.single, isNot]
              rfl
            rw [if_neg (not_or.mpr ⟨other rfl, other rfl⟩), none]
            rfl
          · exact alone

theorem not_joinsOperands (kind : TokenKind) (spared : conjunction.spares kind = true) :
    joinsOperands kind = false := by
  cases kind <;> first | rfl | cases spared

theorem takeJuncts_append (ends : Edge view conjunction.spares tail) (as : List α) :
    Both (longer tail) (takeJuncts view as) (takeJuncts view (as ++ tail)) := by
  induction as using takeJuncts.induct view with
  | case1 =>
    cases tail with
    | nil => exact .of_ok rfl
    | cons s tail =>
      have noWord := leafOf?_of_edge ends not_joinsOperands
      cases tail with
      | nil =>
        simp only [List.nil_append, takeJuncts, noWord]
        exact .of_ok rfl
      | cons b tail =>
        simp only [List.nil_append, takeJuncts, noWord]
        exact .of_ok rfl
  | case2 word noWord =>
    cases tail with
    | nil =>
      simp only [List.append_nil, takeJuncts, noWord]
      exact .of_ok rfl
    | cons s tail =>
      simp only [List.cons_append, List.nil_append, takeJuncts, noWord]
      exact .of_ok rfl
  | case3 word operator isWord =>
    cases tail with
    | nil =>
      simp only [List.append_nil, takeJuncts, isWord]
      exact .error
    | cons s tail =>
      simp only [List.cons_append, List.nil_append, takeJuncts, isWord,
        isOperand_of_edge ends]
      exact .error
  | case4 word a rest noWord =>
    simp only [List.cons_append, takeJuncts, noWord]
    exact .of_ok rfl
  | case5 word a rest operator isWord operand ih =>
    simp only [List.cons_append, takeJuncts, isWord, operand, if_true]
    exact ih.bind fun _ => .of_ok rfl
  | case6 word a rest operator isWord noOperand =>
    simp only [List.cons_append, takeJuncts, isWord, noOperand]
    exact .error

theorem not_closesOperandKind (kind : TokenKind) (spared : (!besideName kind) = true) :
    closesOperandKind kind = false := by
  cases kind <;> first | rfl | cases spared

section Names

variable (starts : Edge view (!besideName ·) front) (ends : Edge view (!besideName ·) tail) (focus : Focus α)

include starts ends

theorem applyCall_widen :
    Both (Option.map (Fold.widen front tail)) (applyCall view focus)
      (applyCall view (focus.widen front tail)) := by
  obtain ⟨left, here, right⟩ := focus
  have before := any_head?_append starts
    (fun _ _ edge => leafIs_of_edge edge (show (!besideName .dot) = false from rfl)) left
  simp only [Focus.widen, applyCall, before]
  cases leaf? view .symbol here with
  | none => exact .decline
  | some name =>
    cases right with
    | cons arguments after =>
      simp only [List.cons_append]
      split
      · exact .fold ..
      · exact .decline
    | nil =>
      cases tail with
      | nil => exact .decline
      | cons s tail =>
        simp only [List.nil_append, isNode_of_edge ends (show NodeKind.tokenLeaf ≠ .bracket by decide)]
        exact .decline

theorem applyLiteral_widen :
    Both (Option.map (Fold.widen front tail)) (applyLiteral view focus)
      (applyLiteral view (focus.widen front tail)) := by
  obtain ⟨left, here, right⟩ := focus
  have before := any_head?_append starts (fun _ _ edge => closesOperand_of_edge edge not_closesOperandKind) left
  have number := takeLeaf?_append ends (show (!besideName .numericLiteral) = false from rfl) right
  simp only [Focus.widen, applyLiteral, before, number]
  cases (view here).token? with
  | none => exact .decline
  | some t =>
    dsimp only
    split
    · exact .fold ..
    · split
      · cases takeLeaf? view .numericLiteral right with
        | none => exact .decline
        | some s => exact .fold ..
      · exact .decline

omit ends in
theorem applyAllColumns_widen :
    Both (Option.map (Fold.widen front tail)) (applyAllColumns view focus)
      (applyAllColumns view (focus.widen front tail)) := by
  obtain ⟨left, here, right⟩ := focus
  simp only [Focus.widen, applyAllColumns]
  cases leaf? view .star here with
  | none => exact .decline
  | some star => exact (takeQualifiers_append starts rfl rfl 2 left).bind fun _ => .fold ..

theorem applyColumn_widen :
    Both (Option.map (Fold.widen front tail)) (applyColumn view focus)
      (applyColumn view (focus.widen front tail)) := by
  obtain ⟨left, here, right⟩ := focus
  have before := any_head?_append starts
    (fun _ _ edge => leafIs_of_edge edge (show (!besideName .dot) = false from rfl)) left
  simp only [Focus.widen, applyColumn, before]
  cases leaf? view .symbol here with
  | none => exact .decline
  | some first =>
    dsimp only
    split
    · exact .decline
    · exact (takeNames_append ends rfl rfl 2 right).bind fun _ => .fold ..

end Names

/-! ## Operations and conjunctions -/

section Operators

variable (starts : Edge view (!beside ·) front) (ends : Edge view (!beside ·) tail) (focus : Focus α)

include starts ends

omit starts in
theorem membershipBehind_widen (left : List α) (here : α) (negation : Option Token) (rest : List α) :
    Both (Option.map (Fold.widen front tail)) (membershipBehind view left here negation rest)
      (membershipBehind view (left ++ front) here negation (rest ++ tail)) := by
  unfold membershipBehind
  rw [takeLeaf?_append ends rfl]
  cases takeLeaf? view .inKw rest with
  | none => exact .decline
  | some s =>
    obtain ⟨keyword, behind⟩ := s
    simp only [Option.map_some, longer]
    cases behind with
    | cons list after =>
      simp only [List.cons_append]
      split
      · exact .fold ..
      · exact .decline
    | nil =>
      cases tail with
      | nil => exact .decline
      | cons s tail =>
        simp only [List.nil_append, isNode_of_edge ends (show NodeKind.tokenLeaf ≠ .bracket by decide)]
        exact .decline

omit starts in
theorem applyMembership_widen :
    Both (Option.map (Fold.widen front tail)) (applyMembership view focus)
      (applyMembership view (focus.widen front tail)) := by
  obtain ⟨left, here, right⟩ := focus
  have negated := takeLeaf?_append ends (show (!beside .notKw) = false from rfl) right
  simp only [Focus.widen, applyMembership_eq, negated]
  split
  · cases takeLeaf? view .notKw right with
    | none => exact membershipBehind_widen ends left here none right
    | some s => exact membershipBehind_widen ends left here (some s.1) s.2
  · exact .decline

theorem applyOperation_widen :
    Both (Option.map (Fold.widen front tail)) (applyOperation view focus)
      (applyOperation view (focus.widen front tail)) := by
  obtain ⟨left, here, right⟩ := focus
  have before := any_head?_append starts (fun _ _ => isOperand_of_edge) left
  simp only [Focus.widen, applyOperation, before, takeOperator?_append ends right]
  cases (view here).token? with
  | some t =>
    dsimp only
    split
    · exact .object ..
    · exact .decline
  | none =>
    cases isOperand view here with
    | false => exact .decline
    | true =>
      cases takeOperator? view right with
      | none => exact .decline
      | some operator =>
        obtain ⟨tokens, last, behind⟩ := operator
        simp only [if_true, Option.map_some, Operator.longer]
        cases behind with
        | cons a after =>
          simp only [List.cons_append]
          cases isOperand view a with
          | true => exact .fold ..
          | false => exact .object ..
        | nil =>
          cases tail with
          | nil => exact .error
          | cons s tail =>
            simp only [List.nil_append, isOperand_of_edge ends]
            exact .object ..

omit starts ends in
theorem applyConjunction_widen (starts : Edge view conjunction.spares front)
    (ends : Edge view conjunction.spares tail) :
    Both (Option.map (Fold.widen front tail)) (applyConjunction view focus)
      (applyConjunction view (focus.widen front tail)) := by
  obtain ⟨left, here, right⟩ := focus
  have before := any_head?_append starts (fun _ _ => isOperand_of_edge) left
  show Both _ (applyConjunction view ⟨left, here, right⟩)
    (applyConjunction view ⟨left ++ front, here, right ++ tail⟩)
  simp only [applyConjunction, before]
  cases (view here).token? with
  | some t =>
    dsimp only
    split
    · exact .object ..
    · exact .decline
  | none =>
    dsimp only
    by_cases operand : isOperand view here = true
    · rw [if_pos operand, if_pos operand]
      refine (takeJuncts_append ends right).bind fun s => ?_
      obtain ⟨_ | ⟨second, rest⟩, after⟩ := s
      · exact .decline
      · exact .fold ..
    · rw [if_neg operand, if_neg operand]
      exact .decline

end Operators

end Rule

end SqlFold
