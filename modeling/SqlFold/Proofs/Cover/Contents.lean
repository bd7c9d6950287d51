import SqlFold.Proofs.Cover.Starts

/-!
# What stands between checked brackets

Where `Rule.checkContent` finds nothing wrong, items and commas alternate between the brackets, after
a leading `DISTINCT` perhaps (`Rule.checkContent_ok`). Between such siblings no rule does anything:
the pattern of every rule needs a leaf that does not stand there, or an operand right before such a
leaf (`Rule.apply_of_between`).
-/

namespace SqlFold.Rule

variable {α : Type} {view : α → Node α}

theorem isItem_of_isOperand {a : α} (operand : isOperand view a = true) : isItem view a = true := by
  rw [isItem, operand, Bool.true_or]

/-- Items with commas between them. -/
inductive Items (view : α → Node α) : List α → Prop
  | last {a : α} : isItem view a = true → Items view [a]
  | next {a comma : α} {rest : List α} :
      isItem view a = true → leafIs view .comma comma = true → Items view rest →
        Items view (a :: comma :: rest)

/-- The checked content of a pair of brackets. -/
inductive Content (view : α → Node α) : List α → Prop
  | empty : Content view []
  | items {as : List α} : Items view as → Content view as
  | distinct {word : α} {as : List α} :
      leafIs view .distinctKw word = true → Items view as → Content view (word :: as)

theorem checkItems_ok {item : Bool} {previous : α} {as : List α}
    (checked : checkItems view item previous as = .ok ()) :
    if item then Items view as
    else as = [] ∨ ∃ comma rest, as = comma :: rest ∧ leafIs view .comma comma = true ∧
      Items view rest := by
  induction as generalizing item previous with
  | nil =>
    cases item with
    | true => exact (object_ne checked).elim
    | false => exact .inl rfl
  | cons a rest ih =>
    cases item with
    | true =>
      simp only [checkItems, if_true] at checked ⊢
      split at checked
      · next isItem =>
        rcases ih checked with rfl | ⟨comma, rest', rfl, isComma, items⟩
        · exact .last isItem
        · exact .next isItem isComma items
      · exact (object_ne checked).elim
    | false =>
      simp only [checkItems, Bool.false_eq_true, if_false] at checked ⊢
      split at checked
      · next isComma => exact .inr ⟨a, rest, rfl, isComma, ih checked⟩
      · exact (object_ne checked).elim

/-- Nothing is wrong with the content of a branch only if it is one of items and commas. -/
theorem checkContent_ok {span : α} {content : List α} {arguments : Bool}
    (checked : checkContent view span content arguments = .ok ()) : Content view content := by
  have finish {items : List α} (checked : (if items.isEmpty then object span .emptyBrackets
      else checkItems view true span items) = .ok ()) : Items view items := by
    split at checked
    · exact (object_ne checked).elim
    · exact checkItems_ok checked
  unfold checkContent at checked
  cases content with
  | nil => exact .empty
  | cons a rest =>
    simp only [List.isEmpty_cons, Bool.and_false, Bool.false_eq_true, if_false] at checked
    split at checked
    · next distinct =>
      simp only [Bool.and_eq_true] at distinct
      exact .distinct distinct.2 (finish checked)
    · exact .items (finish checked)

theorem leafIs_of_isItem {a : α} (item : isItem view a = true) (kind : TokenKind) : leafIs view kind a = false := by
  rw [isItem, isOperand, isNode, Node.isExpression] at item
  rw [leafIs, Node.tokenKind?]
  cases shown : view a with
  | leaf =>
    rw [shown] at item
    cases item
  | _ => rfl

/-- Nothing is wrong with items that alternate with commas. -/
theorem Items.checked {as : List α} (items : Items view as) (previous : α) : checkItems view true previous as = .ok () := by
  induction items generalizing previous with
  | last isItem => simp [checkItems, isItem]
  | next isItem isComma _ ih => simp [checkItems, isItem, isComma, ih]

/-- Nothing is wrong with the content of an argument list that is one of items and commas. -/
theorem Content.checked {as : List α} (content : Content view as) (span : α) : checkContent view span as true = .ok () := by
  cases content with
  | empty => rfl
  | items items =>
    obtain ⟨a, rest, rfl, first⟩ : ∃ a rest, as = a :: rest ∧ isItem view a = true := by
      cases items with
      | last isItem => exact ⟨_, _, rfl, isItem⟩
      | next isItem => exact ⟨_, _, rfl, isItem⟩
    simp [checkContent, leafIs_of_isItem first, items.checked]
  | @distinct word rest isWord items =>
    have filled : rest.isEmpty = false := by
      cases items <;> rfl
    simp [checkContent, isWord, filled, items.checked]

/-- A sibling between brackets: a comma or `DISTINCT`, or an item with nothing else beside it. -/
inductive Between (view : α → Node α) (focus : Focus α) : Prop
  | word : leafIs view .comma focus.here = true ∨ leafIs view .distinctKw focus.here = true →
      Between view focus
  | item : isItem view focus.here = true →
      (∀ a ∈ focus.left.head?, leafIs view .comma a = true ∨ leafIs view .distinctKw a = true) →
        (∀ a ∈ focus.right.head?, leafIs view .comma a = true) → Between view focus

theorem Items.between {as : List α} (items : Items view as) (before : List α) {left right : List α} {here : α}
    (first : ∀ a ∈ before.head?, leafIs view .comma a = true ∨ leafIs view .distinctKw a = true)
    (split : as = left.reverse ++ here :: right) : Between view ⟨left ++ before, here, right⟩ := by
  induction items generalizing before left with
  | @last a isItem =>
    rcases List.eq_nil_or_concat' left with rfl | ⟨left, b, rfl⟩
    · obtain ⟨rfl, rfl⟩ := List.cons.inj split
      exact .item isItem first nofun
    · simp at split
  | @next a comma rest isItem isComma items ih =>
    rcases List.eq_nil_or_concat' left with rfl | ⟨left, b, rfl⟩
    · obtain ⟨rfl, rfl⟩ := List.cons.inj split
      refine .item isItem first ?_
      rintro _ ⟨⟩
      exact isComma
    · rw [List.reverse_concat, List.cons_append] at split
      obtain ⟨rfl, split'⟩ := List.cons.inj split
      rcases List.eq_nil_or_concat' left with rfl | ⟨left, c, rfl⟩
      · obtain ⟨rfl, rfl⟩ := List.cons.inj split'
        exact .word (.inl isComma)
      · rw [List.reverse_concat, List.cons_append] at split'
        obtain ⟨rfl, rest_eq⟩ := List.cons.inj split'
        have between := ih (comma :: a :: before) (by rintro _ ⟨⟩; exact .inl isComma)
          rest_eq
        simpa using between

/-- Every sibling in the content of a checked branch stands between commas. -/
theorem Content.between {as : List α} (content : Content view as) {focus : Focus α}
    (split : as = focus.left.reverse ++ focus.here :: focus.right) : Between view focus := by
  obtain ⟨left, here, right⟩ := focus
  cases content with
  | empty => simp at split
  | items items => simpa using items.between [] (by simp) split
  | @distinct word as isWord items =>
    dsimp only at split
    rcases List.eq_nil_or_concat' left with rfl | ⟨left, b, rfl⟩
    · obtain ⟨rfl, rfl⟩ := List.cons.inj split
      exact .word (.inr isWord)
    · rw [List.reverse_concat, List.cons_append] at split
      obtain ⟨rfl, split'⟩ := List.cons.inj split
      simpa using items.between [word] (by rintro _ ⟨⟩; exact .inr isWord) split'

/-- A leaf that is no operator, and starts none, is no operator. -/
theorem takeOperator?_of_comma {as : List α} (comma : ∀ a ∈ as.head?, leafIs view .comma a = true) :
    takeOperator? view as = none := by
  cases as with
  | nil => rfl
  | cons a rest =>
    obtain ⟨t, shown, kind⟩ := leafIs_iff.mp (comma a rfl)
    have token : (view a).token? = some t := by rw [shown]; rfl
    have single : takeOperator?.single t a rest = none := by
      simp only [takeOperator?.single, kind, startsOperator]
      rfl
    cases rest with
    | nil => simpa only [takeOperator?, token] using single
    | cons b after => simpa only [takeOperator?, token, kind] using single

/-- Between commas no rule does anything, apart from the check of brackets. -/
theorem apply_of_between {rule : Rule} {focus : Focus α} (between : Between view focus)
    (checked : rule = .bracket → isNode view .bracket focus.here = true →
      applyBracket view focus = .ok none) : rule.apply view focus = .ok none := by
  cases between with
  | word isWord =>
    have leaf : ∃ t, view focus.here = .leaf t ∧ (t.kind = .comma ∨ t.kind = .distinctKw) := by
      rcases isWord with comma | distinct
      · obtain ⟨t, shown, kind⟩ := leafIs_iff.mp comma
        exact ⟨t, shown, .inl kind⟩
      · obtain ⟨t, shown, kind⟩ := leafIs_iff.mp distinct
        exact ⟨t, shown, .inr kind⟩
    obtain ⟨t, shown, kind⟩ := leaf
    refine apply_of_leaf shown ?_
    rcases kind with kind | kind <;> rw [kind] <;> cases rule <;> rfl
  | item isItem before after =>
    have notLeaf : (view focus.here).token? = none := by
      cases shown : view focus.here with
      | leaf t =>
        simp only [Rule.isItem, isOperand, isNode, shown] at isItem
        cases isItem
      | _ => rfl
    have noLeaf (kind : TokenKind) (other : TokenKind.comma ≠ kind) :
        takeLeaf? view kind focus.right = none := by
      cases right : focus.right with
      | nil => rfl
      | cons a rest =>
        obtain ⟨t, shown, isComma⟩ := leafIs_iff.mp (after a (by rw [right]; rfl))
        rw [takeLeaf?, leaf?_of_leaf shown, if_neg (by rwa [isComma])]
        rfl
    cases rule with
    | bracket =>
      cases isBracket : isNode view .bracket focus.here with
      | true => exact checked rfl isBracket
      | false => exact apply_of_node notLeaf isBracket
    | membership =>
      simp only [apply, applyMembership, noLeaf .notKw (by decide),
        noLeaf .inKw (by decide)]
      split <;> rfl
    | operation =>
      simp only [apply, applyOperation, notLeaf, takeOperator?_of_comma after]
      split <;> rfl
    | conjunction =>
      have juncts : takeJuncts view focus.right = .ok ([], focus.right) := by
        cases right : focus.right with
        | nil => rfl
        | cons a rest =>
          obtain ⟨t, shown, isComma⟩ := leafIs_iff.mp (after a (by rw [right]; rfl))
          have none : leafOf? view joinsOperands a = none := by
            rw [leafOf?, shown, Node.token?, Option.filter_some, isComma]
            rfl
          cases rest with
          | nil => simp only [takeJuncts, none]
          | cons b after => simp only [takeJuncts, none]
      simp only [apply, applyConjunction, notLeaf, juncts]
      split <;> rfl
    | _ => exact apply_of_node notLeaf rfl

end SqlFold.Rule
