import SqlFold.Proofs.Cover.Consumed
import SqlFold.Proofs.Rows.Phases

/-!
# Leaves that are left

No fold makes a leaf, so a row has fewer and fewer of them while it is parsed. `Rule.consumes` lists the
kinds of which a rule leaves no leaf when it comes to rest. With the brackets, which are grouped first,
these are the kinds of which no leaf is left in a parsed row (`Row.Parses.not_mem_leafKinds`).
-/

namespace SqlFold

namespace Row

variable {rule : Rule} {row row' : Row}

/-! ## What folds keep -/

/-- The kinds of the leaves of a row. -/
def leafKinds (row : Row) : List TokenKind := row.filterMap fun t => t.node.tokenKind?

/-- A fold leaves fewer leaves. -/
theorem leafKinds_fold {left right : Row} {here : Bare} {fold : Fold Bare}
    (answer : rule.apply Tree.node ⟨left, here, right⟩ = .ok (some fold)) :
    fold.row.leafKinds.Sublist (leafKinds (left.reverse ++ here :: right)) := by
  obtain ⟨back, ahead, split, _⟩ := Rule.row_split answer
  have noLeaf : fold.tree.node.tokenKind? = none := by
    have other := Rule.kind_tree_ne_leaf answer
    rw [Tree.kind] at other
    cases node : fold.tree.node with
    | leaf => rw [node] at other; exact absurd rfl other
    | _ => rfl
  rw [split, Fold.row]
  have made : leafKinds (fold.tree :: fold.right) = leafKinds fold.right := by
    simp only [leafKinds, List.filterMap_cons, noLeaf]
  rw [leafKinds, leafKinds, List.append_assoc, List.filterMap_append, List.filterMap_append,
    List.filterMap_append]
  refine (List.Sublist.refl _).append ?_
  rw [show List.filterMap _ (fold.tree :: fold.right) = _ from made]
  exact List.sublist_append_right _ _

/-- What every fold of a rule keeps is kept until the rule comes to rest. -/
theorem Rests.keeps {I : Row → Prop} (rests : Rests rule row row')
    (step : ∀ left here right fold, rule.apply Tree.node ⟨left, here, right⟩ = .ok (some fold) →
      I (left.reverse ++ here :: right) → I fold.row) (holds : I row) : I row' := by
  induction rests with
  | rest => exact holds
  | fold _ answer _ ih => exact ih (step _ _ _ _ answer holds)

/-- What every fold of some rules keeps is kept until they have come to rest. -/
theorem RestsAll.keeps {I : Row → Prop} {rules : List Rule} (rests : RestsAll rules row row')
    (step : ∀ rule ∈ rules, ∀ left here right fold,
      rule.apply Tree.node ⟨left, here, right⟩ = .ok (some fold) →
        I (left.reverse ++ here :: right) → I fold.row) (holds : I row) : I row' := by
  induction rests with
  | nil => exact holds
  | cons first _ ih =>
    obtain ⟨here, later⟩ := List.forall_mem_cons.mp step
    exact ih later (first.keeps here holds)

/-- A rule that has come to rest declines. -/
theorem Rests.declined (rests : Rests rule row row') : Declined rule row' := by
  induction rests with
  | rest declined => exact declined
  | fold _ _ _ ih => exact ih

/-- Rules of which one comes to rest before the others. -/
theorem RestsAll.split {before after : List Rule} (rests : RestsAll (before ++ rule :: after) row row') :
    ∃ between, RestsAll (before ++ [rule]) row between ∧ Declined rule between ∧
      RestsAll after between row' := by
  induction before generalizing row with
  | nil =>
    cases rests with
    | cons first later => exact ⟨_, .cons first .nil, first.declined, later⟩
  | cons other before ih =>
    cases rests with
    | cons first later =>
      obtain ⟨between, earlier, declined, later⟩ := ih later
      exact ⟨between, .cons first earlier, declined, later⟩

/-- Rules leave fewer leaves. -/
theorem RestsAll.leafKinds {rules : List Rule} (rests : RestsAll rules row row') :
    row'.leafKinds.Sublist row.leafKinds :=
  rests.keeps (I := fun r => r.leafKinds.Sublist row.leafKinds)
    (fun _ _ _ _ _ _ answer fewer => (leafKinds_fold answer).trans fewer) (.refl _)

/-! ## What is consumed -/

theorem mem_leafKinds {kind : TokenKind} :
    kind ∈ row.leafKinds ↔ ∃ left here right, row = List.reverse left ++ here :: right ∧
      Rule.leafIs Tree.node kind here = true := by
  simp only [leafKinds, List.mem_filterMap, Rule.leafIs, beq_iff_eq]
  constructor
  · rintro ⟨t, mem, shown⟩
    obtain ⟨before, after, split⟩ := List.append_of_mem mem
    exact ⟨before.reverse, t, after, by simpa using split, shown⟩
  · rintro ⟨left, here, right, rfl, shown⟩
    exact ⟨here, by simp, shown⟩

/-- A rule that consumes the leaves of a kind declines only where there is none. -/
theorem Declined.not_mem_leafKinds {kind : TokenKind} (declined : Declined rule row)
    (consumes : rule.consumes kind = true) : kind ∉ row.leafKinds := by
  rw [mem_leafKinds]
  rintro ⟨left, here, right, rfl, isKind⟩
  obtain ⟨t, shown, rfl⟩ := Rule.leafIs_iff.mp isKind
  have here_declined := declined left here right rfl
  by_cases alone : rule ≠ .operation ∧ rule ≠ .conjunction ∧ rule ≠ .join
  · exact Rule.apply_ne_none shown consumes alone here_declined
  · obtain rfl | rfl | rfl : rule = .operation ∨ rule = .conjunction ∨ rule = .join := by
      by_contra others
      simp only [not_or] at others
      exact alone others
    · obtain ⟨a, before, rfl, folds⟩ := Rule.operation_ne_none shown consumes here_declined
      exact folds (declined before a (here :: right) (by simp))
    · obtain ⟨a, before, rfl, folds⟩ := Rule.conjunction_ne_none shown consumes here_declined
      exact folds (declined before a (here :: right) (by simp))
    · have modifiers : Rule.takeModifiers Tree.node (here :: right) = ([], here :: right) :=
        Rule.takeModifiers_of_join shown (beq_iff_eq.mp consumes)
      obtain ⟨left', here', right', split, folds⟩ := Rule.join_ne_none modifiers
        (Rule.leaf?_eq_some.mpr ⟨shown, beq_iff_eq.mp consumes⟩)
      exact folds (declined left' here' right' split)

/-- Where brackets are grouped there is none left. -/
theorem Grouped.not_mem_leafKinds {S : Row → Row → Prop} {previous : Option Bare}
    (grouped : Grouped S previous row row') : .bracketOpen ∉ row'.leafKinds ∧ .bracketClose ∉ row'.leafKinds := by
  simp only [leafKinds, List.mem_filterMap, not_exists, not_and]
  have brackets {t : Bare} (opened : opens t = false) (closed : closes t = false) :
      ¬t.node.tokenKind? = some .bracketOpen ∧ ¬t.node.tokenKind? = some .bracketClose := by
    simpa [opens, closes, Rule.leafIs] using And.intro opened closed
  induction grouped with
  | nil => simp
  | cons _ opened closed _ ih =>
    simp only [List.forall_mem_cons]
    exact ⟨⟨(brackets opened closed).1, ih.1⟩, (brackets opened closed).2, ih.2⟩
  | span _ _ _ _ _ _ ih =>
    simp only [List.forall_mem_cons]
    exact ⟨⟨by rintro ⟨⟩, ih.1⟩, by rintro ⟨⟩, ih.2⟩

/-- In a parsed row there is no bracket and no leaf that a rule consumes. -/
theorem Parses.not_mem_leafKinds {kind : TokenKind} (parses : Parses row row')
    (gone : kind = .bracketOpen ∨ kind = .bracketClose ∨ Rule.isConsumed kind = true) :
    kind ∉ row'.leafKinds := by
  obtain ⟨grouped, rests⟩ := parses
  obtain ⟨noOpen, noClose⟩ := grouped.not_mem_leafKinds
  rcases gone with rfl | rfl | consumed
  · exact fun mem => noOpen (rests.leafKinds.subset mem)
  · exact fun mem => noClose (rests.leafKinds.subset mem)
  · obtain ⟨rule, listed, consumes⟩ := List.any_eq_true.mp consumed
    have later : rule ∈ Rule.standard.tail := by
      cases rule with
      | bracket => cases consumes
      | _ => decide
    obtain ⟨before, after, split⟩ := List.append_of_mem later
    rw [split] at rests
    obtain ⟨between, _, declined, rests⟩ := rests.split
    exact fun mem => declined.not_mem_leafKinds consumes (rests.leafKinds.subset mem)

section Trees

variable {P : Bare → Prop}
  (spans : ∀ opening closing content arguments, opening.kind = .bracketOpen →
    closing.kind = .bracketClose →
      Rule.checkContent Tree.node (Row.span opening closing content) content arguments = .ok () →
        (∀ t ∈ content, P t) → P (Row.span opening closing content))

include spans

/-- What is said of all trees of a row is said of those of the grouped row, if it is said of the content
of the brackets. -/
theorem Grouped.forall_mem {S : Row → Row → Prop} {previous : Option Bare}
    (grouped : Grouped S previous row row')
    (inside : ∀ inner content, inner.weight < row.weight → S inner content → (∀ t ∈ inner, P t) →
      ∀ t ∈ content, P t) (all : ∀ t ∈ row, P t) : ∀ t ∈ row', P t := by
  induction grouped with
  | nil => exact nofun
  | cons _ _ _ _ ih =>
    rw [List.forall_mem_cons] at all ⊢
    rw [weight_cons] at inside
    exact ⟨all.1, ih (fun inner content lt => inside inner content (by omega)) all.2⟩
  | span node kind split content checked _ ih =>
    obtain ⟨last, rfl, closes, isClosing⟩ := Rule.splitAtClosing?_some split
    have bracket := Rule.weight_leaf (Rule.kind_of_leaf node)
    rw [weight_cons, weight_append, weight_cons, bracket] at inside
    simp only [List.forall_mem_cons, List.forall_mem_append] at all ⊢
    obtain ⟨_, allInner, _, allBehind⟩ := all
    exact ⟨spans _ _ _ _ kind isClosing checked (inside _ _ (by omega) content allInner),
      ih (fun inner content lt => inside inner content (by omega)) allBehind⟩

/-- What is said of all trees of a row is said of those of the parsed row, if folds keep it. -/
theorem Parses.forall_mem (folds : ∀ (rule : Rule) (left : Row) here right fold, rule ≠ .bracket →
      rule.apply Tree.node ⟨left, here, right⟩ = .ok (some fold) →
        (∀ t ∈ left.reverse ++ here :: right, P t) → P fold.tree)
    (parses : Parses row row') (all : ∀ t ∈ row, P t) : ∀ t ∈ row', P t := by
  generalize bound : row.weight = w
  induction w using Nat.strongRecOn generalizing row row' with
  | ind w ih =>
    obtain ⟨grouped, rests⟩ := parses
    have allBetween := grouped.forall_mem spans
      (fun inner content lt parses allInner => ih _ (bound ▸ lt) parses allInner rfl) all
    refine rests.keeps (I := fun r => ∀ t ∈ r, P t)
      (fun rule listed left here right fold answer all => ?_) allBetween
    refine Rule.forall_row answer all (folds rule left here right fold ?_ answer all)
    rintro rfl
    exact absurd listed (by decide)

end Trees

end Row

end SqlFold
