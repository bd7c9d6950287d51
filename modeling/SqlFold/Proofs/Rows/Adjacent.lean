import SqlFold.Proofs.Cover.Kinds
import SqlFold.Proofs.Rows.Engine

/-!
# Neighbours in a row

`Row.Chained P` says of every tree in a row how it stands to the one right before it. A fold puts one
tree, which is no leaf, in the place of a run of trees (`Rule.row_split`), so only two pairs of
neighbours are new after it (`Row.Chained.fold`).
-/

namespace SqlFold

namespace Row

/-- Every tree stands to the one before it as `P` says; `previous` stands before the row. -/
def Chained (P : Option Bare → Bare → Prop) : (previous : Option Bare) → Row → Prop
  | _, [] => True
  | previous, t :: row => P previous t ∧ Chained P (some t) row

variable {P Q : Option Bare → Bare → Prop} {previous : Option Bare}

theorem chained_append {row row' : Row} :
    Chained P previous (row ++ row') ↔
      Chained P previous row ∧ Chained P (row.getLast?.or previous) row' := by
  induction row generalizing previous with
  | nil => simp [Chained]
  | cons t row ih =>
    have last : (t :: row).getLast?.or previous = row.getLast?.or (some t) := by
      rw [List.getLast?_cons]
      cases row.getLast? <;> rfl
    rw [List.cons_append, Chained, Chained, ih, last, and_assoc]

/-- One more tree at the end. -/
theorem Chained.snoc {row : Row} {t : Bare} (h : Chained P none row) (new : P row.getLast? t) :
    Chained P none (row ++ [t]) :=
  chained_append.mpr ⟨h, by rwa [Option.or_none], trivial⟩

/-- A chain of a weaker relation. -/
theorem Chained.imp {row : Row} (h : Chained P previous row)
    (weaker : ∀ before, ∀ t ∈ row, P before t → Q before t) : Chained Q previous row := by
  induction row generalizing previous with
  | nil => trivial
  | cons t row ih =>
    obtain ⟨here, rest⟩ := h
    exact ⟨weaker _ t List.mem_cons_self here,
      ih rest fun before u mem => weaker before u (List.mem_cons_of_mem _ mem)⟩

/-- What is said of a tree at a place of the row. -/
theorem Chained.focus {left right : Row} {here : Bare}
    (h : Chained P none (left.reverse ++ here :: right)) : P left.head? here := by
  obtain ⟨_, here, _⟩ := chained_append.mp h
  rwa [List.getLast?_reverse, Option.or_none] at here

/-- The part of the row behind a place. -/
theorem Chained.behind {left right : Row} {here : Bare}
    (h : Chained P none (left.reverse ++ here :: right)) : Chained P (some here) right :=
  (chained_append.mp h).2.2

/-- What stands before the row is only seen by its first tree. -/
theorem Chained.change {previous' : Option Bare} {row : Row} (h : Chained P previous row)
    (first : ∀ t ∈ row.head?, P previous' t) : Chained P previous' row := by
  cases row with
  | nil => trivial
  | cons t row => exact ⟨first t rfl, h.2⟩

/-- One tree in the place of several. -/
theorem Chained.fold {before taken after : Row} {t : Bare}
    (h : Chained P previous (before ++ taken ++ after)) (new : P (before.getLast?.or previous) t)
    (next : ∀ u ∈ after.head?, P (some t) u) : Chained P previous (before ++ t :: after) := by
  rw [List.append_assoc] at h
  obtain ⟨front, back⟩ := chained_append.mp h
  exact chained_append.mpr ⟨front, new, (chained_append.mp back).2.change next⟩

end Row

namespace Rule

variable {rule : Rule} {left right : Row} {here : Bare} {fold : Fold Bare}

/-- The kind of the tree that a fold makes. -/
theorem kind_tree (answer : rule.apply Tree.node ⟨left, here, right⟩ = .ok (some fold)) :
    fold.tree.kind = rule.makes :=
  (Node.kind_map _ _).trans (apply_kind answer)

/-- The tree that a fold makes is no leaf. -/
theorem kind_tree_ne_leaf (answer : rule.apply Tree.node ⟨left, here, right⟩ = .ok (some fold)) :
    fold.tree.kind ≠ .tokenLeaf := by
  rw [kind_tree answer]
  cases rule <;> exact nofun

/-- Only `Rule.bracket` makes a branch. -/
theorem isBranch_tree (answer : rule.apply Tree.node ⟨left, here, right⟩ = .ok (some fold))
    (other : rule ≠ .bracket) : fold.tree.node.isBranch = false := by
  by_contra branch
  refine other (eq_bracket_of_isBranch answer ?_)
  rw [Fold.tree, Tree.node, Node.isBranch, Node.branch?_map, Option.isSome_map] at branch
  exact Bool.eq_true_of_not_eq_false branch

/-- A fold puts its tree in the place of a run of trees with the focus in it. -/
theorem row_split (answer : rule.apply Tree.node ⟨left, here, right⟩ = .ok (some fold)) :
    ∃ back ahead, left.reverse ++ here :: right =
        fold.left.reverse ++ (back.reverse ++ here :: ahead) ++ fold.right ∧
      left = back ++ fold.left ∧ right = ahead ++ fold.right := by
  obtain ⟨back, ahead, covers⟩ := apply_covers answer
  have left_eq : left = back ++ fold.left := covers.left
  have right_eq : right = ahead ++ fold.right := covers.right
  refine ⟨back, ahead, ?_, left_eq, right_eq⟩
  rw [left_eq, right_eq]
  simp

/-- A fold keeps what is said of all trees, if it is said of the new one. -/
theorem forall_row {P : Bare → Prop}
    (answer : rule.apply Tree.node ⟨left, here, right⟩ = .ok (some fold))
    (all : ∀ t ∈ left.reverse ++ here :: right, P t) (new : P fold.tree) : ∀ t ∈ fold.row, P t := by
  obtain ⟨back, ahead, split, _⟩ := row_split answer
  rw [split] at all
  intro t mem
  rcases List.mem_append.mp mem with before | after
  · exact all t (List.mem_append_left _ (List.mem_append_left _ before))
  · rcases List.mem_cons.mp after with rfl | after
    · exact new
    · exact all t (List.mem_append_right _ after)

/-- A fold keeps what is said of neighbours, if it is said of the new ones. -/
theorem chained_row {P : Option Bare → Bare → Prop}
    (answer : rule.apply Tree.node ⟨left, here, right⟩ = .ok (some fold))
    (all : Row.Chained P none (left.reverse ++ here :: right)) (new : P fold.left.head? fold.tree)
    (next : ∀ u ∈ fold.right.head?, P (some fold.tree) u) : Row.Chained P none fold.row := by
  obtain ⟨back, ahead, split, _⟩ := row_split answer
  rw [split] at all
  refine all.fold ?_ next
  rwa [List.getLast?_reverse, Option.or_none]

end Rule

end SqlFold
