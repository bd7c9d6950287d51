import SqlFold.Proofs.Rows.Stages

/-!
# What stands between two leaves

A leaf that a rule neither starts at nor looks at stands in the row when the rule has come to rest, where
it stood before. So what is found between two such leaves in the end was made of what stood between them
(`Row.RestsAll.isolate`).
-/

namespace SqlFold.Row

variable {rule : Rule} {rules : List Rule} {row A B : Row} {s : Bare}

/-- A leaf that divides the row in which a rule comes to rest has divided the row before. -/
theorem Rests.split_result (divides : Divides rule s) {row' : Row} (rests : Rests rule row row')
    (eq : row' = A ++ s :: B) : ∃ A₀ B₀, row = A₀ ++ s :: B₀ ∧ Rests rule A₀ A ∧ Rests rule B₀ B := by
  induction rests with
  | rest declined =>
    subst eq
    obtain ⟨A', B', restsA, restsB, same⟩ := (Rests.rest declined).split divides rfl
    rw [declined_iff] at declined
    refine ⟨A, B, rfl, .rest (declined_iff.mpr fun n => ?_), .rest (declined_iff.mpr fun n => ?_)⟩
    · exact (declined n).before divides
    · exact (declined _).behind divides
  | @fold left right _ here fold before answer _ ih =>
    obtain ⟨A₁, B₁, row_eq, restsA, restsB⟩ := ih eq
    obtain ⟨t, shown, _⟩ := divides.leaf
    obtain ⟨back, ahead, covers⟩ := Rule.apply_covers answer
    have left_eq : left = back ++ fold.left := covers.left
    have right_eq : right = ahead ++ fold.right := covers.right
    cases place_of_split row_eq.symm with
    | before between A₁_eq behind =>
      rw [behind] at right_eq
      have both := divides.before (B := B₁) left (ahead ++ between) here
      have whole : left.reverse ++ here :: right = (left.reverse ++ here :: (ahead ++ between)) ++ s :: B₁ := by
        rw [right_eq]
        simp
      rw [show (ahead ++ between) ++ s :: B₁ = right by rw [right_eq]; simp, answer] at both
      obtain ⟨fold₀, folds, rfl⟩ := both.left_some
      refine ⟨_, B₁, whole, .fold (DeclinedBefore.before divides (B := B₁) (whole ▸ before)) folds ?_, restsB⟩
      have between_eq : fold₀.right = between := List.append_cancel_right behind
      have row_eq : fold₀.row = A₁ := by
        rw [Fold.row, between_eq, A₁_eq, Fold.widen, List.append_nil]
        rfl
      rwa [row_eq]
    | here _ same =>
      have leaf : fold.tree.kind = .tokenLeaf := same ▸ Rule.kind_of_leaf shown
      exact absurd leaf (Rule.kind_tree_ne_leaf answer)
    | behind between B₁_eq front =>
      rw [front] at left_eq
      have both := divides.behind (A := A₁) (back ++ between) right here
      have whole : left.reverse ++ here :: right = A₁ ++ s :: ((back ++ between).reverse ++ here :: right) := by
        rw [left_eq]
        simp
      rw [show (back ++ between) ++ s :: A₁.reverse = left by rw [left_eq]; simp, answer] at both
      obtain ⟨fold₀, folds, rfl⟩ := both.left_some
      refine ⟨A₁, _, whole, restsA, .fold (DeclinedBefore.behind divides (A := A₁) ?_) folds ?_⟩
      · rw [whole, left_eq] at before
        simpa [Nat.add_assoc] using before
      · have between_eq : fold₀.left = between := List.append_cancel_right front
        have row_eq : fold₀.row = B₁ := by
          rw [Fold.row, between_eq, B₁_eq, Fold.widen, List.append_nil]
          rfl
        rwa [row_eq]

/-- A leaf that divides the row in which rules come to rest has divided the row before. -/
theorem RestsAll.split_result (divides : ∀ rule ∈ rules, Divides rule s) (rests : RestsAll rules row (A ++ s :: B)) :
    ∃ A₀ B₀, row = A₀ ++ s :: B₀ ∧ RestsAll rules A₀ A ∧ RestsAll rules B₀ B := by
  generalize whole : A ++ s :: B = row' at rests
  induction rests with
  | nil => exact ⟨A, B, whole.symm, .nil, .nil⟩
  | cons first _ ih =>
    obtain ⟨here, later⟩ := List.forall_mem_cons.mp divides
    obtain ⟨A₁, B₁, eq, restsA, restsB⟩ := ih later whole
    obtain ⟨A₀, B₀, eq, firstA, firstB⟩ := first.split_result here eq
    exact ⟨A₀, B₀, eq, .cons firstA restsA, .cons firstB restsB⟩

/-- Leaves of some kinds divide rows for some rules. -/
def DivideAll (rules : List Rule) (sort : TokenKind → Bool) : Prop :=
  ∀ rule ∈ rules, rule ≠ .bracket ∧ ∀ kind, sort kind = true → rule.spares kind = true ∧ rule.startsAtLeaf kind = false

theorem DivideAll.divides {sort : TokenKind → Bool} (divide : DivideAll rules sort) {t : Token}
    (shown : s.node = .leaf t) (isSort : sort t.kind = true) : ∀ rule ∈ rules, Divides rule s :=
  fun rule listed => ⟨⟨t, shown, (divide rule listed).2 _ isSort⟩, (divide rule listed).1⟩

/-- What is found between leaves that divide the row was made of what stood between them. -/
theorem RestsAll.isolate {sort : TokenKind → Bool} (divide : DivideAll rules sort) {es : Row}
    (rests : RestsAll rules row (A ++ es ++ B)) (starts : Rule.Edge Tree.node sort A.reverse)
    (ends : Rule.Edge Tree.node sort B) :
    ∃ A₀ σ B₀, row = A₀ ++ σ ++ B₀ ∧ RestsAll rules σ es ∧ Rule.Edge Tree.node sort A₀.reverse ∧
      Rule.Edge Tree.node sort B₀ := by
  obtain ⟨C₀, B₀, rfl, restsC, edgeB⟩ : ∃ C₀ B₀, row = C₀ ++ B₀ ∧ RestsAll rules C₀ (A ++ es) ∧
      Rule.Edge Tree.node sort B₀ := by
    cases B with
    | nil => exact ⟨row, [], by simp, by simpa using rests, Rule.edge_nil⟩
    | cons s B =>
      obtain ⟨t, shown, isSort⟩ := Rule.edge_cons.mp ends
      obtain ⟨C₀, B₀, rfl, restsC, _⟩ := rests.split_result (divide.divides shown isSort)
      exact ⟨C₀, s :: B₀, rfl, restsC, Rule.edge_cons.mpr ⟨t, shown, isSort⟩⟩
  rcases List.eq_nil_or_concat' A with rfl | ⟨A, s, rfl⟩
  · exact ⟨[], C₀, B₀, by simp, restsC, Rule.edge_nil, edgeB⟩
  · rw [List.reverse_concat] at starts
    obtain ⟨t, shown, isSort⟩ := Rule.edge_cons.mp starts
    rw [List.append_assoc, List.singleton_append] at restsC
    obtain ⟨A₀, σ, rfl, _, rests⟩ := restsC.split_result (divide.divides shown isSort)
    refine ⟨A₀ ++ [s], σ, B₀, by simp, rests, ?_, edgeB⟩
    rw [List.reverse_concat]
    exact Rule.edge_cons.mpr ⟨t, shown, isSort⟩

end SqlFold.Row
