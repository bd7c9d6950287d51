import Mathlib
import SqlFold.Proofs.Rows.Quiet
import SqlFold.Proofs.Statements

/-!
# Nothing is left to do

Where a run with all rules succeeds no rule folds anything any more: not in the root, where all rules
have come to rest (`Row.Parses.quiet`), and not between brackets, where items and commas alternate
(`Rule.apply_of_between`). So a second run changes nothing (`Folding.runWith_quiescent`).
-/

namespace SqlFold

open Forest

/-! ## Orderly trees -/

/-- Between all brackets at or below a tree stand items and commas. -/
inductive Tree.Orderly : Bare → Prop
  | mk {n : Node Bare} : (∀ cs, n.branch? = some cs → Rule.Content Tree.node cs) →
      (∀ c ∈ n.children, Orderly c) → Orderly (.mk () n)

namespace Tree.Orderly

variable {t : Bare}

theorem content (orderly : t.Orderly) {cs : Row} (branch : t.node.branch? = some cs) :
    Rule.Content Tree.node cs := by
  cases orderly with
  | mk contents _ => exact contents cs branch

theorem children (orderly : t.Orderly) : ∀ c ∈ t.node.children, c.Orderly := by
  cases orderly with
  | mk _ children => exact children

end Tree.Orderly

/-- Parsed rows of leaves are orderly. -/
theorem Row.Parses.orderly {row row' : Row} (parses : Row.Parses row row')
    (orderly : ∀ t ∈ row, t.Orderly) : ∀ t ∈ row', t.Orderly := by
  refine parses.forall_mem (P := Tree.Orderly) (fun opening closing content arguments _ _ checked inner => ?_)
    (fun rule left here right fold other answer all => ?_) orderly
  · refine .mk (fun cs branch => ?_) (by simpa using inner)
    cases branch
    exact Rule.checkContent_ok checked
  · refine .mk (fun cs branch => ?_) fun c mem => ?_
    · have plain := Rule.isBranch_tree answer other
      rw [Node.isBranch, show fold.tree.node.branch? = some cs from branch] at plain
      cases plain
    · rcases Rule.mem_children_tree answer c mem with stood | ⟨name, rfl⟩
      · exact all c stood
      · exact .mk (by rintro _ ⟨⟩) (by simp)

theorem Row.orderly_leaves (ts : List Token) : ∀ t ∈ Row.leaves ts, t.Orderly := fun t mem => by
  obtain ⟨token, _, rfl⟩ := List.mem_map.mp mem
  exact .mk nofun nofun

/-- Between checked brackets no rule folds anything. -/
theorem Row.quiet_of_content {row : Row} (content : Rule.Content Tree.node row) : Row.Quiet row := by
  intro rule left here right split fold answer
  have between : Rule.Between Tree.node ⟨left, here, right⟩ := content.between split
  by_cases bracket : rule = .bracket
  · subst bracket
    obtain ⟨opening, _, _, _, shown, kind, _⟩ := Rule.applyBracket_fold answer
    cases between with
    | word isWord =>
      rcases isWord with isWord | isWord <;>
        obtain ⟨t, shown', kind'⟩ := Rule.leafIs_iff.mp isWord <;>
        cases shown.symm.trans shown' <;>
        cases kind.symm.trans kind'
    | item isItem =>
      dsimp only at isItem shown
      rw [Rule.isItem, Rule.isOperand, Rule.isNode, shown] at isItem
      cases isItem
  · cases (Rule.apply_of_between between (absurd · bracket)).symm.trans answer

/-- The only leaves between checked brackets are commas and `DISTINCT`. -/
theorem Row.leafKinds_of_content {row : Row} (content : Rule.Content Tree.node row) {kind : TokenKind}
    (mem : kind ∈ row.leafKinds) : kind ∈ [.comma, .distinctKw] := by
  obtain ⟨left, here, right, split, isKind⟩ := Row.mem_leafKinds.mp mem
  obtain ⟨t, shown, rfl⟩ := Rule.leafIs_iff.mp isKind
  have between : Rule.Between Tree.node ⟨left, here, right⟩ := content.between split
  cases between with
  | word isWord =>
    rcases isWord with isWord | isWord <;>
      obtain ⟨t', shown', kind'⟩ := Rule.leafIs_iff.mp isWord <;>
      cases shown.symm.trans shown' <;>
      simp [kind']
  | item isItem =>
    dsimp only at isItem
    rw [Rule.isItem, Rule.isOperand, Rule.isNode, shown] at isItem
    cases isItem

/-! ## Stores at rest -/

namespace Forest

variable {f g : Forest}

/-- No rule folds anything in a branch. -/
def QuietAt (f : Forest) (b : NodeRef) : Prop :=
  ∀ (rule : Rule) (left : List NodeRef) here right, (f.node b).branch? = some (left.reverse ++ here :: right) →
    ∀ fold, rule.apply f.node ⟨left, here, right⟩ ≠ .ok (some fold)

/-- What is quiet on trees is quiet in the store. -/
theorem Coherent.quietAt (h : f.Coherent) {b : NodeRef} {row : Row} (branch : (f.bare b).node.branch? = some row)
    (quiet : Row.Quiet row) : f.QuietAt b := by
  intro rule left here right shown fold answer
  rw [h.node_bare, Node.branch?_map, shown, Option.map_some, Option.some.injEq] at branch
  have onTrees := Folding.apply_bare h rule ⟨left, here, right⟩
  rw [answer] at onTrees
  exact quiet rule (left.map f.bare) (f.bare here) (right.map f.bare) (by simp [← branch]) _ onTrees

/-- In a store that is quiet below a branch a run over the branch only remembers fingerprints. -/
theorem remembers_of_quiet {rules : List Rule} {b : NodeRef}
    (quiet : ∀ r, f.Below b r → f.QuietAt r) (changes : Folding.Changes rules b f g) : Remembers f g := by
  induction changes with
  | refl => exact .refl f
  | tail earlier change ih =>
    cases change with
    | asked rem => exact ih.trans rem
    | folded _ below branch answer _ =>
      rw [ih.node_eq] at branch answer
      have same : (fun q c => c ∈ Forest.children _ q) = fun q c => c ∈ f.children q :=
        funext fun q => funext fun c => by rw [ih.children]
      rw [Below, same] at below
      exact absurd answer (quiet _ below _ _ _ _ branch _)

/-- The root and the branches that are reached from it through branches only. -/
inductive Level (f : Forest) : NodeRef → Prop
  | root : Level f root
  | branch {b c : NodeRef} : Level f b → c ∈ f.childList b → (f.node c).isBranch = true → Level f c

theorem Level.reachable {b : NodeRef} (level : f.Level b) : f.Below Forest.root b := by
  induction level with
  | root => exact .refl
  | branch _ listed _ ih => exact ih.tail (mem_children_of_mem_childList listed)

end Forest

namespace Folding

/-- The kinds of leaves that never stand in a branch of a parsed store. -/
def spentKinds : List TokenKind :=
  [.bracketOpen, .bracketClose, .stringLiteral, .numericLiteral, .nullKw, .preparedArgument, .star,
    .operator, .likeKw, .isKw, .inKw, .andKw, .orKw, .joinKw, .whereKw, .havingKw, .groupKw, .orderKw]

/-- `(1)`, read from left to right. -/
def oneBetweenBrackets : Script where
  source := "(1)"
  tokens := [⟨.bracketOpen, "(", ⟨0, 0⟩⟩, ⟨.numericLiteral, "1", ⟨0, 1⟩⟩, ⟨.bracketClose, ")", ⟨0, 2⟩⟩]

end Folding

end SqlFold
