import SqlFold.Proofs.Entailment

/-!
# Equations inside subqueries

The equations of a node come from the conditions in it (`Forest.Passes`), and a `SELECT` is no
condition: where it is listed by another node than the root, this node is a bracket
(`Dialect.Parsed.lists_select`). But a bracket around a single node stands for the node, and so a
bracket around a lone `SELECT` has the equations of the `SELECT`. This is the only way out of a
subquery (`Dialect.parse_subqueries`).
-/

namespace SqlFold

open Forest

namespace Forest

variable {f : Forest} {b r s c q : NodeRef} {e : Tree NodeRef}

/-- A node is the other or a condition of it, or of a condition of it, and so on. -/
def Passes (f : Forest) : NodeRef → NodeRef → Prop :=
  Relation.ReflTransGen fun q c => c ∈ (f.node q).conditions

/-- A condition of the tree under a node is the tree under a condition of the node. -/
theorem Coherent.exists_condition (h : f.Coherent) {t u : Bare} (shown : f.bare q = t) (passed : u ∈ t.node.conditions) :
    ∃ c ∈ (f.node q).conditions, f.bare c = u := by
  rw [← shown, h.node_bare, Node.conditions_map] at passed
  exact List.mem_map.mp passed

/-- The conditions of a node stand below it. -/
theorem Passes.below (passes : f.Passes r q) : f.Below r q := by
  induction passes with
  | refl => exact .refl
  | tail _ passed ih => exact ih.tail ((Tree.conditions_sublist _).subset passed)

/-- A bracket that holds a `SELECT` and nothing else. -/
structure HoldsQuery (f : Forest) (b s : NodeRef) : Prop where
  bracket : f.kind b = .bracket
  alone : f.children b = [s]
  query : f.kind s = .select

/-- The equations of a condition are passed on. -/
theorem Passes.equations (passes : f.Passes r q) (h : f.Coherent) : f.equations q ⊆ f.equations r := by
  induction passes with
  | refl => exact List.Subset.refl _
  | @tail q c _ passed ih =>
    refine List.Subset.trans (fun e listed => ?_) ih
    have other : (f.node q).isEquation f.kind = false := by
      generalize f.node q = n at passed
      cases n <;> first | rfl | cases passed
    rw [h.equations_node, other, if_neg (by simp)]
    exact List.mem_flatMap.mpr ⟨c, passed, listed⟩

/-- A bracket around a lone `SELECT` has the equations of the `SELECT`. -/
theorem HoldsQuery.equations (holds : f.HoldsQuery b s) (h : f.Coherent) : f.equations b = f.equations s := by
  obtain ⟨bracket, alone, -⟩ := holds
  rw [h.equations_node b]
  rw [kind] at bracket
  rw [children] at alone
  cases node : f.node b with
  | bracket p =>
    obtain ⟨opening, closing, items⟩ := p
    rw [node, Node.children_bracket] at alone
    cases alone
    simp [Node.isEquation, Node.conditions]
  | _ => rw [node] at bracket; cases bracket

/-- What is passed on by a branch is alone in a bracket. -/
theorem alone_of_condition (branch : (f.node q).isBranch = true) (passed : c ∈ (f.node q).conditions) :
    f.kind q = .bracket ∧ f.children q = [c] := by
  rw [kind, children]
  cases node : f.node q with
  | bracket p =>
    obtain ⟨opening, closing, items⟩ := p
    rw [node] at passed
    rcases items with _ | ⟨item, _ | _⟩
    · cases passed
    · obtain rfl := List.mem_singleton.mp passed
      exact ⟨rfl, by simp⟩
    · cases passed
  | root => rw [node] at passed; cases passed
  | _ => rw [node] at branch; cases branch

/-- Where only branches list `SELECT` statements, an equation inside a subquery comes through a bracket around the
subquery, and this bracket is a condition. -/
theorem Coherent.leaks (h : f.Coherent)
    (branches : ∀ q, f.Reached q → ∀ c ∈ f.children q, f.kind c = .select → (f.node q).isBranch = true)
    (reached : f.Reached r) (mem : e ∈ f.equations r) (query : f.kind s = .select) (below : f.Below r s) (ne : s ≠ r)
    (inside : f.Below s e.tag) : e ∈ f.equations s ∧ ∃ b, f.Passes r b ∧ f.HoldsQuery b s := by
  induction r using h.grounded.induction with
  | _ r ih =>
    rw [h.equations_node] at mem
    split at mem
    · obtain rfl := List.mem_singleton.mp mem
      rw [h.tag_tree] at inside
      exact absurd (h.not_above inside below) ne
    · obtain ⟨c, passed, listed⟩ := List.mem_flatMap.mp mem
      have child : c ∈ f.children r := (Tree.conditions_sublist _).subset passed
      -- The condition that has the equation is the sub-node that the subquery stands in.
      have down : f.Below c s := by
        rcases Relation.ReflTransGen.cases_head below with eq | ⟨d, hd, down⟩
        · exact absurd eq.symm ne
        · have above := (h.equations_below c e listed).1
          rwa [h.eq_of_below reached child hd above (down.trans inside)]
      by_cases here : s = c
      · subst here
        obtain ⟨bracket, alone⟩ := alone_of_condition (branches r reached s child query) passed
        exact ⟨listed, r, .refl, bracket, alone, query⟩
      · obtain ⟨own, b, passes, holds⟩ := ih c child (reached.child child) listed down here
        exact ⟨own, b, .head passed passes, holds⟩

end Forest

namespace Dialect

variable {vocabulary : Vocabulary} {limit : Nat} {source : String} {f : Forest} {r s : NodeRef} {e : Tree NodeRef}

/-- In a parsed text only branches list `SELECT` statements. -/
theorem Parsed.lists_select {script : Script} {row : Row} (h : Parsed vocabulary limit source f script row)
    {q c : NodeRef} (reached : f.Reached q) (listed : c ∈ f.children q) (query : f.kind c = .select) :
    (f.node q).isBranch = true := by
  rcases h.all_reached (fun t mem => (h.sound_row t mem).all) reached with rfl | layers
  · have isRoot := h.sound.root
    generalize f.node root = n at isRoot
    cases n <;> first | rfl | cases isRoot
  · obtain ⟨_, slots⟩ := layers.node
    rw [h.sound.coherent.node_bare, Node.slots_map] at slots
    by_contra plain
    have fills := slots.fillsSlot (Bool.eq_false_iff.mpr plain) (fun c => Rule.kind_of_assigns) c listed
    rw [Function.comp, Rule.glance, h.sound.coherent.node_bare, Node.kind_map, show (f.node c).kind = _ from query] at fills
    cases fills

/-- What lies in a `SELECT` strictly below a node of a parsed text is an equation of the node exactly if it is one of
the `SELECT`, and this stands alone in a bracket that is a condition of the node. -/
theorem parse_subqueries (ok : (Dialect.mk vocabulary (.standard limit)).parse source = .ok f)
    (reached : f.Reached r) (query : f.kind s = .select) (below : f.Below r s) (ne : s ≠ r)
    (inside : f.Below s e.tag) :
    e ∈ f.equations r ↔ e ∈ f.equations s ∧ ∃ b, f.Passes r b ∧ f.HoldsQuery b s := by
  obtain ⟨script, row, h⟩ := exists_parsed ok
  have coherent := h.sound.coherent
  constructor
  · intro mem
    exact coherent.leaks (fun q reached c => h.lists_select reached) reached mem query below ne inside
  · rintro ⟨own, b, passes, holds⟩
    exact passes.equations coherent (holds.equations coherent ▸ own)

/-- In `SELECT 1 WHERE (SELECT 2 WHERE a=b)` the second `SELECT` is a condition of the first one, and `a=b` is its
equation. -/
theorem exists_loneQuery : ∃ f r b s e, Dialect.standard.parse "SELECT 1 WHERE (SELECT 2 WHERE a=b)" = .ok f ∧
    f.Coherent ∧ f.Reached r ∧ f.Passes r b ∧ f.HoldsQuery b s ∧ e ∈ f.equations s ∧ f.Below r s ∧ s ≠ r := by
  have scanned : Script.ofText? .standard "SELECT 1 WHERE (SELECT 2 WHERE a=b)" =
      .ok ⟨"SELECT 1 WHERE (SELECT 2 WHERE a=b)",
        [⟨.selectKw, "SELECT", ⟨0, 0⟩⟩, ⟨.whitespace, " ", ⟨0, 6⟩⟩, ⟨.numericLiteral, "1", ⟨0, 7⟩⟩,
          ⟨.whitespace, " ", ⟨0, 8⟩⟩, ⟨.whereKw, "WHERE", ⟨0, 9⟩⟩, ⟨.whitespace, " ", ⟨0, 14⟩⟩,
          ⟨.bracketOpen, "(", ⟨0, 15⟩⟩, ⟨.selectKw, "SELECT", ⟨0, 16⟩⟩, ⟨.whitespace, " ", ⟨0, 22⟩⟩,
          ⟨.numericLiteral, "2", ⟨0, 23⟩⟩, ⟨.whitespace, " ", ⟨0, 24⟩⟩, ⟨.whereKw, "WHERE", ⟨0, 25⟩⟩,
          ⟨.whitespace, " ", ⟨0, 30⟩⟩, ⟨.symbol, "a", ⟨0, 31⟩⟩, ⟨.operator, "=", ⟨0, 32⟩⟩, ⟨.symbol, "b", ⟨0, 33⟩⟩,
          ⟨.bracketClose, ")", ⟨0, 34⟩⟩]⟩ := Script.ofText?_standard (by decide +kernel)
  let equation : Bare := .mk () (.operation ⟨.mk () (.column ⟨none, none, ⟨.symbol, "a", ⟨0, 31⟩⟩⟩),
    [⟨.operator, "=", ⟨0, 32⟩⟩], .mk () (.column ⟨none, none, ⟨.symbol, "b", ⟨0, 33⟩⟩⟩)⟩)
  let query (column : Nat) (literal : String) (condition : Bare) : Bare := .mk () (.select
    ⟨⟨.selectKw, "SELECT", ⟨0, column⟩⟩, none,
      [⟨.mk () (.literal ⟨none, ⟨.numericLiteral, literal, ⟨0, column + 7⟩⟩⟩), none⟩], none, [],
      some (.mk () (.whereClause ⟨⟨.whereKw, "WHERE", ⟨0, column + 9⟩⟩, condition⟩)), none, none, none⟩)
  let inner := query 16 "2" equation
  let outer := query 0 "1" (Row.span ⟨.bracketOpen, "(", ⟨0, 15⟩⟩ ⟨.bracketClose, ")", ⟨0, 34⟩⟩ [inner])
  have settled : Row.settle (.standard Folding.standardLimit) false 12 (Row.leaves
      [⟨.selectKw, "SELECT", ⟨0, 0⟩⟩, ⟨.numericLiteral, "1", ⟨0, 7⟩⟩, ⟨.whereKw, "WHERE", ⟨0, 9⟩⟩,
        ⟨.bracketOpen, "(", ⟨0, 15⟩⟩, ⟨.selectKw, "SELECT", ⟨0, 16⟩⟩, ⟨.numericLiteral, "2", ⟨0, 23⟩⟩,
        ⟨.whereKw, "WHERE", ⟨0, 25⟩⟩, ⟨.symbol, "a", ⟨0, 31⟩⟩, ⟨.operator, "=", ⟨0, 32⟩⟩, ⟨.symbol, "b", ⟨0, 33⟩⟩,
        ⟨.bracketClose, ")", ⟨0, 34⟩⟩]) = .ok () [outer] := by
    cbv
  obtain ⟨f, ok, parsed⟩ := parse_of_settle scanned settled
  have h := parsed.sound.coherent
  have kindOf {q : NodeRef} {t : Bare} (shown : f.bare q = t) : f.kind q = t.kind := shown ▸ (h.kind_bare q).symm
  obtain ⟨r, listed, shown⟩ := List.map_eq_singleton_iff.mp parsed.children_root
  have reached : f.Reached r := .child .root (listed ▸ List.mem_singleton_self r)
  obtain ⟨filter, first, shownFilter⟩ := h.exists_condition shown List.mem_cons_self
  obtain ⟨b, second, shownB⟩ := h.exists_condition shownFilter List.mem_cons_self
  obtain ⟨s, third, shownS⟩ := h.exists_condition shownB List.mem_cons_self
  obtain ⟨filter', fourth, shownFilter'⟩ := h.exists_condition shownS List.mem_cons_self
  obtain ⟨q, fifth, shownQ⟩ := h.exists_condition shownFilter' List.mem_cons_self
  have branch : (f.node b).isBranch = true := by
    have bracket := kindOf shownB
    rw [kind] at bracket
    generalize f.node b = n at bracket
    cases n <;> first | rfl | cases bracket
  obtain ⟨bracket, alone⟩ := alone_of_condition branch third
  have passes : f.Passes r b := .head first (.single second)
  have own : f.tree q ∈ f.equations q := by
    have isEquation : (f.node q).isEquation f.kind = true := by
      have kinds : f.kind = Tree.kind ∘ f.bare := funext fun c => kindOf rfl
      rw [kinds, ← Node.isEquation_map, ← h.node_bare, shownQ]
      rfl
    rw [h.equations_node, if_pos isEquation]
    exact List.mem_singleton_self _
  have inside : f.Passes s q := .head fourth (.single fifth)
  refine ⟨f, r, b, s, f.tree q, ok, h, reached, passes, ⟨bracket, alone, kindOf shownS⟩, inside.equations h own,
    passes.below.tail (alone ▸ List.mem_singleton_self s), fun same => ?_⟩
  have below : f.Below r b := passes.below
  rw [← same] at below
  exact Coherent.not_below_of_mem_children h.grounded (alone ▸ List.mem_singleton_self s) below

/-- The equation `a=b` of `SELECT 1 WHERE (SELECT 2 WHERE a=b)` lies in the subquery. -/
theorem parse_subqueries_leak : ∃ f r s e, Dialect.standard.parse "SELECT 1 WHERE (SELECT 2 WHERE a=b)" = .ok f ∧
    f.Reached r ∧ f.kind s = .select ∧ f.Below r s ∧ s ≠ r ∧ e ∈ f.equations r ∧ f.Below s e.tag := by
  obtain ⟨f, r, b, s, e, ok, h, reached, passes, holds, own, below, ne⟩ := exists_loneQuery
  refine ⟨f, r, s, e, ok, reached, holds.query, below, ne, ?_, (h.equations_below s e own).1⟩
  exact passes.equations h (holds.equations h ▸ own)

/-- In `SELECT 1 WHERE (SELECT 2 WHERE a=b)` the equation `a=b` comes through the brackets. -/
theorem parse_subqueries_lone : ∃ f r s e, Dialect.standard.parse "SELECT 1 WHERE (SELECT 2 WHERE a=b)" = .ok f ∧
    f.Reached r ∧ f.kind s = .select ∧ f.Below r s ∧ s ≠ r ∧ f.Below s e.tag ∧
      (e ∈ f.equations r ↔ e ∈ f.equations s ∧ ∃ b, f.Passes r b ∧ f.HoldsQuery b s) := by
  obtain ⟨f, r, b, s, e, ok, h, reached, passes, holds, own, below, ne⟩ := exists_loneQuery
  have inside := (h.equations_below s e own).1
  exact ⟨f, r, s, e, ok, reached, holds.query, below, ne, inside,
    parse_subqueries ok reached holds.query below ne inside⟩

end Dialect

end SqlFold
