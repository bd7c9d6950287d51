import SqlFold.Proofs.Hashes
import SqlFold.Proofs.Merging.Basic

/-!
# A merge adds the other clause and nothing else

After a merge the slot of the first clause holds the merged one: for `WHERE` and `HAVING` the
conjunction of the first condition and a copy of the second, for `GROUP BY` the list of the first
clause and copies of the other expressions. Every node that was reached is as before, but for the first
clause and those above it (`Forest.Adds`).

This holds of sound stores (`Forest.Sound.merge_adds`), so of what has been parsed and edited since then
(`Dialect.parse_merge_adds`).
-/

namespace SqlFold

open Forest

/-- The equations of a clause that joins two others are those of both. -/
theorem Tree.Joins.equations {old other new : Bare} (joins : Joins old other new) :
    new.equations = old.equations ++ other.equations := by
  have both (place : Text.Position) (a b : Bare) :
      (both ⟨.andKw, "AND", place⟩ a b).equations = a.equations ++ b.equations := by
    rw [Tree.both, equations_of_conditions rfl]
    simp [Node.conditions, Conjunction.allAnd, Conjunction.parts, Junct.wordKind?]
  cases joins with
  | filter a b place =>
    rw [equations_of_conditions rfl, equations_of_conditions rfl, equations_of_conditions rfl]
    simp [Node.conditions, both]
  | having a b place =>
    rw [equations_of_conditions rfl, equations_of_conditions rfl, equations_of_conditions rfl]
    simp [Node.conditions, both]
  | grouping a b =>
    rw [equations_of_conditions rfl, equations_of_conditions rfl, equations_of_conditions rfl]
    rfl

namespace Forest

variable {f g k : Forest} {r this other p merged : NodeRef}

theorem Joined.kind {n m c : Node NodeRef} (joined : Joined f k other n m c) : c.kind = n.kind := by
  cases joined <;> rfl

/-- The sub-nodes of the first clause stand below the merged one. -/
theorem Joined.below {n m : Node NodeRef} {c : NodeRef} (joined : Joined f k other n m (k.node merged))
    (listed : c ∈ n.children) : k.Below merged c := by
  have child {q d : NodeRef} (mem : d ∈ (k.node q).children) : k.Below q d := .single mem
  have first {a b both : NodeRef} (conjoined : Conjoined f k other a b both) : k.Below both a := by
    obtain ⟨_, copy, _, conjunction⟩ := conjoined
    exact child (by rw [conjunction]; simp [Conjunction.parts])
  generalize node : k.node merged = new at joined
  cases joined with
  | @filter a b both conjoined =>
    obtain rfl : c = a.expression := by simpa using listed
    exact (child (by rw [node]; simp)).trans (first conjoined)
  | @having a b both conjoined =>
    obtain rfl : c = a.expression := by simpa using listed
    exact (child (by rw [node]; simp)).trans (first conjoined)
  | grouping _ _ =>
    rw [Node.children_groupBy] at listed
    exact child (by rw [node, Node.children_groupBy]; exact List.mem_append_left _ listed)

namespace Installed

variable (installed : Installed f k this other p merged) (h : f.Coherent)

include installed h

theorem node_slot : k.node p = (f.node p).map fun r => if r = this then merged else r := by
  rw [installed.node p (h.lt_size installed.above), if_pos rfl]

/-- The slot is reached. -/
theorem reached_slot : k.Reached p ∧ merged ∈ k.children p := by
  refine ⟨installed.graft.reached_of_not_below h installed.above fun _ => rfl, ?_⟩
  rw [children, installed.node_slot h, Node.children_map]
  exact List.mem_map.mpr ⟨this, installed.listed, if_pos rfl⟩

/-- Only the first clause is no longer reached. -/
theorem reached (reached : f.Reached r) (ne : r ≠ this) : k.Reached r := by
  obtain ⟨above, slot⟩ := installed.reached_slot h
  obtain ⟨path, walk⟩ := reached
  induction walk with
  | root => exact .root
  | @step path i q c walk hi ih =>
    have listed := List.mem_of_getElem? hi
    by_cases clause : q = this
    · -- What the first clause listed is reached through the merged one.
      subst clause
      exact (above.child slot).below (installed.clause.below listed)
    · refine (ih clause).child ?_
      rw [children, installed.node q (h.lt_size ⟨_, walk⟩)]
      split
      · next here =>
        subst here
        rw [Node.children_map]
        exact List.mem_map.mpr ⟨c, listed, if_neg ne⟩
      · exact listed

/-- The tree under a node stays if the first clause is not in it. -/
theorem tree_eq (reached : f.Reached r) (ne : r ≠ this) (beside : r ∉ f.ancestors this) : k.tree r = f.tree r := by
  refine installed.graft.tree_eq h (h.lt_size reached) fun below => ?_
  rcases h.mem_ancestors reached (below.tail installed.listed) with here | above
  · exact ne here.symm
  · exact beside above

end Installed

/-- The store `k` after a merge of the clause `other` into `this`, with the merged clause at `merged`, beside the store
`f` before it. -/
structure Adds (f k : Forest) (this other merged : NodeRef) : Prop where
  /-- The merged clause stands where the first one stood. -/
  slot : k.Reached merged ∧ ∃ p, f.parent? this = some p ∧ k.parent? merged = some p ∧
    k.node p = (f.node p).map fun r => if r = this then merged else r
  /-- It is made of the first clause and a copy of the second. -/
  clause : Joined f k other (f.node this) (f.node other) (k.node merged)
  equations : (k.equations merged).map Tree.render =
    (f.equations this).map Tree.render ++ (f.equations other).map Tree.render
  /-- What does not contain the first clause stays. -/
  kept : ∀ r, f.Reached r → r ≠ this → r ∉ f.ancestors this →
    k.Reached r ∧ k.render r = f.render r ∧ k.outline r = f.outline r ∧
      ∀ H, ∃ x f' k', f.hash H r = .ok x f' ∧ k.hash H r = .ok x k'

/-- A merge of two clauses of one kind that are reached adds the second one. -/
theorem Sound.merge_adds (h : f.Sound) (reached : f.Reached this) (mergeable : (f.kind this).isMergeable = true)
    (same : f.kind other = f.kind this) :
    ∃ merged k, f.merge this other = .ok merged k ∧ Adds f k this other merged := by
  obtain ⟨merged, k, run⟩ := h.merge_ok reached mergeable same
  obtain ⟨p, installed⟩ := h.merge_installed reached run
  obtain ⟨sound, joins, -⟩ := h.merge_joins reached run
  obtain ⟨above, slot⟩ := installed.reached_slot h.coherent
  refine ⟨merged, k, run, ⟨above.child slot, p, h.coherent.link installed.above installed.listed,
    sound.coherent.link above slot, installed.node_slot h.coherent⟩, installed.clause, ?_, fun r reached ne beside => ?_⟩
  · rw [render_equations, render_equations, render_equations, joins.equations, List.map_append]
  · have stays := installed.reached h.coherent reached ne
    have tree := installed.tree_eq h.coherent reached ne beside
    refine ⟨stays, by rw [render, tree, render], by rw [outline, tree, outline], fun H => ?_⟩
    obtain ⟨f', asked⟩ := (h.coherent.grounded_node r).hash_tree H (h.coherent.recalls reached)
    obtain ⟨k', asked'⟩ := (sound.coherent.grounded_node r).hash_tree H (sound.coherent.recalls stays)
    exact ⟨_, f', k', asked, tree ▸ asked'⟩

/-- Stores that differ by actions on what is reached, merges among them. -/
inductive Continues : Forest → Forest → Prop
  | refl (f : Forest) : Continues f f
  | step {f g : Forest} (action : Action) : Continues f g → action.Allowed g → Continues f (action.perform g)

theorem Continues.sound (later : Continues f g) (h : f.Sound) : g.Sound := by
  induction later with
  | refl => exact h
  | step action _ allowed ih => exact ih.perform allowed

end Forest

namespace Dialect

variable {vocabulary : Vocabulary} {limit : Nat} {source : String} {f g : Forest} {this other : NodeRef}

/-- In what has been parsed, and edited since then, two clauses of one kind can be merged, which adds the second one to
the first. -/
theorem parse_merge_adds (ok : (Dialect.mk vocabulary (.standard limit)).parse source = .ok f) (later : Continues f g)
    (reached : g.Reached this) (mergeable : (g.kind this).isMergeable = true) (same : g.kind other = g.kind this) :
    ∃ merged k, g.merge this other = .ok merged k ∧ Adds g k this other merged := by
  obtain ⟨script, row, parsed⟩ := exists_parsed ok
  exact (later.sound parsed.sound).merge_adds reached mergeable same

/-- After the clause of `where a=1` has been merged with itself, the merged clause can be merged with itself. -/
theorem parse_merge_adds_twice : ∃ f g this, Dialect.standard.parse "where a=1" = .ok f ∧ Continues f g ∧
    g.Reached this ∧ (g.kind this).isMergeable = true ∧
      ∃ merged k, g.merge this this = .ok merged k ∧ Adds g k this this merged := by
  have scanned : Script.ofText? .standard "where a=1" = .ok ⟨"where a=1",
      [⟨.whereKw, "where", ⟨0, 0⟩⟩, ⟨.whitespace, " ", ⟨0, 5⟩⟩, ⟨.symbol, "a", ⟨0, 6⟩⟩, ⟨.operator, "=", ⟨0, 7⟩⟩,
        ⟨.numericLiteral, "1", ⟨0, 8⟩⟩]⟩ := Script.ofText?_standard (by decide +kernel)
  let filter : Bare := .mk () (.whereClause ⟨⟨.whereKw, "where", ⟨0, 0⟩⟩, .mk () (.operation
    ⟨.mk () (.column ⟨none, none, ⟨.symbol, "a", ⟨0, 6⟩⟩⟩), [⟨.operator, "=", ⟨0, 7⟩⟩],
      .mk () (.literal ⟨none, ⟨.numericLiteral, "1", ⟨0, 8⟩⟩⟩)⟩)⟩)
  have settled : Row.settle (.standard Folding.standardLimit) false 5 (Row.leaves
      [⟨.whereKw, "where", ⟨0, 0⟩⟩, ⟨.symbol, "a", ⟨0, 6⟩⟩, ⟨.operator, "=", ⟨0, 7⟩⟩,
        ⟨.numericLiteral, "1", ⟨0, 8⟩⟩]) = .ok () [filter] := by
    cbv
  obtain ⟨f, ok, h⟩ := parse_of_settle scanned settled
  obtain ⟨this, listed, shown⟩ := List.map_eq_singleton_iff.mp h.children_root
  have reached : f.Reached this := Reached.root.child (by rw [listed]; exact List.mem_cons_self)
  have mergeable : (f.kind this).isMergeable = true := by
    rw [kind, ← Node.kind_map f.bare, ← h.sound.coherent.node_bare, shown]
    rfl
  obtain ⟨merged, g, run, adds⟩ := parse_merge_adds ok (.refl f) reached mergeable rfl
  have later : Continues f g := by
    have step := (Continues.refl f).step (.merge this this) ⟨reached, reached⟩
    rwa [Action.perform, run] at step
  have mergeable' : (g.kind merged).isMergeable = true := by
    rw [kind, adds.clause.kind]
    exact mergeable
  exact ⟨f, g, merged, ok, later, adds.slot.1, mergeable', parse_merge_adds ok later adds.slot.1 mergeable' rfl⟩

end Dialect

end SqlFold
