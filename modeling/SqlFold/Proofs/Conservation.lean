import SqlFold.Proofs.Engine.Changes
import SqlFold.Proofs.Store.Bare
import SqlFold.Proofs.Store.Scripts

/-!
# No token is lost

A fold puts a node in the place of siblings that the node is written with, so what the branch spells
is spelled by the new node too (`Rule.Covers.spells`). Hence a run over the store of a script leaves
a tree that spells the tokens of the script, whatever the rules, their order, the limit on sweeps and
the result are (`Folding.run_conserves`). The tokens in the tree are those of the script, in order and
each at most once; `Tree.Spells` says which ones are not there: points in names, commas of lists and
the word `AS`.
-/

namespace SqlFold

open Forest Folding

variable {α : Type} {f g : Forest} {b r : NodeRef} {us : List Token}

/-! ## One fold -/

/-- A list of trees spells what the trees spell, one after the other. -/
def SpellAll (below : α → Bare) (cs : List α) (us : List Token) : Prop :=
  Spelled (fun c ts => (below c).Spells ts) (cs.map .child) us

theorem spellAll_append {below : α → Bare} {cs ds : List α} :
    SpellAll below (cs ++ ds) us ↔
      ∃ vs ws, us = vs ++ ws ∧ SpellAll below cs vs ∧ SpellAll below ds ws := by
  rw [SpellAll, List.map_append, spelled_append]
  rfl

theorem spellAll_map {below : α → Bare} {cs : List α} :
    SpellAll id (cs.map below) us ↔ SpellAll below cs us := by
  rw [SpellAll, SpellAll, show (cs.map below).map Piece.child =
    (cs.map Piece.child).map (Piece.map below) by simp, spelled_map]
  rfl

/-- A leaf spells its token. -/
theorem spells_leaf {t : Token} : (Tree.mk () (.leaf t)).Spells us ↔ us = [t] := by
  rw [Tree.spells_mk]
  constructor
  · rintro ⟨_, ⟨⟩, rest, rfl, rfl⟩
    rfl
  · rintro rfl
    exact ⟨_, .leaf t, [], rfl, rfl⟩

/-- A column without qualifiers spells its name. -/
theorem spells_bareColumn {t : Token} (h : (Tree.mk () (.column ⟨none, none, t⟩)).Spells us) :
    us = [t] := by
  obtain ⟨_, ⟨⟩ | ⟨names⟩, spelled⟩ := Tree.spells_mk.mp h
  cases names with
  | single =>
    obtain ⟨rest, rfl, rfl⟩ := spelled
    rfl
  | cons _ rest => cases rest

/-- A column name that becomes a table spells the same. -/
theorem spells_table {s : Option Token} {n : Token}
    (h : (Tree.mk () (.column ⟨none, s, n⟩)).Spells us) :
    (Tree.mk () (.table ⟨s, n⟩)).Spells us := by
  obtain ⟨ps, ⟨⟩ | ⟨names⟩, spelled⟩ := Tree.spells_mk.mp h
  exact Tree.spells_mk.mpr ⟨ps, .table names, spelled⟩

namespace Rule

variable {view : α → Node α} {below : α → Bare}
  (layer : ∀ a, below a = .mk () ((view a).map below))

include layer

/-- Siblings spell what the pieces spell that they are made into. -/
theorem MatchesAll.spells {ps : List (Piece (Origin α))} {as : List α} (h : MatchesAll view ps as)
    (spelled : SpellAll below as us) :
    Spelled (fun o ts => (Origin.bare below o).Spells ts) ps us := by
  induction h generalizing us with
  | nil => exact spelled
  | @cons p a ps as first _ ih =>
    obtain ⟨front, rest, rfl, here, later⟩ := spelled
    have later := ih later
    cases first with
    | leaf hv =>
      rw [layer, hv] at here
      obtain rfl := spells_leaf.mp here
      exact ⟨rest, rfl, later⟩
    | name hv =>
      rw [layer, hv] at here
      obtain rfl := spells_bareColumn here
      exact ⟨rest, rfl, later⟩
    | sibling => exact ⟨front, rest, rfl, here, later⟩
    | table hv =>
      rw [layer, hv] at here
      exact ⟨front, rest, rfl, spells_table here, later⟩

/-- After a fold the branch spells what it spelled before. -/
theorem Covers.spells {focus : Focus α} {fold : Fold α} {back ahead : List α}
    (covers : Covers view focus fold back ahead)
    (spelled : SpellAll below (focus.left.reverse ++ focus.here :: focus.right) us) :
    SpellAll id (fold.bare below) us := by
  have split : focus.left.reverse ++ focus.here :: focus.right =
      fold.left.reverse ++ ((back.reverse ++ focus.here :: ahead) ++ fold.right) := by
    rw [covers.left, covers.right]
    simp
  obtain ⟨ps, written, matched⟩ := covers.written
  rw [split] at spelled
  obtain ⟨before, rest, rfl, left, rest⟩ := spellAll_append.mp spelled
  obtain ⟨taken, after, rfl, middle, right⟩ := spellAll_append.mp rest
  have new : (Tree.mk () (fold.node.map (Origin.bare below))).Spells taken :=
    Tree.spells_mk.mpr ⟨_, written.map _, spelled_map.mpr (matched.spells layer middle)⟩
  rw [Fold.bare]
  exact spellAll_append.mpr ⟨before, taken ++ after, rfl, spellAll_map.mpr left,
    taken, after, rfl, new, spellAll_map.mpr right⟩

end Rule

/-! ## Stores -/

/-- A branch spells its children between its own tokens. -/
theorem spells_withBranch {n : Node Bare} {cs ds : List Bare} (branch : n.branch? = some cs)
    (each : ∀ ts, SpellAll id cs ts → SpellAll id ds ts) (h : (Tree.mk () n).Spells us) :
    (Tree.mk () (n.withBranch ds)).Spells us := by
  obtain ⟨ps, written, spelled⟩ := Tree.spells_mk.mp h
  cases written with
  | bracket p =>
    cases branch
    obtain ⟨_, rfl, rest⟩ := spelled
    obtain ⟨front, back, rfl, inner, last⟩ := spelled_append.mp rest
    refine Tree.spells_mk.mpr ⟨_, .bracket _, _, rfl, ?_⟩
    exact spelled_append.mpr ⟨front, back, rfl, each front inner, last⟩
  | root children =>
    cases branch
    exact Tree.spells_mk.mpr ⟨_, .root _, each us spelled⟩
  | _ => cases branch

/-- What is spelled in one place is spelled above it. -/
theorem Forest.Confined.spells (con : Confined f g b) (h : f.Coherent)
    (site : ∀ ts, (f.bare b).Spells ts → (g.bare b).Spells ts) (reached : f.Reached r)
    (outside : f.Below b r → r = b) (spelled : (f.bare r).Spells us) : (g.bare r).Spells us := by
  induction r using h.grounded.induction generalizing us with
  | _ r ih =>
    by_cases below : f.Below b r
    · obtain rfl := outside below
      exact site us spelled
    · rw [con.coherent.bare_eq, (con.node reached below).2]
      rw [h.bare_eq] at spelled
      refine spelled.of_map fun c hc us hus => ih c hc (reached.child hc) (fun belowC => ?_) hus
      exact (h.below_of_mem_children con.origin reached hc belowC).resolve_right below

/-- A change of a run keeps what the root spells. -/
theorem Folding.Change.spells {rules : List Rule} (change : Change rules b f g) (ready : Ready f b)
    (spelled : (f.bare Forest.root).Spells us) : (g.bare Forest.root).Spells us := by
  cases change with
  | asked rem => rwa [rem.bare]
  | @folded rule q focus fold _ _ below branch answer run =>
    obtain ⟨new, back, ahead, covers, folded⟩ := ready.folded below branch answer run
    have h := ready.coherent
    have reached := ready.reached.below below
    refine (folded.confined h).spells h (fun ts hts => ?_) .root (fun above => ?_) spelled
    · obtain ⟨_, _, after⟩ := folded.bare_branch h branch covers
      rw [h.bare_eq] at hts
      rw [after]
      have before : ((f.node q).map f.bare).branch? =
          some ((focus.left.reverse ++ focus.here :: focus.right).map f.bare) := by
        rw [Node.branch?_map, branch]
        rfl
      refine spells_withBranch before (fun us hus => ?_) hts
      exact covers.spells h.bare_eq (spellAll_map.mp hus)
    · exact (h.eq_root_of_below reached above).symm

/-- The store of a script spells its tokens. -/
theorem Forest.spells_ofScript (script : Script) :
    ((ofScript script).bare Forest.root).Spells script.significant := by
  have row := leafRow_ofScript script
  have h := row.coherent
  rw [h.bare_eq, row.root]
  refine Tree.spells_mk.mpr ⟨_, .root _, ?_⟩
  have leaves := row.forall₂_leaves
  generalize firstRefs script.significant.length = rs at leaves
  generalize script.significant = ts at leaves
  induction leaves with
  | nil => rfl
  | @cons r t rs ts leaf _ ih =>
    refine ⟨[t], ts, rfl, ?_, ih⟩
    rw [h.bare_eq, leaf]
    exact spells_leaf.mpr rfl

/-- The tree that a run over a script leaves spells the tokens of the script that the grammar sees. -/
theorem Folding.runWith_spells (folding : Folding) (notesCalls : Bool) (script : Script) :
    ((folding.runWith notesCalls Forest.root (ofScript script)).forest.bare Forest.root).Spells script.significant := by
  have row := leafRow_ofScript script
  have ready : Ready (ofScript script) Forest.root :=
    ⟨row.coherent, rfl, .root, by rw [row.root]; rfl⟩
  have kept {g : Forest} (changes : Changes folding.rules Forest.root (ofScript script) g) :
      (g.bare Forest.root).Spells script.significant := by
    induction changes with
    | refl => exact spells_ofScript script
    | tail earlier change ih => exact change.spells (Changes.ready earlier ready) ih
  exact kept (runWith_changes folding notesCalls ready)

/-- The tree that a run over a script leaves spells the tokens of the script that the grammar sees,
and its own tokens are among them, in the same order and each at most once. -/
theorem Folding.run_conserves (folding : Folding) (notesCalls : Bool) (script : Script) :
    let tree := (folding.runWith notesCalls Forest.root (ofScript script)).forest.tree Forest.root
    tree.Spells script.significant ∧ tree.tokens.Sublist script.significant := by
  intro tree
  have spelled : tree.Spells script.significant := Tree.spells_bare.mp (runWith_spells folding notesCalls script)
  exact ⟨spelled, Tree.tokens_sublist spelled⟩

end SqlFold
