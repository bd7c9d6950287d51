import SqlFold.Forest.Text
import SqlFold.Proofs.Store.Regions

/-!
# Trees without references

`Forest.bare f r` is the tree under a node without the references: what can be said of a statement
without naming records. `Folded.bare_branch` says what a fold makes of the tree of its branch, and
`Confined.bare_congr` how a change of one tree shows in those above it.
-/

namespace SqlFold

variable {ι α : Type}

/-- A tree without references. -/
abbrev Bare : Type := Tree Unit

theorem Node.map_withBranch {β : Type} (g : α → β) (n : Node α) (cs : List α) :
    (n.withBranch cs).map g = (n.map g).withBranch (cs.map g) := by
  cases n <;> rfl

namespace Tree

/-- The tree without its tags. -/
def bare (t : Tree ι) : Bare := t.translate id fun _ => ()

theorem bare_mk (tag : ι) (n : Node (Tree ι)) : (mk tag n).bare = .mk () (n.map bare) := by
  rw [bare, translate_mk, Node.mapTokens_id]
  rfl

@[simp] theorem node_bare (t : Tree ι) : t.bare.node = t.node.map bare := by
  cases t
  rw [bare_mk]
  rfl

@[simp] theorem kind_bare (t : Tree ι) : t.bare.kind = t.kind := kind_translate ..

/-- The place of a tree does not depend on its tags. -/
theorem position_bare (t : Tree ι) : t.bare.position = t.position := position_translate_id ..

/-- The fingerprint of a tree does not depend on its tags. -/
theorem fingerprint_bare (t : Tree ι) : t.bare.fingerprint = t.fingerprint :=
  KeepsLooks.refl.fingerprint_translate ..

/-- What a tree spells does not depend on its tags. -/
theorem spells_bare {t : Tree ι} {ts : List Token} : t.bare.Spells ts ↔ t.Spells ts :=
  spells_translate_id

end Tree

/-- The tree that a sub-node of a folded node stands for. -/
def Origin.bare (below : α → Bare) : Origin α → Bare
  | .sibling a => below a
  | .newTable name => .mk () (.table name)

/-- The trees of a branch after a fold. -/
def Fold.bare (below : α → Bare) (fold : Fold α) : List Bare :=
  fold.left.reverse.map below ++ .mk () (fold.node.map (Origin.bare below)) :: fold.right.map below

namespace Forest

variable {f g : Forest} {b c r : NodeRef}

/-- The tree under a node without references. -/
def bare (f : Forest) (r : NodeRef) : Bare := (f.tree r).bare

theorem Coherent.bare_eq (h : f.Coherent) (r : NodeRef) : f.bare r = .mk () ((f.node r).map f.bare) := by
  rw [bare, h.tree_eq, Tree.bare_mk, Node.map_map]
  rfl

@[simp] theorem Coherent.node_bare (h : f.Coherent) (r : NodeRef) :
    (f.bare r).node = (f.node r).map f.bare := by
  rw [h.bare_eq]
  rfl

/-- The tree under a node has its kind. -/
theorem Coherent.kind_bare (h : f.Coherent) (r : NodeRef) : (f.bare r).kind = f.kind r := by
  rw [bare, Tree.kind_bare, h.kind_tree]

/-- A sub-tree of the tree under a node is the tree under a sub-node. -/
theorem Coherent.exists_child (h : f.Coherent) {t u : Bare} (shown : f.bare r = t) (mem : u ∈ t.node.children) :
    ∃ c ∈ f.children r, f.bare c = u := by
  rw [← shown, h.node_bare, Node.children_map] at mem
  exact List.mem_map.mp mem

/-- The place of a node is that of its tree. -/
theorem position_bare (f : Forest) (r : NodeRef) : (f.bare r).position = f.position r := by
  rw [bare, Tree.position_bare, position_eq]

/-- A node is written as the tree that is read there. -/
theorem render_bare (f : Forest) (r : NodeRef) : (f.bare r).render = f.render r :=
  KeepsLooks.refl.render_translate (fun _ => ()) (f.tree r)

/-- The outline of a node is that of the tree that is read there. -/
theorem outline_bare (f : Forest) (r : NodeRef) : (f.bare r).outline = f.outline r :=
  Tree.outline_translate id (fun _ => ()) (f.tree r)

theorem Remembers.bare (rem : Remembers f g) : g.bare = f.bare := by
  funext r
  rw [Forest.bare, rem.tree, Forest.bare]

namespace Folded

variable {fold : Fold NodeRef} {new : NodeRef} (folded : Folded f g b fold new) (h : f.Coherent)

include folded h

/-- The tree of the new node, where the siblings that it takes are children of the branch. -/
theorem bare_new (taken : ∀ a, .sibling a ∈ fold.node.children → a ∈ f.children b) :
    g.bare new = .mk () (fold.node.map (Origin.bare f.bare)) := by
  have coherent := (folded.confined h).coherent
  have taken' : ∀ o ∈ fold.node.children, ∀ a, o = .sibling a → a ∈ f.children b := by
    rintro o mem a rfl
    exact taken a mem
  rw [coherent.bare_eq]
  congr 1
  refine (Node.map_eq_map_of_forall₂ folded.shape.symm ?_).symm
  have each := (List.forall₂_and_left _ _).mpr ⟨taken', folded.placed⟩
  refine each.imp fun o r ⟨mem, placed⟩ => ?_
  cases placed with
  | sibling => exact (congrArg Tree.bare (folded.tree_of_mem_children h (mem r rfl))).symm
  | table _ _ node => rw [coherent.bare_eq, node]; rfl

/-- The tree of the branch after the fold. -/
theorem bare_branch {back ahead : List NodeRef} {focus : Focus NodeRef}
    (branch : (f.node b).branch? = some (focus.left.reverse ++ focus.here :: focus.right))
    (covers : Rule.Covers f.node focus fold back ahead) :
    (g.node b).branch? = some (fold.left.reverse ++ new :: fold.right) ∧
      (fold.left.reverse ++ new :: fold.right).map g.bare = fold.bare f.bare ∧
        g.bare b = .mk () (((f.node b).map f.bare).withBranch (fold.bare f.bare)) := by
  have isBranch : (f.node b).isBranch = true := by rw [Node.isBranch, branch]; rfl
  have children : f.children b = focus.left.reverse ++ focus.here :: focus.right :=
    Node.children_of_branch? branch
  have same : ∀ c ∈ f.children b, g.bare c = f.bare c := fun c hc =>
    congrArg Tree.bare (folded.tree_of_mem_children h hc)
  have newTree : g.bare new = .mk () (fold.node.map (Origin.bare f.bare)) := by
    refine folded.bare_new h fun a ha => ?_
    rw [children, covers.row]
    refine List.mem_append_left _ (List.mem_append_right _ (covers.siblings_sublist.subset ?_))
    exact List.mem_filterMap.mpr ⟨_, ha, rfl⟩
  have trees : (fold.left.reverse ++ new :: fold.right).map g.bare = fold.bare f.bare := by
    rw [List.map_append, List.map_cons, Fold.bare, newTree]
    congr 1
    · refine List.map_congr_left fun c hc => same c ?_
      rw [children, covers.row]
      exact List.mem_append_left _ (List.mem_append_left _ hc)
    · congr 1
      refine List.map_congr_left fun c hc => same c ?_
      rw [children, covers.row]
      exact List.mem_append_right _ hc
  refine ⟨folded.branch? isBranch, trees, ?_⟩
  rw [(folded.confined h).coherent.bare_eq, folded.branch, Node.map_withBranch, trees, Node.map_congr same]

end Folded

end Forest

end SqlFold
