import SqlFold.Proofs.Store.Remembering
import SqlFold.Proofs.Store.Splicing

/-!
# What a change leaves alone

A fold at a branch changes this branch and makes new nodes, and so does every further fold at a
branch below. `Confined f g b` says what all these changes leave alone: whatever does not stand
below `b` is still reached and is the same node. Changes inside a region compose
(`Confined.trans`), and a tree beside the region stays as it is (`Confined.tree_eq`).

A fold takes at least one leaf and makes none, so it changes the fingerprint of its branch
(`Folded.fingerprint_ne`).
-/

namespace SqlFold

/-! ## Leaves in fingerprints -/

/-- The number of leaves right below a node with the given sketch. -/
def Sketch.leafCount : Sketch → Nat
  | .stop => 0
  | .detail _ rest => rest.leafCount
  | .child kind _ rest => (if kind = .tokenLeaf then 1 else 0) + rest.leafCount

/-- The sub-nodes of a sketched list of parts are counted. -/
theorem Fingerprint.leafCount_sketch (ps : List (Part Fingerprint)) :
    (sketch ps).leafCount = (ps.filterMap Part.child?).countP fun p => p.kind = .tokenLeaf := by
  induction ps with
  | nil => rfl
  | cons p ps ih =>
    cases p with
    | token t => exact ih
    | child c =>
      simp only [sketch, Sketch.leafCount, Part.child?, List.filterMap_cons, List.countP_cons, ih,
        decide_eq_true_eq]
      omega
    | absent => exact ih
    | mark b => exact ih

/-- The fingerprint of a tree tells how many leaves stand right below its top. -/
theorem Tree.leafCount_fingerprint {ι : Type} (tag : ι) (n : Node (Tree ι)) :
    (Tree.mk tag n).fingerprint.parts.leafCount = n.children.countP fun t => t.kind = .tokenLeaf := by
  rw [fingerprint_mk, Fingerprint.layer, Fingerprint.leafCount_sketch]
  show (n.map Tree.fingerprint).children.countP _ = _
  rw [Node.children_map, List.countP_map]
  refine List.countP_congr fun t _ => ?_
  cases t with
  | mk tag n =>
    simp only [Function.comp, fingerprint_mk, Fingerprint.layer, Node.kind_map, Tree.kind, Tree.node]
    exact Iff.rfl

/-- The kind of a layer is seen in its shape. -/
theorem Node.kind_of_shape {α β : Type} {n : Node α} {m : Node β} (h : n.shape = m.shape) :
    n.kind = m.kind := by
  have := congrArg Node.kind h
  rwa [Node.shape, Node.shape, Node.kind_map, Node.kind_map] at this

namespace Forest

variable {f g k : Forest} {b c q r s : NodeRef}

/-- A sub-node that stands below a node is this node, or stands there with the node that lists it. -/
theorem Coherent.below_of_mem_children (h : f.Coherent) (site : f.Reached b) (reached : f.Reached q)
    (hc : c ∈ f.children q) (below : f.Below b c) : c = b ∨ f.Below b q := by
  rcases Relation.ReflTransGen.cases_tail below with eq | ⟨q', above, hc'⟩
  · exact .inl eq
  · have link := h.link (site.below above) hc'
    obtain rfl : q' = q := Option.some.inj (link.symm.trans (h.link reached hc))
    exact .inr above

/-- Only the root stands above the root. -/
theorem Coherent.eq_root_of_below (h : f.Coherent) (site : f.Reached b)
    (below : f.Below b Forest.root) : b = Forest.root := by
  rcases Relation.ReflTransGen.cases_tail below with eq | ⟨q, above, hc⟩
  · exact eq.symm
  · exact absurd rfl (h.root_ne_of_mem_children (site.below above) hc)

/-- The store `g` is `f`, changed at the branch `b` and below it only. -/
structure Confined (f g : Forest) (b : NodeRef) : Prop where
  coherent : g.Coherent
  size : f.size ≤ g.size
  stage : g.stage = f.stage
  source : g.source = f.source
  /-- The branch is reached before and after. -/
  origin : f.Reached b
  site : g.Reached b
  /-- Nodes outside stay. -/
  node : ∀ {r}, f.Reached r → ¬f.Below b r → g.Reached r ∧ g.node r = f.node r
  /-- What stands below stood below, or is new. -/
  below : ∀ {r}, g.Below b r → f.Below b r ∨ f.size ≤ r.index
  /-- What is reached outside was reached outside. -/
  outside : ∀ {r}, g.Reached r → g.Below b r ∨ f.Reached r ∧ ¬f.Below b r
  /-- The branch stays the branch that it was, with other children. -/
  branch : ∃ cs, g.node b = (f.node b).withBranch cs

namespace Confined

/-- Nothing is changed. -/
theorem refl (h : f.Coherent) (site : f.Reached b) (branch : (f.node b).isBranch = true) :
    Confined f f b where
  coherent := h
  size := Nat.le_refl _
  stage := rfl
  source := rfl
  origin := site
  site := site
  node reached _ := ⟨reached, rfl⟩
  below := .inl
  outside {r} reached := by
    by_cases below : f.Below b r
    · exact .inl below
    · exact .inr ⟨reached, below⟩
  branch := by
    obtain ⟨cs, hcs⟩ := Option.isSome_iff_exists.mp branch
    exact ⟨cs, (Node.withBranch_self hcs).symm⟩

variable (con : Confined f g b)

include con

/-- A branch stays a branch. -/
theorem isBranch (h : (f.node b).isBranch = true) : (g.node b).isBranch = true := by
  obtain ⟨cs, hcs⟩ := con.branch
  rw [hcs, Node.isBranch, Node.branch?_withBranch cs h]
  rfl

/-- The branch keeps its kind. -/
theorem kind : (g.node b).kind = (f.node b).kind := by
  obtain ⟨cs, hcs⟩ := con.branch
  rw [hcs]
  cases f.node b <;> rfl

/-- What does not stand below `b` does not come to stand there. -/
theorem not_below (h : f.Coherent) (reached : f.Reached r) (outside : ¬f.Below b r) :
    ¬g.Below b r := by
  intro below
  rcases con.below below with old | new
  · exact outside old
  · have := h.lt_size reached
    omega

/-- The branch is still reached after further changes below. -/
theorem site_trans (con' : Confined g k c) (inside : g.Below b c) : k.Reached b := by
  by_cases below : g.Below c b
  · rw [con.coherent.not_above below inside] at con'
    exact con'.site
  · exact (con'.node con.site below).1

/-- Changes inside a region compose. -/
theorem trans (h : f.Coherent) (con' : Confined g k c) (inside : g.Below b c) : Confined f k b where
  coherent := con'.coherent
  size := Nat.le_trans con.size con'.size
  stage := con'.stage.trans con.stage
  source := con'.source.trans con.source
  origin := con.origin
  site := con.site_trans con' inside
  node {r} reached outside := by
    obtain ⟨reached', same⟩ := con.node reached outside
    have outside' := con.not_below h reached outside
    obtain ⟨reached'', same'⟩ := con'.node reached' fun below => outside' (inside.trans below)
    exact ⟨reached'', same'.trans same⟩
  below {r} below := by
    have earlier : g.Below b r ∨ g.size ≤ r.index := by
      induction below with
      | refl => exact .inl .refl
      | @tail q r above hr ih =>
        by_cases region : k.Below c q
        · exact (con'.below (region.tail hr)).imp_left inside.trans
        · have reachedQ : k.Reached q := (con.site_trans con' inside).below above
          obtain ⟨reached, outside⟩ := (con'.outside reachedQ).resolve_left region
          obtain ⟨_, same⟩ := con'.node reached outside
          rw [children, same] at hr
          refine .inl ((ih.resolve_right fun new => ?_).tail hr)
          have := con.coherent.lt_size reached
          omega
    rcases earlier with below | new
    · exact con.below below
    · exact .inr (Nat.le_trans con.size new)
  outside {r} reached := by
    obtain ⟨p, path⟩ := reached
    induction path with
    | root =>
      rcases con.outside (r := Forest.root) .root with below | outside
      · rw [con.coherent.eq_root_of_below con.site below]
        exact .inl .refl
      · exact .inr outside
    | @step p i q r above hi ih =>
      have hr := List.mem_of_getElem? hi
      rcases ih with below | ⟨reached, outside⟩
      · exact .inl (below.tail hr)
      · obtain ⟨reachedG, same⟩ := con.node reached outside
        have outsideG := con.not_below h reached outside
        obtain ⟨_, same'⟩ := con'.node reachedG fun below => outsideG (inside.trans below)
        rw [children, same'.trans same] at hr
        by_cases below : f.Below b r
        · rw [(h.below_of_mem_children con.origin reached hr below).resolve_right outside]
          exact .inl .refl
        · exact .inr ⟨reached.child hr, below⟩
  branch := by
    by_cases eq : c = b
    · obtain ⟨cs, hcs⟩ := con.branch
      obtain ⟨cs', hcs'⟩ := con'.branch
      refine ⟨cs', ?_⟩
      rw [← eq, hcs', eq, hcs]
      cases f.node b <;> rfl
    · have above : ¬g.Below c b := fun below => eq (con.coherent.not_above below inside)
      rw [(con'.node con.site above).2]
      exact con.branch

/-- A tree that does not meet the region stays. -/
theorem tree_eq (h : f.Coherent) (reached : f.Reached r)
    (outside : ∀ s, f.Below r s → ¬f.Below b s) : g.tree r = f.tree r :=
  h.tree_congr con.size fun s below => (con.node (reached.below below) (outside s below)).2

/-- The trees under the other sub-nodes of a node above stay. -/
theorem tree_sibling_eq (h : f.Coherent) (reached : f.Reached q) (hb : b ∈ f.children q)
    (hr : r ∈ f.children q) (ne : r ≠ b) : g.tree r = f.tree r :=
  con.tree_eq h (reached.child hr) fun _ below below' =>
    ne (h.eq_of_below reached hr hb below below')

end Confined

theorem Remembers.below_eq (rem : Remembers f g) : g.Below = f.Below := by
  have same : (fun q c => c ∈ g.children q) = fun q c => c ∈ f.children q := by
    funext q c
    rw [rem.children]
  rw [Below, Below, same]

/-- What is remembered is no change. -/
theorem Remembers.confined (rem : Remembers f g) (h : f.Coherent) (site : f.Reached b)
    (branch : (f.node b).isBranch = true) : Confined f g b where
  coherent := rem.coherent h
  size := Nat.le_of_eq rem.size.symm
  stage := rem.stage
  source := rem.source
  origin := site
  site := rem.reached.mpr site
  node reached _ := ⟨rem.reached.mpr reached, rem.node _⟩
  below below := .inl (rem.below_eq ▸ below)
  outside {r} reached := by
    rw [rem.below_eq]
    by_cases below : f.Below b r
    · exact .inl below
    · exact .inr ⟨rem.reached.mp reached, below⟩
  branch := by
    obtain ⟨cs, hcs⟩ := Option.isSome_iff_exists.mp branch
    exact ⟨cs, by rw [rem.node, Node.withBranch_self hcs]⟩

/-- A graft at a branch is a change there. -/
theorem Grafted.confined (graft : Grafted f g b) (h : f.Coherent) (stage : g.stage = f.stage)
    (source : g.source = f.source) {cs : List NodeRef} (branch : g.node b = (f.node b).withBranch cs) :
    Confined f g b where
  coherent := graft.coherent h
  size := graft.size
  stage := stage
  source := source
  origin := graft.site
  site := graft.reached_of_not_below h graft.site fun _ => rfl
  node {r} reached outside := by
    refine ⟨graft.reached_of_not_below h reached fun below => absurd below outside, ?_⟩
    refine graft.node (h.lt_size reached) ?_
    rintro rfl
    exact outside .refl
  below {r} below := by
    induction below with
    | refl => exact .inl .refl
    | @tail q c _ hc ih =>
      by_cases site : q = b ∨ f.size ≤ q.index
      · exact (graft.parts site c hc).symm.imp_left And.right
      · simp only [not_or, Nat.not_le] at site
        rw [children, graft.node site.2 site.1] at hc
        exact .inl ((ih.resolve_right (by omega)).tail hc)
  outside {r} reached := by
    obtain ⟨p, path⟩ := reached
    induction path with
    | root =>
      by_cases below : f.Below b Forest.root
      · rw [h.eq_root_of_below graft.site below]
        exact .inl .refl
      · exact .inr ⟨.root, below⟩
    | @step p i q r above hi ih =>
      have hr := List.mem_of_getElem? hi
      rcases ih with below | ⟨reached, outside⟩
      · exact .inl (below.tail hr)
      · have ne : q ≠ b := by
          rintro rfl
          exact outside .refl
        rw [children, graft.node (h.lt_size reached) ne] at hr
        by_cases below : f.Below b r
        · rw [(h.below_of_mem_children graft.site reached hr below).resolve_right outside]
          exact .inl .refl
        · exact .inr ⟨reached.child hr, below⟩
  branch := ⟨cs, branch⟩

/-! ## Folds -/

/-- The tree under a node has its kind. -/
theorem Coherent.kind_tree (h : f.Coherent) (r : NodeRef) : (f.tree r).kind = f.kind r := by
  rw [h.tree_eq]
  exact Node.kind_map _ _

/-- The leaves right below a node are counted in its fingerprint. -/
theorem Coherent.leafCount (h : f.Coherent) (r : NodeRef) :
    (f.tree r).fingerprint.parts.leafCount =
      (f.children r).countP fun c => f.kind c = .tokenLeaf := by
  rw [h.tree_eq, Tree.leafCount_fingerprint, Node.children_map, List.countP_map]
  refine List.countP_congr fun c _ => ?_
  simp only [Function.comp, h.kind_tree]

namespace Folded

variable {fold : Fold NodeRef} {new : NodeRef} (folded : Folded f g b fold new)

include folded

/-- A fold at a branch is a change there. -/
theorem confined (h : f.Coherent) : Confined f g b :=
  folded.graft.confined h folded.stage folded.source folded.branch

/-- The children of the branch after the fold. -/
theorem branch? (branch : (f.node b).isBranch = true) :
    (g.node b).branch? = some (fold.left.reverse ++ new :: fold.right) := by
  rw [folded.branch, Node.branch?_withBranch _ branch]

/-- The children of the branch are not touched. -/
theorem node_of_mem_children (h : f.Coherent) (hc : c ∈ f.children b) : g.node c = f.node c :=
  folded.graft.node (h.closed hc) (h.ne_of_mem_children hc)

theorem tree_of_mem_children (h : f.Coherent) (hc : c ∈ f.children b) : g.tree c = f.tree c :=
  folded.graft.tree_eq h (h.closed hc) (Coherent.not_below_of_mem_children h.grounded hc)

/-- A fold takes more leaves than it makes. -/
theorem fingerprint_ne {focus : Focus NodeRef} {back ahead : List NodeRef} (h : f.Coherent)
    (branch : (f.node b).branch? = some (focus.left.reverse ++ focus.here :: focus.right))
    (covers : Rule.Covers f.node focus fold back ahead) :
    (g.tree b).fingerprint ≠ (f.tree b).fingerprint := by
  intro same
  have isBranch : (f.node b).isBranch = true := by rw [Node.isBranch, branch]; rfl
  have before : f.children b = focus.left.reverse ++ focus.here :: focus.right :=
    Node.children_of_branch? branch
  have after : g.children b = fold.left.reverse ++ new :: fold.right :=
    Node.children_of_branch? (folded.branch? isBranch)
  have counts := congrArg (fun p : Fingerprint => p.parts.leafCount) same
  simp only [h.leafCount, (folded.confined h).coherent.leafCount] at counts
  have kept : ∀ c ∈ f.children b, g.kind c = f.kind c := fun c hc => by
    rw [kind, folded.node_of_mem_children h hc, kind]
  have made : g.kind new ≠ .tokenLeaf := by
    rw [kind, Node.kind_of_shape folded.shape]
    exact covers.kind
  have taken : 0 < (back.reverse ++ focus.here :: ahead).countP fun c => f.kind c = .tokenLeaf := by
    obtain ⟨a, ha, leaf⟩ := covers.leaf
    exact List.countP_pos_iff.mpr ⟨a, ha, decide_eq_true leaf⟩
  have same (cs : List NodeRef) (subset : ∀ c ∈ cs, c ∈ f.children b) :
      cs.countP (fun c => decide (g.kind c = .tokenLeaf)) =
        cs.countP fun c => decide (f.kind c = .tokenLeaf) :=
    List.countP_congr fun c hc => by rw [kept c (subset c hc)]
  have sameLeft := same fold.left.reverse fun c hc => by
    rw [before, covers.row]
    exact List.mem_append_left _ (List.mem_append_left _ hc)
  have sameRight := same fold.right fun c hc => by
    rw [before, covers.row]
    exact List.mem_append_right _ hc
  rw [before, covers.row, after] at counts
  simp only [List.countP_append, List.countP_cons, sameLeft, sameRight, made, decide_false] at counts taken
  simp only [Bool.false_eq_true, if_false] at counts
  omega

end Folded

end Forest

end SqlFold
