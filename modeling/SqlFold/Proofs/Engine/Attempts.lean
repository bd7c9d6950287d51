import SqlFold.Proofs.Cover.Kinds
import SqlFold.Proofs.Engine.Calls
import SqlFold.Proofs.Store.Copying

/-!
# What one call may change

A rule is asked about siblings before the store is touched, so an objection leaves the store as it was. What it
folds lies over a run of siblings around the one that it was asked about (`Rule.apply_covers`), and it makes no more
than one table (`Rule.length_newTables_le`). So it can be put into every branch whose sub-nodes have records, also
where nodes are listed in several places, and it is put there by one splice (`OneSplice`). Nothing of this depends on
how the siblings came to stand there. `Folding.attempt_splices` says so of every rule.
-/

namespace SqlFold

open Forest Folding

variable {f g : Forest} {b : NodeRef} {os : List (Origin NodeRef)} {rs : List NodeRef}

namespace Forest

/-! ## New tables -/

/-- There is one more record for each new table. -/
theorem size_of_places (visits : Visits place os f rs g) : g.size = f.size + (Rule.newTables os).length := by
  induction visits with
  | nil f => rfl
  | @cons o os r rs f g k first _ ih =>
    cases o with
    | sibling a =>
      cases first
      exact ih
    | newTable name =>
      cases first
      rw [ih, size_inserted, Rule.newTables, Rule.newTables, List.filterMap_cons]
      exact Nat.add_right_comm _ _ _

/-- Old records stand for siblings, and new ones for new tables. -/
theorem Placed.partition (placed : List.Forall₂ (Placed f g) os rs)
    (old : ∀ r ∈ os.filterMap Origin.sibling?, r.index < f.size) :
    rs.filter (·.index < f.size) = os.filterMap Origin.sibling? ∧
      (rs.filter (f.size ≤ ·.index)).length = (Rule.newTables os).length := by
  induction placed with
  | nil => exact ⟨rfl, rfl⟩
  | @cons o r os rs here _ ih =>
    cases here with
    | sibling r =>
      obtain ⟨inside, old⟩ := List.forall_mem_cons.mp old
      obtain ⟨siblings, tables⟩ := ih old
      rw [List.filter_cons_of_pos (by simpa using inside), List.filter_cons_of_neg (by simpa using inside), siblings]
      exact ⟨rfl, tables⟩
    | @table name r fresh _ _ =>
      obtain ⟨siblings, tables⟩ := ih old
      rw [List.filter_cons_of_neg (by simpa using fresh), List.filter_cons_of_pos (by simpa using fresh), siblings]
      exact ⟨rfl, congrArg Nat.succ tables⟩

/-- The node `m` stands for `n`, and the store `g` is `f` with the new tables of `n`. -/
structure Built (f g : Forest) (n : Node (Origin NodeRef)) (m : Node NodeRef) : Prop where
  tabled : Tabled f g
  size : g.size = f.size + (Rule.newTables n.children).length
  kind : m.kind = n.kind
  siblings : m.children.filter (·.index < f.size) = n.children.filterMap Origin.sibling?
  tables : (m.children.filter (f.size ≤ ·.index)).length = (Rule.newTables n.children).length
  table : ∀ c ∈ m.children, f.size ≤ c.index → c.index < g.size ∧ ∃ name, g.node c = .table name

/-- Whatever a node asks for, it is built. -/
theorem exists_built {n : Node (Origin NodeRef)} (old : ∀ r ∈ n.children.filterMap Origin.sibling?, r.index < f.size) :
    ∃ m g, n.mapM place f = .ok m g ∧ Built f g n m := by
  obtain ⟨m, g, run, visits, shape⟩ := Node.mapM_visits n (fun o _ => place_total o) f
  obtain ⟨tabled, places, -, -⟩ := places_run visits
  obtain ⟨siblings, tables⟩ := Placed.partition places old
  refine ⟨m, g, run, tabled, size_of_places visits, Node.kind_of_shape shape, siblings, tables, ?_⟩
  intro c mem new
  obtain ⟨o, origin, stands⟩ := Placed.exists_of_mem places mem
  cases stands with
  | sibling =>
    have known : c.index < f.size := old c (List.mem_filterMap.mpr ⟨_, origin, rfl⟩)
    omega
  | table _ inside shown => exact ⟨inside, _, shown⟩

namespace Built

variable {n : Node (Origin NodeRef)} {m : Node NodeRef}

theorem lt_size (built : Built f g n m) {c : NodeRef} (mem : c ∈ m.children) : c.index < g.size := by
  by_cases old : c.index < f.size
  · exact Nat.lt_of_lt_of_le old built.tabled.size
  · exact (built.table c mem (Nat.le_of_not_lt old)).1

/-- Old sub-nodes are siblings. -/
theorem sibling (built : Built f g n m) {c : NodeRef} (mem : c ∈ m.children) (old : c.index < f.size) :
    c ∈ n.children.filterMap Origin.sibling? := by
  rw [← built.siblings]
  exact List.mem_filter.mpr ⟨mem, decide_eq_true old⟩

end Built

/-! ## One splice -/

/-- The store `g` is `f` after one splice: among the children of the branch `b` the node `new` has the place of
`taken`, which are the children from a place on that is not behind the offset to one that is. -/
structure OneSplice (f g : Forest) (b : NodeRef) (offset : Nat) (before taken after : List NodeRef)
    (new : NodeRef) : Prop where
  old : f.childList b = before ++ taken ++ after
  now : g.childList b = before ++ new :: after
  first : before.length ≤ offset
  last : offset < before.length + taken.length
  leaf : ∃ r ∈ taken, f.kind r = .tokenLeaf
  /-- The node has the last one of no more than two new records. -/
  fresh : f.size ≤ new.index ∧ new.index ≤ f.size + 1 ∧ g.size = new.index + 1
  kind : g.kind new ≠ .tokenLeaf
  /-- The old sub-nodes of the node are among those taken, in their order. -/
  siblings : ((g.children new).filter (·.index < f.size)).Sublist taken
  /-- No more than one sub-node is new. -/
  oneTable : ((g.children new).filter (f.size ≤ ·.index)).length ≤ 1
  table : ∀ c ∈ g.children new, f.size ≤ c.index → g.kind c = .table ∧ c.index < new.index
  branch : g.node b = (f.node b).withBranch (before ++ new :: after)
  kept : ∀ q : NodeRef, q.index < f.size → q ≠ b → g.node q = f.node q
  /-- Nodes that were not taken keep their links. -/
  links : ∀ q : NodeRef, q.index < f.size → q ∉ taken → g.parent? q = f.parent? q
  linked : g.parent? new = some b ∧ ∀ c ∈ g.children new, g.parent? c = some new
  dropped : ∀ r ∈ taken, r ∉ g.children new → g.parent? r ≠ some b
  stage : g.stage = f.stage
  source : g.source = f.source

/-- What covers some of the children of a branch is put there by one splice. -/
theorem applyFold_splices {focus : Focus NodeRef} {fold : Fold NodeRef} {back ahead : List NodeRef}
    (closed : ∀ q, ∀ c ∈ f.children q, c.index < f.size) (parsing : f.stage = .parsing)
    (branch : (f.node b).branch? = some (focus.left.reverse ++ focus.here :: focus.right))
    (covers : Rule.Covers f.node focus fold back ahead) (oneTable : (Rule.newTables fold.node.children).length ≤ 1) :
    ∃ g new, applyFold b focus fold f = .ok () g ∧
      OneSplice f g b focus.left.length fold.left.reverse (back.reverse ++ focus.here :: ahead) fold.right new := by
  let taken := back.reverse ++ focus.here :: ahead
  rw [covers.row] at branch
  have children : f.children b = fold.left.reverse ++ taken ++ fold.right := by
    rw [Forest.children, Node.children_of_branch? branch]
  have listed : ∀ r ∈ taken, r ∈ f.children b := by
    intro r mem
    rw [children]
    exact List.mem_append_left _ (List.mem_append_right _ mem)
  have known : ∀ r ∈ taken, r.index < f.size := fun r mem => closed b r (listed r mem)
  have siblings : (fold.node.children.filterMap Origin.sibling?).Sublist taken := covers.siblings_sublist
  obtain ⟨m, g, placed, built⟩ := exists_built fun r mem => known r (siblings.subset mem)
  have inside : b.index < f.size := by
    obtain ⟨r, mem, _⟩ := covers.leaf
    exact f.lt_size_of_mem_children (listed r mem)
  have larger : f.size ≤ g.size := built.tabled.size
  have insideG : b.index < g.size := Nat.lt_of_lt_of_le inside larger
  have node : g.node b = f.node b := built.tabled.node inside
  obtain ⟨k, replaced, size, stage, source, nodes, -, parents⟩ :=
    @replace_inserted g b m fold.left.reverse taken fold.right (built.tabled.stage.trans parsing) insideG
      (node ▸ branch)
  have apart {q : NodeRef} (old : q.index < g.size) : q ≠ ⟨g.size⟩ := by
    rintro rfl
    exact Nat.lt_irrefl _ old
  have isBranch : (f.node b).isBranch = true := by
    rw [Node.isBranch, branch]
    rfl
  -- What the three kinds of records are after the splice: the branch, the new node, and all others.
  have nodeB : (k.forget b).node b = (f.node b).withBranch (fold.left.reverse ++ ⟨g.size⟩ :: fold.right) := by
    rw [node_forget, nodes, if_pos rfl, node]
  have newNode : (k.forget b).node ⟨g.size⟩ = m := by
    rw [node_forget, nodes, if_neg (apart insideG).symm, if_pos rfl]
  have other {q : NodeRef} (old : q.index < g.size) (notB : q ≠ b) : (k.forget b).node q = g.node q := by
    rw [node_forget, nodes, if_neg notB, if_neg (apart old)]
  refine ⟨k.forget b, ⟨g.size⟩, (applyFold_eq covers placed).trans replaced, ?_⟩
  constructor
  case old => rw [childList, branch, Option.getD_some]
  case now => rw [childList, nodeB, Node.branch?_withBranch _ isBranch, Option.getD_some]
  case first =>
    rw [covers.left, List.length_reverse, List.length_append]
    omega
  case last =>
    simp only [covers.left, List.length_append, List.length_reverse, List.length_cons]
    omega
  case leaf => exact covers.leaf
  case fresh =>
    refine ⟨larger, ?_, by rw [size_forget, size]⟩
    show g.size ≤ f.size + 1
    rw [built.size]
    exact Nat.add_le_add_left oneTable _
  case kind =>
    rw [Forest.kind, newNode, built.kind]
    exact covers.kind
  case siblings =>
    rw [Forest.children, newNode, built.siblings]
    exact siblings
  case oneTable =>
    rw [Forest.children, newNode, built.tables]
    exact oneTable
  case table =>
    intro c mem fresh
    rw [Forest.children, newNode] at mem
    obtain ⟨before, name, shown⟩ := built.table c mem fresh
    have notB : c ≠ b := by
      rintro rfl
      omega
    refine ⟨?_, before⟩
    rw [Forest.kind, other before notB, shown]
    rfl
  case branch => exact nodeB
  case kept =>
    intro q old notB
    rw [other (Nat.lt_of_lt_of_le old larger) notB, built.tabled.node old]
  case links =>
    intro q old notTaken
    have notSub : q ∉ m.children := fun mem => notTaken (siblings.subset (built.sibling mem old))
    rw [parent?_forget, parents, if_neg (apart (Nat.lt_of_lt_of_le old larger)), if_neg fun both => notSub both.1,
      if_neg fun both => notTaken both.1, built.tabled.parent]
  case linked =>
    rw [parent?_forget, parents, if_pos rfl, Forest.children, newNode]
    refine ⟨rfl, fun c mem => ?_⟩
    rw [parent?_forget, parents, if_neg (apart (built.lt_size mem)), if_pos ⟨mem, built.lt_size mem⟩]
  case dropped =>
    intro r isTaken unlisted
    rw [Forest.children, newNode] at unlisted
    rw [parent?_forget, parents, if_neg (apart (Nat.lt_of_lt_of_le (known r isTaken) larger)),
      if_neg fun both => unlisted both.1]
    intro link
    split at link
    · cases link
    · next kept => exact kept ⟨isTaken, link⟩
  case stage => rw [stage_forget, stage, built.tabled.stage]
  case source => rw [source_forget, source, built.tabled.source]

end Forest

namespace Folding

variable {left right : List NodeRef} {here : NodeRef} {w : Work}

/-- A call of a rule for a child of a branch, in any acyclic store that is open for parsing. If it fails, it fails for
an objection and everything is as it was. If it folds nothing, everything is as it was, too. Else the store has
changed by one splice around the child, and nothing but the store has changed. -/
theorem attempt_splices (rule : Rule) (acyclic : w.forest.Acyclic) (parsing : w.forest.stage = .parsing)
    (branch : (w.forest.node b).branch? = some (left.reverse ++ here :: right)) :
    match attempt rule b ⟨left, here, right⟩ w with
    | .error e w' => w' = w ∧ ∃ fault place, e = .parsing fault place
    | .ok false w' => w' = w
    | .ok true w' => w' = { w with forest := w'.forest } ∧
        ∃ before taken after new, OneSplice w.forest w'.forest b left.length before taken after new := by
  cases answer : rule.apply w.forest.node ⟨left, here, right⟩ with
  | error o =>
    rw [attempt_objected answer]
    exact ⟨rfl, _, _, rfl⟩
  | ok fold? =>
    cases fold? with
    | none => rw [attempt_declined answer]
    | some fold =>
      obtain ⟨back, ahead, covers⟩ := Rule.apply_covers answer
      obtain ⟨g, new, run, splice⟩ := applyFold_splices (fun q c mem => (acyclic q c mem).1) parsing branch covers
        (Rule.length_newTables_le answer)
      rw [attempt_folded answer run]
      exact ⟨rfl, _, _, _, new, splice⟩

/-- Behind a semicolon stand `FROM` and one column that is listed twice. The first time it becomes a table, the second
time its name becomes the alias. -/
theorem attempt_splices_shared :
    let f : Forest := ⟨#[⟨.root [⟨1⟩, ⟨2⟩, ⟨3⟩, ⟨3⟩], none, none⟩, ⟨.leaf ⟨.semicolon, ";", ⟨0, 0⟩⟩, some root, none⟩,
      ⟨.leaf ⟨.fromKw, "FROM", ⟨0, 1⟩⟩, some root, none⟩,
      ⟨.column ⟨none, none, ⟨.symbol, "x", ⟨0, 6⟩⟩⟩, some root, none⟩], ";FROM x x", .parsing⟩
    let w : Work := ⟨f, ∅, #[], false⟩
    f.Acyclic ∧ f.stage = .parsing ∧ (f.node root).branch? = some ([⟨1⟩].reverse ++ ⟨2⟩ :: [⟨3⟩, ⟨3⟩]) ∧
      ∃ w', attempt .fromClause root ⟨[⟨1⟩], ⟨2⟩, [⟨3⟩, ⟨3⟩]⟩ w = .ok true w' ∧
        w'.forest.childList root = [⟨1⟩, ⟨5⟩] ∧ w'.forest.kind ⟨4⟩ = .table ∧ w'.forest.kind ⟨5⟩ = .fromClause ∧
          ∃ before taken after new, OneSplice f w'.forest root 1 before taken after new := by
  intro f w
  have acyclic : f.Acyclic := .of_rank (fun r => if r = root then 1 else 0) fun q c listed => by
    match q with
    | ⟨0⟩ => revert c; decide
    | ⟨1⟩ => cases listed
    | ⟨2⟩ => cases listed
    | ⟨3⟩ => cases listed
    | ⟨n + 4⟩ => cases listed
  let focus : Focus NodeRef := ⟨[⟨1⟩], ⟨2⟩, [⟨3⟩, ⟨3⟩]⟩
  let fold : Fold NodeRef := ⟨[⟨1⟩], .fromClause ⟨⟨.fromKw, "FROM", ⟨0, 1⟩⟩, .newTable ⟨none, ⟨.symbol, "x", ⟨0, 6⟩⟩⟩,
    some ⟨.symbol, "x", ⟨0, 6⟩⟩⟩, []⟩
  have answer : Rule.fromClause.apply f.node focus = .ok (some fold) := rfl
  have folded : ∃ g, applyFold root focus fold f = .ok () g ∧ g.childList root = [⟨1⟩, ⟨5⟩] ∧
      g.kind ⟨4⟩ = .table ∧ g.kind ⟨5⟩ = .fromClause := by
    refine ⟨_, rfl, ?_, ?_, ?_⟩ <;> decide +kernel
  obtain ⟨g, run, children, table, clause⟩ := folded
  have called : attempt .fromClause root focus w = .ok true { w with forest := g } := attempt_folded answer run
  have branch : (f.node root).branch? = some ([⟨1⟩].reverse ++ ⟨2⟩ :: [⟨3⟩, ⟨3⟩]) := rfl
  have splices := @attempt_splices root [⟨1⟩] [⟨3⟩, ⟨3⟩] ⟨2⟩ w .fromClause acyclic rfl branch
  rw [called] at splices
  exact ⟨acyclic, rfl, branch, _, called, children, table, clause, splices.2⟩

end Folding

end SqlFold
