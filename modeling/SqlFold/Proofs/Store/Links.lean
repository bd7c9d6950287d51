import SqlFold.Proofs.Store.Merging

/-!
# Links name nodes that list

Where nodes may be listed in several places a link no longer says where a node stands, but it still names a node
that lists it, and every sub-node is there (`Forest.Linked`). As long as the store waits for tokens no node stands
below itself, since new nodes list older ones and leaves. This is less than coherence, and it holds of more stores:
every edit keeps it, whatever it puts where, if only the nodes are there (`Forest.Edits`).
-/

namespace SqlFold

variable {α β ε σ : Type}

/-- The state that a step leaves behind, whether it fails or not. -/
def stateAfter : EStateM.Result ε σ α → σ
  | .ok _ s => s
  | .error _ s => s

namespace Forest

/-- Every link names a node that lists the one it starts from, every sub-node is there, and the root is where tokens
go. Before the store is open for parsing every tree has an end. -/
structure Linked (f : Forest) : Prop where
  nonempty : 0 < f.size
  root : (f.node root).kind = .root
  listed : ∀ r p, f.parent? r = some p → r ∈ f.children p
  closed : ∀ q, ∀ c ∈ f.children q, c.index < f.size
  grounded : f.stage = .lexing → ∀ r, f.Grounded r

variable {f g h : Forest} {r s p : NodeRef} {adopted : NodeRef → Prop}

/-- The node that a link names is there. -/
theorem Linked.inside (linked : f.Linked) (link : f.parent? r = some p) : p.index < f.size :=
  f.lt_size_of_mem_children (linked.listed r p link)

/-- A node with a link is there. -/
theorem lt_size_of_parent? (link : f.parent? r = some p) : r.index < f.size := by
  by_contra outside
  rw [f.parent?_of_size_le (Nat.le_of_not_lt outside)] at link
  cases link

/-- A node without sub-nodes is a tree with an end. -/
theorem Grounded.of_childless (childless : f.children r = []) : f.Grounded r :=
  .mk (by simp [childless]) (by simp [childless])

/-- A tree keeps its end if what is new in it has one. -/
theorem Grounded.extended (ends : f.Grounded r) (size : f.size ≤ g.size)
    (more : ∀ q, ∀ c ∈ g.children q, c ∈ f.children q ∨ c.index < g.size ∧ g.Grounded c) : g.Grounded r := by
  induction ends with
  | @mk q inside _ ih =>
    refine .mk (fun c hc => ?_) fun c hc => ?_
    · exact (more q c hc).elim (fun old => Nat.lt_of_lt_of_le (inside c old) size) And.left
    · exact (more q c hc).elim (ih c) And.right

/-- A tree that has an end keeps it where the nodes of the store stay. -/
theorem Linked.grounded_later (linked : f.Linked) (lexing : f.stage = .lexing) (inside : r.index < f.size)
    (size : f.size ≤ g.size) (node : ∀ s : NodeRef, s.index < f.size → g.node s = f.node s) : g.Grounded r :=
  (linked.grounded lexing r).congr size fun s below => node s ((linked.grounded lexing r).lt_size_of_below inside below)

theorem isBranch_of_root {n : Node α} (root : n.kind = .root) : n.isBranch = true := by
  cases n <;> first | rfl | cases root

@[simp] theorem kind_withBranch (n : Node α) (cs : List α) : (n.withBranch cs).kind = n.kind := by
  cases n <;> rfl

theorem children_withBranch {n : Node α} (cs : List α) (branch : n.isBranch = true) : (n.withBranch cs).children = cs :=
  Node.children_of_branch? (Node.branch?_withBranch cs branch)

/-! ## Edits -/

/-- A store with the same nodes and links, which does not wait for tokens again. -/
theorem Linked.congr (linked : f.Linked) (size : g.size = f.size) (node : ∀ r, g.node r = f.node r)
    (parent : ∀ r, g.parent? r = f.parent? r) (stage : g.stage = .lexing → f.stage = .lexing) : g.Linked where
  nonempty := size ▸ linked.nonempty
  root := node Forest.root ▸ linked.root
  listed r p link := by
    rw [children, node]
    exact linked.listed r p (parent r ▸ link)
  closed q c mem := by
    rw [children, node] at mem
    exact size ▸ linked.closed q c mem
  grounded lexing r := (linked.grounded (stage lexing) r).congr size.ge fun s _ => node s

theorem linked_empty (source : String) : (empty source).Linked := by
  have childless (q : NodeRef) : (empty source).children q = [] := by
    obtain ⟨i⟩ := q
    cases i <;> rfl
  refine ⟨Nat.zero_lt_one, rfl, fun r p link => ?_, fun q c mem => ?_, fun _ r => .of_childless (childless r)⟩
  · have first : r.index < 1 := lt_size_of_parent? link
    obtain ⟨i⟩ := r
    obtain rfl : i = 0 := Nat.lt_one_iff.mp first
    cases link
  · rw [childless] at mem
    cases mem

/-- A new node is listed by none, and takes its sub-nodes from where they were linked to. -/
theorem Linked.inserted (linked : f.Linked) {n : Node NodeRef} (inside : ∀ c ∈ n.children, c.index < f.size) :
    (f.inserted n).Linked := by
  have children (q : NodeRef) : (f.inserted n).children q = if q.index = f.size then n.children else f.children q := by
    rw [Forest.children, node_inserted]
    split <;> rfl
  have larger : f.size ≤ (f.inserted n).size := by simp
  refine ⟨Nat.lt_of_lt_of_le linked.nonempty larger, ?_, fun r p link => ?_, fun q c mem => ?_, fun lexing r => ?_⟩
  · rw [node_inserted, if_neg (show Forest.root.index ≠ f.size from Nat.ne_of_lt linked.nonempty)]
    exact linked.root
  · rw [parent?_inserted] at link
    rw [children]
    split at link
    · next taken =>
      cases link
      rw [if_pos rfl]
      exact taken.1
    · rw [if_neg (Nat.ne_of_lt (linked.inside link))]
      exact linked.listed r p link
  · rw [children] at mem
    split at mem
    · exact Nat.lt_of_lt_of_le (inside c mem) larger
    · exact Nat.lt_of_lt_of_le (linked.closed q c mem) larger
  · -- Nothing lists the new node, so the trees of old nodes are what they were.
    have old {q : NodeRef} (there : q.index < f.size) : (f.inserted n).Grounded q :=
      linked.grounded_later ((stage_inserted f n).symm.trans lexing) there larger fun s inside => by
        rw [node_inserted, if_neg (Nat.ne_of_lt inside)]
    rcases Nat.lt_trichotomy r.index f.size with there | new | outside
    · exact old there
    · refine .mk (fun c mem => ?_) fun c mem => ?_ <;> rw [children, if_pos new] at mem
      · exact Nat.lt_of_lt_of_le (inside c mem) larger
      · exact old (inside c mem)
    · exact .of_childless (children_of_size_le _ (by simp; omega))

/-- New nodes that list older ones, and are named by the links of what they list. -/
theorem Linked.grown (linked : f.Linked) (grown : Grown f g adopted) : g.Linked := by
  have size := grown.size
  refine ⟨Nat.lt_of_lt_of_le linked.nonempty size, ?_, fun r p link => ?_, fun q c mem => ?_, fun lexing r => ?_⟩
  · rw [show g.node Forest.root = f.node Forest.root from grown.node linked.nonempty]
    exact linked.root
  · rcases grown.linked link with before | ⟨_, listed⟩
    · rw [children, grown.node (linked.inside before)]
      exact linked.listed r p before
    · exact listed
  · by_cases old : q.index < f.size
    · rw [children, grown.node old] at mem
      exact Nat.lt_of_lt_of_le (linked.closed q c mem) size
    · exact (grown.order (Nat.le_of_not_lt old) c mem).trans (g.lt_size_of_mem_children mem)
  · -- New nodes list older ones, so this is an induction on the number of the record.
    obtain ⟨i⟩ := r
    induction i using Nat.strong_induction_on with
    | _ i ih =>
      by_cases old : i < f.size
      · exact linked.grounded_later (grown.stage.symm.trans lexing) old size fun s inside => grown.node inside
      · have below : ∀ c ∈ g.children ⟨i⟩, c.index < i := grown.order (Nat.le_of_not_lt old)
        exact .mk (fun c mem => (below c mem).trans (g.lt_size_of_mem_children mem)) fun c mem => ih _ (below c mem)

/-- A new leaf stands at the end of the root. -/
theorem Linked.withLeaf (linked : f.Linked) (token : Token) : (f.withLeaf token).Linked := by
  have grown := linked.inserted (n := .leaf token) (by simp)
  have branch : ((f.inserted (.leaf token)).node Forest.root).isBranch = true := isBranch_of_root grown.root
  obtain ⟨cs, listing⟩ := Option.isSome_iff_exists.mp branch
  have old : (f.inserted (.leaf token)).children Forest.root = cs := Node.children_of_branch? listing
  have size : (f.withLeaf token).size = (f.inserted (.leaf token)).size := by simp [Forest.withLeaf]
  have stage : (f.withLeaf token).stage = (f.inserted (.leaf token)).stage := by simp [Forest.withLeaf]
  have node (s : NodeRef) : (f.withLeaf token).node s =
      if s = Forest.root then ((f.inserted (.leaf token)).node Forest.root).withBranch (cs ++ [⟨f.size⟩])
      else (f.inserted (.leaf token)).node s := by
    simp only [Forest.withLeaf, node_forget, node_withNode, node_withParent, size_withParent, childList, listing,
      Option.getD_some]
    by_cases here : s = Forest.root
    · rw [if_pos ⟨here, here ▸ grown.nonempty⟩, if_pos here]
    · rw [if_neg fun both => here both.1, if_neg here]
  have parent (s : NodeRef) : (f.withLeaf token).parent? s =
      if s = ⟨f.size⟩ then some Forest.root else (f.inserted (.leaf token)).parent? s := by
    simp only [Forest.withLeaf, parent?_forget, parent?_withNode, parent?_withParent]
    by_cases here : s = ⟨f.size⟩
    · rw [if_pos ⟨here, by simp [here]⟩, if_pos here]
    · rw [if_neg fun both => here both.1, if_neg here]
  generalize f.withLeaf token = g at size stage node parent ⊢
  have children (q : NodeRef) : g.children q =
      if q = Forest.root then (f.inserted (.leaf token)).children q ++ [⟨f.size⟩]
      else (f.inserted (.leaf token)).children q := by
    rw [Forest.children, node]
    split
    · next here => rw [children_withBranch _ branch, here, old]
    · rfl
  have last : f.size < g.size := by
    rw [size, size_inserted]
    exact Nat.lt_succ_self _
  have more (q c : NodeRef) (mem : c ∈ g.children q) :
      c ∈ (f.inserted (.leaf token)).children q ∨ c = ⟨f.size⟩ := by
    rw [children] at mem
    split at mem
    · exact (List.mem_append.mp mem).imp_right List.mem_singleton.mp
    · exact .inl mem
  refine ⟨Nat.zero_lt_of_lt last, ?_, fun r p link => ?_, fun q c mem => ?_, fun lexing r => ?_⟩
  · rw [node, if_pos rfl, kind_withBranch]
    exact grown.root
  · rw [parent] at link
    rw [children]
    split at link
    · next here =>
      cases link
      rw [if_pos rfl, here]
      simp
    · have before := grown.listed r p link
      split
      · exact List.mem_append_left _ before
      · exact before
  · rcases more q c mem with listed | rfl
    · exact size ▸ grown.closed q c listed
    · exact last
  · -- Only the root lists more than before, and this is a leaf.
    have leaf : g.Grounded ⟨f.size⟩ := by
      refine .of_childless ?_
      have notRoot : (⟨f.size⟩ : NodeRef) ≠ Forest.root := fun eq =>
        Nat.ne_of_gt linked.nonempty (congrArg NodeRef.index eq)
      rw [children, if_neg notRoot, Forest.children, node_inserted, if_pos rfl, Node.children_leaf]
    refine (grown.grounded (stage.symm.trans lexing) r).extended size.ge fun q c mem => (more q c mem).imp_right ?_
    rintro rfl
    exact ⟨last, leaf⟩

/-- A splice takes links from the nodes that it removes, where they lead to the branch. -/
theorem Linked.spliced (linked : f.Linked) {b new : NodeRef} {cs : List NodeRef} {offset length : Nat}
    (parsing : f.stage = .parsing) (inside : b.index < f.size) (there : new.index < f.size)
    (branch : (f.node b).branch? = some cs) : (f.spliced b cs offset length new).Linked := by
  obtain ⟨g, eq, size, node, _, stage, _, parent⟩ := f.spliced_eq_forget b new cs offset length
  have isBranch : (f.node b).isBranch = true := by rw [Node.isBranch, branch]; rfl
  have here : g.children b = cs.take offset ++ new :: cs.drop (offset + length) := by
    rw [children, node, if_pos ⟨rfl, inside⟩, children_withBranch _ isBranch]
  have elsewhere {q : NodeRef} (other : q ≠ b) : g.children q = f.children q := by
    rw [children, node, if_neg fun both => other both.1]
    rfl
  have spliced : g.Linked := by
    refine ⟨size ▸ linked.nonempty, ?_, fun r p link => ?_, fun q c mem => ?_, fun lexing => ?_⟩
    · rw [node]
      split
      · next isRoot =>
        rw [kind_withBranch, ← isRoot.1]
        exact linked.root
      · exact linked.root
    · rw [parent] at link
      split at link
      · next isNew =>
        cases link
        rw [here, isNew.1]
        simp
      · split at link
        · cases link
        · next kept =>
          have before := linked.listed r p link
          by_cases same : p = b
          · -- What the splice removes has lost this link, so the node is among the kept ones.
            subst same
            rw [children, Node.children_of_branch? branch] at before
            have parts : cs = cs.take offset ++ ((cs.drop offset).take length ++ cs.drop (offset + length)) := by
              rw [← List.drop_drop, List.take_append_drop, List.take_append_drop]
            rw [parts, List.mem_append, List.mem_append] at before
            rw [here, List.mem_append, List.mem_cons]
            rcases before with first | removed | last
            · exact .inl first
            · exact absurd ⟨removed, link⟩ kept
            · exact .inr (.inr last)
          · rw [elsewhere same]
            exact before
    · rw [size]
      by_cases same : q = b
      · subst same
        have before : ∀ c ∈ cs, c.index < f.size := fun c listed =>
          linked.closed q c (by rwa [children, Node.children_of_branch? branch])
        rw [here, List.mem_append, List.mem_cons] at mem
        rcases mem with first | rfl | last
        · exact before c (List.mem_of_mem_take first)
        · exact there
        · exact before c (List.mem_of_mem_drop last)
      · rw [elsewhere same] at mem
        exact linked.closed q c mem
    · rw [stage, parsing] at lexing
      cases lexing
  rw [eq]
  exact spliced.congr (size_forget g b) (node_forget g b) (parent?_forget g b) (stage_forget g b ▸ id)

/-- A substitution takes its link from the node that it removes, too. -/
theorem Linked.substituted (linked : f.Linked) {old new : NodeRef} (parsing : f.stage = .parsing)
    (mem : old ∈ f.children p) (there : new.index < f.size) : (f.substituted p old new).Linked := by
  obtain ⟨g, eq, size, node, _, stage, _, parent⟩ := f.substituted_eq_forget p old new
  have inside : p.index < f.size := f.lt_size_of_mem_children mem
  have here : g.children p = (f.children p).map fun r => if r = old then new else r := by
    rw [children, node, if_pos ⟨rfl, inside⟩, Node.children_map]
    rfl
  have elsewhere {q : NodeRef} (other : q ≠ p) : g.children q = f.children q := by
    rw [children, node, if_neg fun both => other both.1]
    rfl
  have substituted : g.Linked := by
    refine ⟨size ▸ linked.nonempty, ?_, fun r q link => ?_, fun q c listed => ?_, fun lexing => ?_⟩
    · rw [node]
      split
      · next isRoot =>
        rw [Node.kind_map, ← isRoot.1]
        exact linked.root
      · exact linked.root
    · rw [parent] at link
      split at link
      · next isNew =>
        cases link
        rw [here, isNew.1]
        exact List.mem_map.mpr ⟨old, mem, if_pos rfl⟩
      · split at link
        · cases link
        · next kept =>
          have before := linked.listed r q link
          by_cases same : q = p
          · have other : r ≠ old := fun isOld => kept ⟨isOld, lt_size_of_parent? link⟩
            rw [same, here]
            exact List.mem_map.mpr ⟨r, same ▸ before, if_neg other⟩
          · rw [elsewhere same]
            exact before
    · rw [size]
      by_cases same : q = p
      · rw [same, here] at listed
        obtain ⟨d, before, rfl⟩ := List.mem_map.mp listed
        split
        · exact there
        · exact linked.closed p d before
      · rw [elsewhere same] at listed
        exact linked.closed q c listed
    · rw [stage, parsing] at lexing
      cases lexing
  rw [eq]
  exact substituted.congr (size_forget g p) (node_forget g p) (parent?_forget g p) (stage_forget g p ▸ id)

/-! ## Steps -/

/-- What a step makes of a linked store: it gets no smaller, and stays linked. -/
structure Onward (f g : Forest) : Prop where
  size : f.size ≤ g.size
  linked : g.Linked

theorem Onward.refl (linked : f.Linked) : Onward f f := ⟨Nat.le_refl _, linked⟩

theorem Onward.trans (first : Onward f g) (second : Onward g h) : Onward f h :=
  ⟨Nat.le_trans first.size second.size, second.linked⟩

/-- A step from a state goes onward if the store is linked, where `view` shows the store in a state. -/
def Moves (view : σ → Forest) (x : EStateM ε σ α) (s : σ) : Prop :=
  (view s).Linked → Onward (view s) (view (stateAfter (x s)))

namespace Moves

variable {view : σ → Forest} {x : EStateM ε σ α} {k : α → EStateM ε σ β} {s : σ}

theorem stay {r : EStateM.Result ε σ α} (run : x s = r) (same : stateAfter r = s) : Moves view x s := by
  intro linked
  rw [run, same]
  exact .refl linked

theorem pure (a : α) : Moves view (Pure.pure a : EStateM ε σ α) s := .refl

theorem throw (e : ε) : Moves view (MonadExcept.throw e : EStateM ε σ α) s := .refl

theorem bind (first : Moves view x s)
    (later : ∀ a s', x s = .ok a s' → Onward (view s) (view s') → Moves view (k a) s') : Moves view (x >>= k) s := by
  intro linked
  have moved := first linked
  cases run : x s with
  | ok a s' =>
    rw [run] at moved
    rw [bind_ok run]
    exact moved.trans (later a s' run moved moved.linked)
  | error e s' =>
    rw [run] at moved
    rw [bind_error run]
    exact moved

/-- Visits in turn. -/
theorem visits {act : α → EStateM ε σ β} {as : List α} {bs : List β} {s s' : σ} (visits : Visits act as s bs s')
    (each : ∀ a ∈ as, ∀ s, Moves view (act a) s) (linked : (view s).Linked) : Onward (view s) (view s') := by
  induction visits with
  | nil => exact .refl linked
  | @cons a as b bs s s' s'' first _ ih =>
    have here := each a List.mem_cons_self s linked
    rw [first] at here
    exact here.trans (ih (fun a mem => each a (List.mem_cons_of_mem _ mem)) here.linked)

end Moves

/-- A step of an edit goes onward. -/
abbrev Edits (e : Edit α) (f : Forest) : Prop := Moves id e f

theorem Linked.onward_grown (linked : f.Linked) (grown : Grown f g adopted) : Onward f g :=
  ⟨grown.size, linked.grown grown⟩

theorem edits_insert {n : Node NodeRef} (inside : ∀ c ∈ n.children, c.index < f.size) : Edits (insert n) f := by
  intro linked
  refine ⟨?_, linked.inserted inside⟩
  show f.size ≤ (f.inserted n).size
  simp

theorem edits_copy (r : NodeRef) (f : Forest) : Edits (copy r) f := by
  intro linked
  obtain ⟨r', g, run, loose⟩ := copy_run r f
  rw [run]
  exact linked.onward_grown loose.grown

theorem edits_pushLeaf (token : Token) (f : Forest) : Edits (pushLeaf token) f := by
  intro linked
  have onward : Onward f (f.withLeaf token) := ⟨by simp [withLeaf], linked.withLeaf token⟩
  rw [pushLeaf, get_bind]
  generalize f.withLeaf token = g at onward
  split
  · exact onward
  · exact .refl linked

/-- A replacement by a node that is there, at a branch that is there. -/
theorem edits_replace {b new : NodeRef} {offset length : Nat} (inside : b.index < f.size) (there : new.index < f.size) :
    Edits (replace b offset length new) f := by
  intro linked
  rw [replace, get_bind]
  split
  · next parsing =>
    cases branch : (f.node b).branch? with
    | none => exact .refl linked
    | some cs =>
      dsimp only
      split
      · show Onward f (f.spliced b cs offset length new)
        obtain ⟨g, eq, size, _⟩ := f.spliced_eq_forget b new cs offset length
        exact ⟨by rw [eq, size_forget, size], linked.spliced parsing inside there branch⟩
      · exact .refl linked
  · exact .refl linked

theorem edits_substitute {old new : NodeRef} (there : new.index < f.size) : Edits (substitute old new) f := by
  intro linked
  rw [substitute, get_bind]
  cases link : f.parent? old with
  | none => exact .refl linked
  | some p =>
    dsimp only
    cases (f.childList p).idxOf? old with
    | some offset => exact edits_replace (linked.inside link) there linked
    | none =>
      dsimp only
      split
      · next parsing =>
        split
        · next mem =>
          show Onward f (f.substituted p old new)
          obtain ⟨g, eq, size, _⟩ := f.substituted_eq_forget p old new
          exact ⟨by rw [eq, size_forget, size], linked.substituted parsing mem there⟩
        · exact .refl linked
      · exact .refl linked

/-! ## Merges -/

/-- A merged clause of a clause that is there can be made, or nothing is done. -/
theorem Linked.mergedClause_run (linked : f.Linked) (this other : NodeRef) :
    (∃ m g, mergedClause this other f = .ok m g ∧ this.index < f.size ∧ Merged f g this m ∧ (g.inserted m).Linked) ∨
      mergedClause this other f = .error (.notMergeable (f.kind this) (f.kind other)) f := by
  refine (Forest.mergedClause_run (linked.closed this) other).imp (fun ⟨m, g, run, merged, mergeable⟩ => ?_) And.left
  refine ⟨m, g, run, ?_, merged, (linked.grown merged.grown).inserted fun c mem => ?_⟩
  · by_contra outside
    rw [kind, f.node_of_size_le (Nat.le_of_not_lt outside)] at mergeable
    cases mergeable
  · rcases merged.subs c mem with ⟨_, inside⟩ | listed
    · exact inside
    · exact Nat.lt_of_lt_of_le (linked.closed this c listed) merged.grown.size

/-- What a link leads to is given up for another node, if the store is open for parsing. -/
theorem Linked.substitute_cases (linked : f.Linked) {old : NodeRef} (new : NodeRef) (link : f.parent? old = some p) :
    (f.stage = .parsing ∧ ∃ g, substitute old new f = .ok () g) ∨
      f.stage = .lexing ∧ ∃ operation, substitute old new f = .error (.wrongStage operation .lexing) f := by
  rw [substitute, get_bind, link]
  dsimp only
  cases place : (f.childList p).idxOf? old with
  | some offset =>
    cases branch : (f.node p).branch? with
    | none =>
      rw [childList, branch] at place
      cases place
    | some cs =>
      obtain ⟨left, right, split, rfl⟩ := exists_split_of_idxOf? place
      have fits : left.length ≤ cs.length ∧ left.length + 1 ≤ cs.length + 1 := by
        have : cs = left ++ [old] ++ right := by rwa [childList, branch] at split
        simp [this]
      dsimp only
      rw [replace, get_bind]
      cases stage : f.stage with
      | parsing =>
        rw [if_pos rfl, branch]
        dsimp only
        rw [if_pos fits]
        exact .inl ⟨rfl, _, rfl⟩
      | lexing => exact .inr ⟨rfl, _, rfl⟩
  | none =>
    dsimp only
    rw [if_pos (linked.listed old p link)]
    cases stage : f.stage with
    | parsing => exact .inl ⟨rfl, _, rfl⟩
    | lexing => exact .inr ⟨rfl, _, rfl⟩

/-- A merge succeeds, or is rejected with nothing done, or makes the merged clause and fails to put it into a store
that waits for tokens. -/
theorem Linked.merge_cases (linked : f.Linked) (this other : NodeRef) :
    (∃ merged k, merge this other f = .ok merged k ∧ Onward f k) ∨
      merge this other f = .error (.notMergeable (f.kind this) (f.kind other)) f ∨
        f.stage = .lexing ∧ (f.parent? this).isSome ∧ ∃ m g operation, Merged f g this m ∧ (g.inserted m).Linked ∧
          merge this other f = .error (.wrongStage operation .lexing) (g.inserted m) := by
  rw [merge]
  rcases linked.mergedClause_run this other with ⟨m, g, run, old, merged, inserted⟩ | run
  swap
  · exact .inr (.inl (bind_error run))
  have onward : Onward f (g.inserted m) :=
    ⟨Nat.le_trans merged.grown.size (by rw [size_inserted]; exact Nat.le_succ _), inserted⟩
  rw [bind_ok run, bind_ok (show insert m g = .ok ⟨g.size⟩ (g.inserted m) from rfl), get_bind]
  cases link : (g.inserted m).parent? this with
  | none => exact .inl ⟨_, _, rfl, onward⟩
  | some p =>
    have there : (⟨g.size⟩ : NodeRef).index < (g.inserted m).size := by simp
    have moved : Onward (g.inserted m) (stateAfter (substitute this ⟨g.size⟩ (g.inserted m))) :=
      edits_substitute there inserted
    dsimp only [Option.isSome_some]
    rw [if_pos rfl]
    rcases inserted.substitute_cases ⟨g.size⟩ link with ⟨_, k, done⟩ | ⟨stage, operation, failed⟩
    · rw [done] at moved
      exact .inl ⟨_, k, by rw [bind_ok done]; rfl, onward.trans moved⟩
    · have lexing : f.stage = .lexing := merged.grown.stage.symm.trans ((stage_inserted g m).symm.trans stage)
      have apart : this ∉ f.children this := fun listed => (linked.grounded lexing this).not_below this listed .refl
      rw [merged.parent?_inserted old apart] at link
      exact .inr (.inr ⟨lexing, by rw [link]; rfl, m, g, operation, merged, inserted, bind_error failed⟩)

theorem edits_merge (this other : NodeRef) (f : Forest) : Edits (merge this other) f := by
  intro (linked : f.Linked)
  show Onward f (stateAfter (merge this other f))
  rcases linked.merge_cases this other with ⟨merged, k, run, onward⟩ | run | ⟨_, _, m, g, _, merged, inserted, run⟩ <;> rw [run]
  · exact onward
  · exact .refl linked
  · exact ⟨Nat.le_trans merged.grown.size (by rw [stateAfter, size_inserted]; exact Nat.le_succ _), inserted⟩

/-- A clause with a link is listed where the link leads to, so its place is found. -/
theorem Linked.merge_attached (linked : f.Linked) {this other : NodeRef} {v : Violation}
    (failed : merge this other f = .error v g) (kind : NodeKind) : v ≠ .detached kind := by
  rcases linked.merge_cases this other with ⟨merged, k, run, _⟩ | run | ⟨_, _, m, g, _, _, _, run⟩ <;>
    rw [run] at failed <;> cases failed <;> exact nofun

end Forest

end SqlFold
