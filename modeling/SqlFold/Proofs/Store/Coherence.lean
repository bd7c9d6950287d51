import Mathlib.Data.List.Nodup
import Mathlib.Data.List.Perm.Subperm
import Mathlib.Logic.Relation
import Mathlib.Order.WellFounded
import SqlFold.Proofs.Store.Records

/-!
# Coherent stores

`Forest.Path f p r` says that the positions `p` lead from the root to `r`. In a `Coherent` store

* no node stands below itself, and every sub-node has a record;
* every node that is reached lists each sub-node once and is named by their links;
* the root has no link;
* a remembered fingerprint of a node that is reached is the fingerprint of the tree under it.

From this follows that a node is reached along one path only (`Coherent.path_unique`), and that the
links lead from a node to every node above it (`Coherent.mem_ancestors`). Nodes that were spliced out
may go on to list nodes that are reached, so nothing more is said of them.

In any store, `Forest.Grounded f r` says that the tree under a node has an end. Then it has no more
levels than there are records (`Grounded.shallow`), and is the layer of the node around the trees
under its sub-nodes (`Grounded.tree_eq`).

An edit of a coherent store changes one node `b` and adds records; `Grafted f g b` lists what it
must respect, and `Grafted.coherent` is the result.
-/

namespace SqlFold.Forest

/-! ## Paths -/

/-- The positions `p` lead from the root to a node. -/
inductive Path (f : Forest) : List Nat → NodeRef → Prop
  | root : Path f [] root
  | step {p : List Nat} {i : Nat} {q c : NodeRef} :
      Path f p q → (f.children q)[i]? = some c → Path f (p ++ [i]) c

/-- A node is reached from the root. -/
def Reached (f : Forest) (r : NodeRef) : Prop := ∃ p, f.Path p r

/-- A node is the other or stands below it. -/
def Below (f : Forest) : NodeRef → NodeRef → Prop :=
  Relation.ReflTransGen fun q c => c ∈ f.children q

/-- The store is a tree under its root, and what it remembers is true. -/
structure Coherent (f : Forest) : Prop where
  nonempty : 0 < f.size
  closed : ∀ {q c}, c ∈ f.children q → c.index < f.size
  grounded : WellFounded fun c q => c ∈ f.children q
  root : f.parent? root = none
  link : ∀ {q c}, f.Reached q → c ∈ f.children q → f.parent? c = some q
  once : ∀ {q}, f.Reached q → (f.children q).Nodup
  cache : ∀ {r p}, f.Reached r → f.cache? r = some p → p = (f.tree r).fingerprint

variable {f g : Forest} {q r s b c : NodeRef}

theorem Reached.root : f.Reached root := ⟨[], .root⟩

theorem Reached.child (h : f.Reached q) (hc : c ∈ f.children q) : f.Reached c := by
  obtain ⟨p, path⟩ := h
  obtain ⟨i, hi⟩ := List.getElem?_of_mem hc
  exact ⟨p ++ [i], .step path hi⟩

/-- A path goes on below a node. -/
theorem Path.extend {p : List Nat} (h : f.Path p q) (below : f.Below q r) :
    ∃ t, f.Path (p ++ t) r := by
  induction below with
  | refl => exact ⟨[], by simpa using h⟩
  | tail _ hc ih =>
    obtain ⟨t, path⟩ := ih
    obtain ⟨i, hi⟩ := List.getElem?_of_mem hc
    exact ⟨t ++ [i], by simpa using path.step hi⟩

theorem Reached.below (h : f.Reached q) (below : f.Below q r) : f.Reached r := by
  obtain ⟨p, path⟩ := h
  obtain ⟨t, path⟩ := path.extend below
  exact ⟨p ++ t, path⟩

/-- What is reached is the root or listed by a node that is reached. -/
theorem Reached.cases (h : f.Reached r) : r = Forest.root ∨ ∃ q, f.Reached q ∧ r ∈ f.children q := by
  obtain ⟨p, path⟩ := h
  cases path with
  | root => exact .inl rfl
  | step path hi => exact .inr ⟨_, ⟨_, path⟩, List.mem_of_getElem? hi⟩

/-- What is reached is the root or stands below it. -/
theorem reached_iff_below : f.Reached r ↔ f.Below Forest.root r := by
  constructor
  · rintro ⟨path, walk⟩
    induction walk with
    | root => exact .refl
    | step _ listed ih => exact ih.tail (List.mem_of_getElem? listed)
  · exact Reached.root.below

/-! ## The way up -/

/-- A way up that ends within `n` steps stays the same if more steps are allowed. -/
theorem ancestorsWithin_of_short {n m : Nat} (short : (f.ancestorsWithin n r).length < n) (le : n ≤ m) :
    f.ancestorsWithin m r = f.ancestorsWithin n r := by
  induction n generalizing m r with
  | zero => omega
  | succ n ih =>
    obtain ⟨m, rfl⟩ := Nat.exists_eq_succ_of_ne_zero (show m ≠ 0 by omega)
    rw [ancestorsWithin] at short
    rw [ancestorsWithin, ancestorsWithin]
    cases link : f.parent? r with
    | none => rfl
    | some p =>
      rw [link] at short
      dsimp only at short ⊢
      rw [ih (by simpa using short) (by omega)]

/-! ## Trees with an end -/

/-- No more than `n` nodes stand on a way down from a node. -/
def Shallow (f : Forest) : Nat → NodeRef → Prop
  | 0, _ => False
  | n + 1, r => ∀ c ∈ f.children r, Shallow f n c

/-- Looking deeper than there are nodes shows nothing new. -/
theorem treeWithin_eq {n m : Nat} (shallow : f.Shallow n r) (le : n ≤ m) :
    f.treeWithin n r = f.treeWithin m r := by
  induction n generalizing m r with
  | zero => cases shallow
  | succ n ih =>
    cases m with
    | zero => omega
    | succ m =>
      rw [treeWithin, treeWithin]
      congr 1
      exact Node.map_congr fun c hc => ih (shallow c hc) (by omega)

/-- The uppermost levels depend on the nodes in them. -/
theorem treeWithin_congr (same : ∀ s, f.Below r s → g.node s = f.node s) (n : Nat) :
    g.treeWithin n r = f.treeWithin n r := by
  induction n generalizing r with
  | zero => rfl
  | succ n ih =>
    rw [treeWithin, treeWithin, same r .refl]
    congr 1
    exact Node.map_congr fun c hc => ih fun s below => same s (.head hc below)

/-- The tree under a node has an end: no node in it stands below itself, and its sub-nodes have
records. -/
inductive Grounded (f : Forest) : NodeRef → Prop
  | mk {r : NodeRef} (closed : ∀ c ∈ f.children r, c.index < f.size)
      (ends : ∀ c ∈ f.children r, Grounded f c) : Grounded f r

namespace Grounded

theorem closed (h : f.Grounded r) : ∀ c ∈ f.children r, c.index < f.size := by
  cases h with
  | mk closed _ => exact closed

theorem children (h : f.Grounded r) : ∀ c ∈ f.children r, f.Grounded c := by
  cases h with
  | mk _ ends => exact ends

theorem of_below (h : f.Grounded q) (below : f.Below q r) : f.Grounded r := by
  induction below with
  | refl => exact h
  | tail _ hc ih => exact ih.children _ hc

/-- What stands below a node that is there is there. -/
theorem lt_size_of_below (h : f.Grounded r) (inside : r.index < f.size) (below : f.Below r s) : s.index < f.size := by
  rcases Relation.ReflTransGen.cases_tail below with rfl | ⟨q, above, hs⟩
  · exact inside
  · exact (h.of_below above).closed s hs

theorem congr (h : f.Grounded r) (size : f.size ≤ g.size) (same : ∀ s, f.Below r s → g.node s = f.node s) :
    g.Grounded r := by
  induction h with
  | @mk r inside _ ih =>
    have subs : g.children r = f.children r := by rw [Forest.children, same r .refl, Forest.children]
    refine .mk (fun c hc => ?_) fun c hc => ?_ <;> rw [subs] at hc
    · exact Nat.lt_of_lt_of_le (inside c hc) size
    · exact ih c hc fun s below => same s (.head hc below)

/-- A node is not below its own sub-nodes. -/
theorem not_below (h : f.Grounded q) : ∀ c ∈ f.children q, ¬f.Below c q := by
  induction h with
  | @mk q _ _ ih =>
    intro c hc below
    rcases Relation.ReflTransGen.cases_head below with rfl | ⟨d, hd, below⟩
    · exact ih c hc c hc .refl
    · exact ih c hc d hd (below.tail hc)

/-- There are no more levels below a node than there are records. -/
theorem shallow (h : f.Grounded r) (nonempty : 0 < f.size) : f.Shallow f.size r := by
  have new {r : NodeRef} {above : List NodeRef} (ends : ∀ s ∈ above, f.Grounded s)
      (below : ∀ s ∈ above, ∃ c ∈ f.children s, f.Below c r) : r ∉ above := fun hr => by
    obtain ⟨c, hc, down⟩ := below r hr
    exact (ends r hr).not_below c hc down
  -- The nodes passed on the way down are different, which bounds their number.
  have passed (n : Nat) (r : NodeRef) (above : List NodeRef) (nodup : above.Nodup)
      (ends : ∀ s ∈ r :: above, f.Grounded s) (inside : ∀ s ∈ r :: above, s.index < f.size)
      (below : ∀ s ∈ above, ∃ c ∈ f.children s, f.Below c r) (room : f.size ≤ above.length + n) :
      f.Shallow n r := by
    induction n generalizing r above with
    | zero =>
      have once := List.nodup_cons.mpr ⟨new (List.forall_mem_cons.mp ends).2 below, nodup⟩
      have indices : ((r :: above).map NodeRef.index).Nodup :=
        List.Nodup.map (fun r s eq => NodeRef.index_eq_iff.mp eq) once
      have subset : (r :: above).map NodeRef.index ⊆ List.range f.size := by
        intro i hi
        obtain ⟨s, hs, rfl⟩ := List.mem_map.mp hi
        exact List.mem_range.mpr (inside s hs)
      have := (List.subperm_of_subset indices subset).length_le
      simp only [List.length_map, List.length_cons, List.length_range] at this
      omega
    | succ n ih =>
      intro c hc
      have once := List.nodup_cons.mpr ⟨new (List.forall_mem_cons.mp ends).2 below, nodup⟩
      have here := ends r List.mem_cons_self
      refine ih c (r :: above) once (List.forall_mem_cons.mpr ⟨here.children c hc, ends⟩)
        (List.forall_mem_cons.mpr ⟨here.closed c hc, inside⟩)
        (List.forall_mem_cons.mpr ⟨⟨c, hc, .refl⟩, fun s hs => ?_⟩)
        (by rw [List.length_cons]; omega)
      obtain ⟨d, hd, down⟩ := below s hs
      exact ⟨d, hd, down.tail hc⟩
  by_cases inside : r.index < f.size
  · exact passed f.size r [] .nil (by simpa using h) (by simpa using inside) (by simp) (by simp)
  · obtain ⟨n, hn⟩ := Nat.exists_eq_succ_of_ne_zero (Nat.ne_of_gt nonempty)
    rw [hn]
    intro c hc
    rw [f.children_of_size_le (Nat.le_of_not_lt inside)] at hc
    cases hc

/-- The tree under a node is its layer around the trees under its sub-nodes. -/
theorem tree_eq (h : f.Grounded r) : f.tree r = .mk r ((f.node r).map f.tree) := by
  by_cases nonempty : 0 < f.size
  · have deeper : f.treeWithin f.size r = f.treeWithin (f.size + 1) r :=
      treeWithin_eq (h.shallow nonempty) (Nat.le_succ _)
    rw [tree, deeper, treeWithin]
    rfl
  · have none : f.size = 0 := Nat.eq_zero_of_not_pos nonempty
    rw [tree, none, f.node_of_size_le (by omega)]
    rfl

/-- A tree stays the same in a store that keeps all nodes below. -/
theorem tree_congr (h : f.Grounded r) (size : f.size ≤ g.size)
    (same : ∀ s, f.Below r s → g.node s = f.node s) : g.tree r = f.tree r := by
  by_cases nonempty : 0 < f.size
  · rw [tree, tree, treeWithin_congr same]
    exact (treeWithin_eq (h.shallow nonempty) size).symm
  · have here : f.node r = .root [] := f.node_of_size_le (by omega)
    rw [(h.congr size same).tree_eq, h.tree_eq, same r .refl, here]
    rfl

end Grounded

namespace Coherent

variable (h : f.Coherent)

include h

/-- A node that is reached has a record. -/
theorem lt_size (reached : f.Reached r) : r.index < f.size := by
  rcases reached.cases with rfl | ⟨q, above, hc⟩
  · exact h.nonempty
  · refine Nat.lt_of_not_le fun outside => ?_
    have link := h.link above hc
    rw [f.parent?_of_size_le outside] at link
    cases link

/-- A node is reached along one path only. -/
theorem path_unique {p p' : List Nat} (path : f.Path p r) (path' : f.Path p' r) : p = p' := by
  induction path generalizing p' with
  | root =>
    cases path' with
    | root => rfl
    | step above hi =>
      have link := h.link ⟨_, above⟩ (List.mem_of_getElem? hi)
      rw [h.root] at link
      cases link
  | @step p i q c above hi ih =>
    have link := h.link ⟨_, above⟩ (List.mem_of_getElem? hi)
    generalize hc : c = c' at path'
    cases path' with
    | root =>
      rw [hc, h.root] at link
      cases link
    | @step p' i' q' _ above' hi' =>
      subst hc
      have link' := h.link ⟨_, above'⟩ (List.mem_of_getElem? hi')
      obtain rfl : q = q' := Option.some.inj (link.symm.trans link')
      obtain rfl := ih above'
      obtain ⟨inside, rfl⟩ := List.getElem?_eq_some_iff.mp hi
      obtain ⟨inside', eq⟩ := List.getElem?_eq_some_iff.mp hi'
      have same : i = i' := ((List.Nodup.getElem_inj_iff (h.once ⟨_, above⟩)).mp eq).symm
      rw [same]

/-! ## Trees -/

omit h in
/-- A node is not below its own sub-nodes. -/
theorem not_below_of_mem_children (grounded : WellFounded fun c q => c ∈ f.children q)
    (hc : c ∈ f.children q) : ¬f.Below c q := by
  intro below
  have down : Relation.TransGen (fun c q => c ∈ f.children q) q q :=
    Relation.TransGen.tail' (Relation.reflTransGen_swap.mp below) hc
  exact grounded.transGen.irrefl.irrefl q down

/-- Every tree has an end. -/
theorem grounded_node (r : NodeRef) : f.Grounded r := by
  induction r using h.grounded.induction with
  | _ r ih => exact .mk (fun _ => h.closed) ih

/-- There are no more levels below a node than there are records. -/
theorem shallow (r : NodeRef) : f.Shallow f.size r := (h.grounded_node r).shallow h.nonempty

/-- The tree under a node is its layer around the trees under its sub-nodes. -/
theorem tree_eq (r : NodeRef) : f.tree r = .mk r ((f.node r).map f.tree) := (h.grounded_node r).tree_eq

theorem tag_tree (r : NodeRef) : (f.tree r).tag = r := by
  rw [h.tree_eq]
  rfl

/-- The sub-trees are the trees under the sub-nodes. -/
theorem children_tree (r : NodeRef) : (f.tree r).children = (f.children r).map f.tree := by
  rw [h.tree_eq r, Tree.children, Tree.node, Node.children_map]
  rfl

/-- A tree stays the same in a store that keeps all nodes below. -/
theorem tree_congr (size : f.size ≤ g.size) (same : ∀ s, f.Below r s → g.node s = f.node s) :
    g.tree r = f.tree r := (h.grounded_node r).tree_congr size same

/-! ## Above and below -/

/-- Nothing is below two sub-nodes of one node. -/
theorem eq_of_below {d : NodeRef} (reached : f.Reached q) (hc : c ∈ f.children q)
    (hd : d ∈ f.children q) (below : f.Below c r) (below' : f.Below d r) : c = d := by
  obtain ⟨p, path⟩ := reached
  obtain ⟨i, hi⟩ := List.getElem?_of_mem hc
  obtain ⟨j, hj⟩ := List.getElem?_of_mem hd
  obtain ⟨t, one⟩ := (path.step hi).extend below
  obtain ⟨t', other⟩ := (path.step hj).extend below'
  have same := h.path_unique one other
  simp only [List.append_assoc, List.append_cancel_left_eq, List.singleton_append,
    List.cons.injEq] at same
  rw [same.1, hj] at hi
  exact (Option.some.inj hi).symm

/-- A sub-node is not the node that lists it. -/
theorem ne_of_mem_children (hc : c ∈ f.children q) : c ≠ q := by
  intro eq
  exact not_below_of_mem_children h.grounded hc (eq ▸ .refl)

/-- The root is listed by no node that is reached. -/
theorem root_ne_of_mem_children (reached : f.Reached q) (hc : c ∈ f.children q) :
    c ≠ Forest.root := by
  rintro rfl
  have link := h.link reached hc
  rw [h.root] at link
  cases link

/-- A link leads to a node that lists the node. -/
theorem mem_children_of_parent? (reached : f.Reached c) (link : f.parent? c = some q) :
    f.Reached q ∧ c ∈ f.children q := by
  rcases reached.cases with rfl | ⟨q', above, hc⟩
  · rw [h.root] at link
    cases link
  · have link' := h.link above hc
    obtain rfl : q' = q := Option.some.inj (link'.symm.trans link)
    exact ⟨above, hc⟩

/-- The links lead upwards only. -/
theorem below_of_mem_ancestorsWithin {n : Nat} (reached : f.Reached r)
    (hs : s ∈ f.ancestorsWithin n r) : f.Below s r := by
  induction n generalizing r with
  | zero => cases hs
  | succ n ih =>
    rw [ancestorsWithin] at hs
    cases link : f.parent? r with
    | none =>
      rw [link] at hs
      cases hs
    | some q =>
      rw [link] at hs
      obtain ⟨above, hr⟩ := h.mem_children_of_parent? reached link
      rcases List.mem_cons.mp hs with rfl | hs
      · exact .single hr
      · exact (ih above hs).tail hr

/-- A path is shorter than there are levels. -/
theorem path_length_lt {p : List Nat} (path : f.Path p r) : p.length < f.size := by
  have within : ∀ n, f.Shallow n Forest.root → p.length < n ∧ f.Shallow (n - p.length) r := by
    induction path with
    | root =>
      intro n shallow
      cases n with
      | zero => cases shallow
      | succ n => exact ⟨Nat.succ_pos n, shallow⟩
    | @step p i q c above hi ih =>
      intro n shallow
      obtain ⟨lt, rest⟩ := ih n shallow
      obtain ⟨k, hk⟩ := Nat.exists_eq_succ_of_ne_zero (Nat.sub_ne_zero_of_lt lt)
      rw [hk] at rest
      have below := rest c (List.mem_of_getElem? hi)
      rw [List.length_append, List.length_singleton, show n - (p.length + 1) = k by omega]
      refine ⟨?_, below⟩
      cases k with
      | zero => cases below
      | succ k => omega
  exact (within f.size (h.shallow _)).1

/-- The links lead to every node above. -/
theorem mem_ancestors (reached : f.Reached s) (below : f.Below s r) :
    r = s ∨ s ∈ f.ancestors r := by
  have within {n : Nat} {p : List Nat} (path : f.Path p r) (deep : p.length ≤ n) :
      r = s ∨ s ∈ f.ancestorsWithin n r := by
    induction below generalizing n p with
    | refl => exact .inl rfl
    | @tail q c above hc ih =>
      have reached' := reached.below above
      have link := h.link reached' hc
      obtain ⟨p', path'⟩ := reached'
      obtain ⟨i, hi⟩ := List.getElem?_of_mem hc
      have length := congrArg List.length (h.path_unique path (path'.step hi))
      simp only [List.length_append, List.length_singleton] at length
      cases n with
      | zero => omega
      | succ n =>
        right
        rw [ancestorsWithin, link]
        rcases ih (n := n) path' (by omega) with rfl | hs
        · exact List.mem_cons_self
        · exact List.mem_cons_of_mem _ hs
  obtain ⟨p, path⟩ := reached.below below
  exact within path (Nat.le_of_lt (h.path_length_lt path))

end Coherent

/-! ## Grafts -/

/-- The store `g` comes from `f` by a change of the node `b` and by new records. -/
structure Grafted (f g : Forest) (b : NodeRef) : Prop where
  site : f.Reached b
  size : f.size ≤ g.size
  root : g.parent? Forest.root = none
  /-- The other nodes stay. -/
  node : ∀ {r}, r.index < f.size → r ≠ b → g.node r = f.node r
  /-- The node `b` and the new ones list new nodes and such that stood below `b`. -/
  parts : ∀ {q}, q = b ∨ f.size ≤ q.index → ∀ c ∈ g.children q,
    f.size ≤ c.index ∨ c ≠ b ∧ f.Below b c
  /-- A new node has its number after its sub-nodes. -/
  order : ∀ {q}, f.size ≤ q.index → ∀ c ∈ g.children q, c.index < q.index
  /-- Sub-nodes have records. -/
  closed : ∀ {q}, q = b ∨ f.size ≤ q.index → ∀ c ∈ g.children q, c.index < g.size
  link : ∀ {q}, q = b ∨ f.size ≤ q.index → ∀ c ∈ g.children q, g.parent? c = some q
  once : ∀ {q}, q = b ∨ f.size ≤ q.index → (g.children q).Nodup
  /-- The other nodes keep their sub-nodes. -/
  kept : ∀ {q c}, q.index < f.size → q ≠ b → f.Reached q → g.Reached q → c ∈ f.children q →
    g.parent? c = some q
  /-- The fingerprints above `b` are forgotten, and no other is remembered anew. -/
  cache : ∀ {r}, f.Reached r ∨ f.size ≤ r.index →
    g.cache? r = none ∨ g.cache? r = f.cache? r ∧ r.index < f.size ∧ ¬f.Below r b

namespace Grafted

variable (graft : Grafted f g b)

include graft

/-- What is reached is new or was reached before. -/
theorem reached (reached : g.Reached r) : f.size ≤ r.index ∨ f.Reached r := by
  obtain ⟨p, path⟩ := reached
  induction path with
  | root => exact .inr .root
  | @step p i q c above hi ih =>
    have hc := List.mem_of_getElem? hi
    by_cases site : q = b ∨ f.size ≤ q.index
    · rcases graft.parts site c hc with fresh | ⟨_, below⟩
      · exact .inl fresh
      · exact .inr (graft.site.below below)
    · simp only [not_or, Nat.not_le] at site
      have old : f.Reached q := ih.resolve_left (by omega)
      rw [children, graft.node site.2 site.1] at hc
      exact .inr (old.child hc)

variable (h : f.Coherent)

include h

/-- A node above or beside `b` is still reached. -/
theorem reached_of_not_below (reached : f.Reached r) (outside : f.Below b r → r = b) :
    g.Reached r := by
  obtain ⟨p, path⟩ := reached
  induction path with
  | root => exact .root
  | @step p i q c above hi ih =>
    have hc := List.mem_of_getElem? hi
    have reached : f.Reached q := ⟨_, above⟩
    have notSite : ¬f.Below b q := by
      intro below
      have eq := outside (below.tail hc)
      rw [eq] at hc
      exact Coherent.not_below_of_mem_children h.grounded hc below
    have ne : q ≠ b := by
      rintro rfl
      exact notSite .refl
    have up := ih fun below => absurd below notSite
    refine up.child ?_
    rw [children, graft.node (h.lt_size reached) ne]
    exact hc

/-- A tree that does not contain `b` stays. -/
theorem tree_eq (old : r.index < f.size) (outside : ¬f.Below r b) : g.tree r = f.tree r := by
  refine h.tree_congr graft.size fun s below => graft.node ?_ ?_
  · cases below with
    | refl => exact old
    | tail _ hc => exact h.closed hc
  · rintro rfl
    exact outside below

/-- No node stands below itself: the new ones stand between `b` and what was below `b`. -/
theorem grounded : WellFounded fun c q => c ∈ g.children q := by
  -- What was strictly below `b` keeps its sub-nodes.
  have below : ∀ r, r ≠ b → f.Below b r → Acc (fun c q => c ∈ g.children q) r := by
    intro r
    induction r using h.grounded.induction with
    | _ r ih =>
      intro ne below
      refine .intro r fun c hc => ?_
      have old : r.index < f.size := h.lt_size (graft.site.below below)
      rw [children, graft.node old ne] at hc
      refine ih c hc ?_ (below.tail hc)
      rintro rfl
      exact Coherent.not_below_of_mem_children h.grounded hc below
  have fresh : ∀ n, ∀ r : NodeRef, f.size ≤ r.index → r.index < n →
      Acc (fun c q => c ∈ g.children q) r := by
    intro n
    induction n with
    | zero =>
      intro r _ impossible
      omega
    | succ n ih =>
      intro r new lt
      refine .intro r fun c hc => ?_
      have order := graft.order new c hc
      rcases graft.parts (.inr new) c hc with new' | ⟨ne, down⟩
      · exact ih c new' (by omega)
      · exact below c ne down
  refine ⟨fun r => ?_⟩
  induction r using h.grounded.induction with
  | _ r ih =>
    by_cases new : f.size ≤ r.index
    · exact fresh (r.index + 1) r new (Nat.lt_succ_self _)
    · refine .intro r fun c hc => ?_
      by_cases site : r = b
      · rcases graft.parts (.inl site) c hc with new' | ⟨ne, down⟩
        · exact fresh (c.index + 1) c new' (Nat.lt_succ_self _)
        · exact below c ne down
      · rw [children, graft.node (by omega) site] at hc
        exact ih c hc

/-- A graft keeps the store coherent. -/
theorem coherent : g.Coherent where
  nonempty := Nat.lt_of_lt_of_le h.nonempty graft.size
  closed {q c} hc := by
    by_cases site : q = b ∨ f.size ≤ q.index
    · exact graft.closed site c hc
    · simp only [not_or, Nat.not_le] at site
      rw [children, graft.node site.2 site.1] at hc
      exact Nat.lt_of_lt_of_le (h.closed hc) graft.size
  grounded := graft.grounded h
  root := graft.root
  link {q c} reached hc := by
    by_cases site : q = b ∨ f.size ≤ q.index
    · exact graft.link site c hc
    · simp only [not_or, Nat.not_le] at site
      have old : f.Reached q := (graft.reached reached).resolve_left (by omega)
      rw [children, graft.node site.2 site.1] at hc
      exact graft.kept site.2 site.1 old reached hc
  once {q} reached := by
    by_cases site : q = b ∨ f.size ≤ q.index
    · exact graft.once site
    · simp only [not_or, Nat.not_le] at site
      have old : f.Reached q := (graft.reached reached).resolve_left (by omega)
      rw [children, graft.node site.2 site.1]
      exact h.once old
  cache {r p} reached remembered := by
    rcases graft.cache (graft.reached reached).symm with none | ⟨same, old, outside⟩
    · rw [none] at remembered
      cases remembered
    · have oldReached : f.Reached r := (graft.reached reached).resolve_left (by omega)
      rw [graft.tree_eq h old outside]
      exact h.cache oldReached (same.symm.trans remembered)

end Grafted

end SqlFold.Forest
