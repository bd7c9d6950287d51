import SqlFold.Folding.Basic
import SqlFold.Proofs.Cover.Clauses
import SqlFold.Proofs.Store.Coherence
import SqlFold.Proofs.Traversal

/-!
# Putting a fold into a store

`Folding.applyFold` makes records for the new tables of a fold, one for its node, and splices the
node into the branch. `Coherent.applyFold_run` says that this succeeds on a coherent store for every
fold that covers what it takes, and what comes out of it: a graft at the branch (`Folded`).
-/

namespace SqlFold

variable {α : Type}

/-- The sibling that becomes a sub-node. -/
def Origin.sibling? : Origin α → Option α
  | .sibling a => some a
  | .newTable _ => none

/-- The siblings among the sub-nodes stand in the order in which they are taken. -/
theorem Rule.MatchesAll.siblings_sublist {view : α → Node α} {ps : List (Piece (Origin α))}
    {as : List α} (h : MatchesAll view ps as) :
    ((Piece.children ps).filterMap Origin.sibling?).Sublist as := by
  induction h with
  | nil => exact .refl _
  | cons first _ ih =>
    cases first with
    | leaf _ => exact ih.cons _
    | name _ => exact ih.cons _
    | sibling a => exact ih.cons_cons _
    | table _ => exact ih.cons _

namespace Rule.Covers

variable {view : α → Node α} {focus : Focus α} {fold : Fold α} {back ahead : List α}

/-- What is taken stands in the row between what is left on either side. -/
theorem row (covers : Covers view focus fold back ahead) :
    focus.left.reverse ++ focus.here :: focus.right =
      fold.left.reverse ++ (back.reverse ++ focus.here :: ahead) ++ fold.right := by
  rw [covers.left, covers.right]
  simp

/-- The siblings among the sub-nodes are taken, in their order. -/
theorem siblings_sublist (covers : Covers view focus fold back ahead) :
    (fold.node.children.filterMap Origin.sibling?).Sublist (back.reverse ++ focus.here :: ahead) := by
  obtain ⟨ps, written, matched⟩ := covers.written
  rw [← written.children]
  exact matched.siblings_sublist

end Rule.Covers

namespace Forest

open Folding

variable {f g k : Forest} {r s b : NodeRef}

/-! ## New tables -/

/-- The store `g` is `f` with more records, which list nothing. -/
structure Tabled (f g : Forest) : Prop where
  size : f.size ≤ g.size
  stage : g.stage = f.stage
  source : g.source = f.source
  node : ∀ {r}, r.index < f.size → g.node r = f.node r
  parent : ∀ r, g.parent? r = f.parent? r
  cache : ∀ r, g.cache? r = f.cache? r
  listless : ∀ {r}, f.size ≤ r.index → g.children r = []

/-- The reference that stands for an origin: the sibling itself or a record with the new table. -/
inductive Placed (f g : Forest) : Origin NodeRef → NodeRef → Prop
  | sibling (r : NodeRef) : Placed f g (.sibling r) r
  | table {name : TableName} {r : NodeRef} : f.size ≤ r.index → r.index < g.size →
      g.node r = .table name → Placed f g (.newTable name) r

namespace Tabled

theorem refl (f : Forest) : Tabled f f :=
  ⟨Nat.le_refl _, rfl, rfl, fun _ => rfl, fun _ => rfl, fun _ => rfl,
    fun outside => f.children_of_size_le outside⟩

theorem trans (h : Tabled f g) (h' : Tabled g k) : Tabled f k where
  size := Nat.le_trans h.size h'.size
  stage := h'.stage.trans h.stage
  source := h'.source.trans h.source
  node old := (h'.node (Nat.lt_of_lt_of_le old h.size)).trans (h.node old)
  parent r := (h'.parent r).trans (h.parent r)
  cache r := (h'.cache r).trans (h.cache r)
  listless {r} new := by
    by_cases old : r.index < g.size
    · rw [children, h'.node old]
      exact h.listless new
    · exact h'.listless (Nat.le_of_not_lt old)

/-- One more table. -/
theorem inserted (f : Forest) (name : TableName) : Tabled f (f.inserted (.table name)) where
  size := by simp
  stage := by simp
  source := by simp
  node {r} old := by
    rw [node_inserted, if_neg (Nat.ne_of_lt old)]
  parent r := by
    rw [parent?_inserted, if_neg (by simp)]
  cache r := by simp
  listless {r} new := by
    rw [children, node_inserted]
    split
    · simp
    · exact f.children_of_size_le new

end Tabled

/-- What was placed stays where it is. -/
theorem Placed.later {o : Origin NodeRef} (h : Placed f g o r) (later : Tabled g k) :
    Placed f k o r := by
  cases h with
  | sibling r => exact .sibling r
  | table new inside node =>
    exact .table new (Nat.lt_of_lt_of_le inside later.size) ((later.node inside).trans node)

/-- Every reference stands for an origin. -/
theorem Placed.exists_of_mem {os : List (Origin NodeRef)} {rs : List NodeRef}
    (h : List.Forall₂ (Placed f g) os rs) (hr : r ∈ rs) : ∃ o ∈ os, Placed f g o r := by
  induction h with
  | nil => cases hr
  | @cons o r' os rs first _ ih =>
    rcases List.mem_cons.mp hr with rfl | hr
    · exact ⟨o, List.mem_cons_self, first⟩
    · obtain ⟨o', ho, placed⟩ := ih hr
      exact ⟨o', List.mem_cons_of_mem _ ho, placed⟩

/-- A placement succeeds. -/
theorem place_total (o : Origin NodeRef) (f : Forest) : ∃ r g, place o f = .ok r g := by
  cases o with
  | sibling r => exact ⟨r, f, rfl⟩
  | newTable name => exact ⟨_, _, rfl⟩

/-- One placement. -/
theorem place_run {o : Origin NodeRef} (h : place o f = .ok r g) :
    Tabled f g ∧ Placed f g o r ∧ (o.sibling? = some r ∨ o.sibling? = none ∧ r = ⟨f.size⟩) := by
  cases o with
  | sibling a =>
    cases h
    exact ⟨.refl f, .sibling r, .inl rfl⟩
  | newTable name =>
    cases h
    refine ⟨.inserted f name, .table (Nat.le_refl _) (by simp) ?_, .inr ⟨rfl, rfl⟩⟩
    rw [node_inserted, if_pos rfl]

/-- Placements in turn add tables and give every origin its own reference. -/
theorem places_run {os : List (Origin NodeRef)} {rs : List NodeRef} (visits : Visits place os f rs g) :
    Tabled f g ∧ List.Forall₂ (Placed f g) os rs ∧
      ((os.filterMap Origin.sibling?).Nodup →
        (∀ r ∈ os.filterMap Origin.sibling?, r.index < f.size) → rs.Nodup) ∧
      ∀ r ∈ rs, r ∈ os.filterMap Origin.sibling? ∨ f.size ≤ r.index := by
  induction visits with
  | nil f => exact ⟨.refl f, .nil, fun _ _ => .nil, by simp⟩
  | @cons o os r rs f g k first _ ih =>
    obtain ⟨later, placed, distinct, sources⟩ := ih
    obtain ⟨tabled, here, origin⟩ := place_run first
    refine ⟨tabled.trans later, .cons (here.later later) ?_, ?_, ?_⟩
    · refine placed.imp fun o r h => ?_
      cases h with
      | sibling r => exact .sibling r
      | table new inside node => exact .table (Nat.le_trans tabled.size new) inside node
    · intro nodup old
      rcases origin with some | ⟨none, rfl⟩
      · rw [List.filterMap_cons_some some] at nodup old
        obtain ⟨new, nodup⟩ := List.nodup_cons.mp nodup
        obtain ⟨oldHere, old⟩ := List.forall_mem_cons.mp old
        refine List.nodup_cons.mpr ⟨fun hr => ?_, distinct nodup fun s hs =>
          Nat.lt_of_lt_of_le (old s hs) tabled.size⟩
        rcases sources r hr with again | late
        · exact new again
        · have := tabled.size
          omega
      · rw [List.filterMap_cons_none none] at nodup old
        have table : g.size = f.size + 1 := by
          cases o with
          | sibling a => cases none
          | newTable name =>
            cases first
            simp
        refine List.nodup_cons.mpr ⟨fun hr => ?_, distinct nodup fun s hs =>
          Nat.lt_of_lt_of_le (old s hs) tabled.size⟩
        rcases sources _ hr with again | late
        · have : f.size < f.size := old _ again
          omega
        · have late : g.size ≤ f.size := late
          omega
    · intro s hs
      rcases List.mem_cons.mp hs with rfl | hs
      · rcases origin with some | ⟨_, rfl⟩
        · rw [List.filterMap_cons_some some]
          exact .inl List.mem_cons_self
        · exact .inr (Nat.le_refl _)
      · rcases sources s hs with again | late
        · refine .inl ?_
          rcases origin with some | ⟨none, _⟩
          · rw [List.filterMap_cons_some some]
            exact List.mem_cons_of_mem _ again
          · rw [List.filterMap_cons_none none]
            exact again
        · exact .inr (Nat.le_trans tabled.size late)

/-! ## The splice -/

/-- The store `g` is `f` with the node of a fold at the branch `b`, in the record `new`. -/
structure Folded (f g : Forest) (b : NodeRef) (fold : Fold NodeRef) (new : NodeRef) : Prop where
  graft : Grafted f g b
  stage : g.stage = f.stage
  source : g.source = f.source
  fresh : f.size ≤ new.index
  branch : g.node b = (f.node b).withBranch (fold.left.reverse ++ new :: fold.right)
  shape : (g.node new).shape = fold.node.shape
  placed : List.Forall₂ (Placed f g) fold.node.children (g.node new).children

/-- A longer way up passes what a shorter one does. -/
theorem ancestorsWithin_subset {n m : Nat} (le : n ≤ m) :
    f.ancestorsWithin n r ⊆ f.ancestorsWithin m r := by
  induction n generalizing m r with
  | zero => exact List.nil_subset _
  | succ n ih =>
    cases m with
    | zero => omega
    | succ m =>
      rw [ancestorsWithin, ancestorsWithin]
      cases f.parent? r with
      | none => exact List.nil_subset _
      | some q => exact List.cons_subset_cons q (ih (by omega))

/-- The way up stays if the links of the nodes on it do. -/
theorem Coherent.ancestors_subset (h : f.Coherent) (reached : f.Reached b) (size : f.size ≤ g.size)
    (same : ∀ s, f.Below s b → g.parent? s = f.parent? s) : f.ancestors b ⊆ g.ancestors b := by
  have eq : g.ancestorsWithin g.size b = f.ancestorsWithin g.size b := by
    refine f.ancestorsWithin_congr fun s hs => same s ?_
    rcases List.mem_cons.mp hs with rfl | hs
    · exact .refl
    · exact h.below_of_mem_ancestorsWithin reached hs
  rw [ancestors, ancestors, eq]
  exact ancestorsWithin_subset size

/-- A node stands below another and is not this node. -/
abbrev StrictlyBelow (f : Forest) (b r : NodeRef) : Prop := r ≠ b ∧ f.Below b r

/-- The store `g` is `f` with more records. The new ones list new nodes and such that are `adopted`,
and only the links of those have changed. -/
structure Grown (f g : Forest) (adopted : NodeRef → Prop) : Prop where
  size : f.size ≤ g.size
  stage : g.stage = f.stage
  source : g.source = f.source
  node : ∀ {r}, r.index < f.size → g.node r = f.node r
  parent : ∀ {r}, r.index < f.size → g.parent? r = f.parent? r ∨ adopted r
  cache : ∀ r, g.cache? r = f.cache? r
  parts : ∀ {q}, f.size ≤ q.index → ∀ c ∈ g.children q, f.size ≤ c.index ∨ adopted c
  order : ∀ {q}, f.size ≤ q.index → ∀ c ∈ g.children q, c.index < q.index
  link : ∀ {q}, f.size ≤ q.index → ∀ c ∈ g.children q, g.parent? c = some q
  linked : ∀ {r p}, g.parent? r = some p → f.parent? r = some p ∨ f.size ≤ p.index ∧ r ∈ g.children p
  once : ∀ {q}, f.size ≤ q.index → (g.children q).Nodup

/-- New tables are new records. -/
theorem Tabled.grown (h : Tabled f g) (adopted : NodeRef → Prop) : Grown f g adopted where
  size := h.size
  stage := h.stage
  source := h.source
  node := h.node
  parent _ := .inl (h.parent _)
  cache := h.cache
  parts new c hc := by rw [h.listless new] at hc; cases hc
  order new c hc := by rw [h.listless new] at hc; cases hc
  link new c hc := by rw [h.listless new] at hc; cases hc
  linked link := .inl ((h.parent _).symm.trans link)
  once new := by rw [h.listless new]; exact .nil

/-- What stands above a node in a coherent store is not strictly below it. -/
theorem Coherent.not_above (h : f.Coherent) (below : f.Below s b) (below' : f.Below b s) :
    s = b := by
  rcases Relation.ReflTransGen.cases_tail below with eq | ⟨q, above, hb⟩
  · exact eq.symm
  · exact absurd (below'.trans above) (not_below_of_mem_children h.grounded hb)

/-- The links above `b` are not changed. -/
theorem Grown.parent_above (grown : Grown f g (f.StrictlyBelow b)) (h : f.Coherent) (reached : f.Reached b)
    (above : f.Below s b) : g.parent? s = f.parent? s := by
  have old : s.index < f.size := by
    rcases Relation.ReflTransGen.cases_head above with rfl | ⟨c, hc, _⟩
    · exact h.lt_size reached
    · exact f.lt_size_of_mem_children hc
  rcases grown.parent old with same | ⟨ne, below⟩
  · exact same
  · exact absurd (h.not_above above below) ne

/-- What the views of a store are after the node `m` was put into the record `new` and made a
sub-node of `b`, which becomes `after` and gives up the sub-nodes `taken`. -/
structure Spliced (f g k : Forest) (b new : NodeRef) (m after : Node NodeRef)
    (taken : List NodeRef) : Prop where
  fresh : new = ⟨g.size⟩
  size : k.size = g.size + 1
  stage : k.stage = g.stage
  source : k.source = g.source
  node : ∀ s, k.node s = if s = b then after else if s = new then m else g.node s
  parent : ∀ s, k.parent? s =
    if s = new then some b
    else if s ∈ m.children ∧ s.index < g.size then some new
    else if s ∈ taken ∧ g.parent? s = some b then none
    else g.parent? s
  cache : ∀ s, k.cache? s = none ∨ k.cache? s = g.cache? s
  forgets : ∀ s, s = b ∨ s ∈ f.ancestors b → k.cache? s = none

/-- A splice is a graft, if the new node takes over what stood below `b` and nothing that is listed
elsewhere. -/
theorem Spliced.grafted {new : NodeRef} {m after : Node NodeRef} {taken : List NodeRef}
    (spliced : Spliced f g k b new m after taken) (h : f.Coherent) (reached : f.Reached b)
    (grown : Grown f g (f.StrictlyBelow b))
    (subs : ∀ c ∈ m.children, f.size ≤ c.index ∧ c.index < g.size ∨ c ≠ b ∧ f.Below b c)
    (once : m.children.Nodup)
    (unlisted : ∀ c ∈ m.children, ∀ q : NodeRef, f.size ≤ q.index → c ∉ g.children q)
    (rest : ∀ c ∈ after.children, c = new ∨ c ∈ f.children b ∧ g.parent? c = some b ∧
      c ∉ m.children ∧ c ∉ taken)
    (onceAfter : after.children.Nodup)
    (kept : ∀ {q c}, q ≠ b → f.Reached q → k.Reached q → c ∈ f.children q →
      c ∉ m.children ∧ g.parent? c = some q) :
    Grafted f k b := by
  have fresh : new.index = g.size := by rw [spliced.fresh]
  have inside : b.index < f.size := h.lt_size reached
  have size := grown.size
  have newSize : f.size ≤ new.index := by rw [fresh]; exact size
  have ne : new ≠ b := by
    rintro rfl
    omega
  have old : ∀ {c}, c ≠ b ∧ f.Below b c → c.index < f.size := fun hc =>
    h.lt_size (reached.below hc.2)
  have subsOld : ∀ c ∈ m.children, c.index < g.size := by
    intro c hc
    rcases subs c hc with ⟨_, lt⟩ | below
    · exact lt
    · exact Nat.lt_of_lt_of_le (old below) size
  have nodeNew : k.node new = m := by rw [spliced.node, if_neg ne, if_pos rfl]
  have nodeB : k.node b = after := by rw [spliced.node, if_pos rfl]
  have other : ∀ {q : NodeRef}, q ≠ b → q ≠ new → k.node q = g.node q := fun hb hn => by
    rw [spliced.node, if_neg hb, if_neg hn]
  have strictly : ∀ c ∈ f.children b, c ≠ b ∧ f.Below b c := fun c hc =>
    ⟨h.ne_of_mem_children hc, .single hc⟩
  -- The new records of the store before the splice keep their sub-nodes.
  have link : ∀ {q}, f.size ≤ q.index → ∀ c ∈ g.children q, k.parent? c = some q := by
    intro q new' c hc
    have lt : q.index < g.size := g.lt_size_of_mem_children hc
    have order := grown.order new' c hc
    have here := grown.link new' c hc
    rw [spliced.parent, if_neg, if_neg, if_neg, here]
    · rintro ⟨_, eq⟩
      obtain rfl : q = b := Option.some.inj (here.symm.trans eq)
      omega
    · exact fun eq => unlisted c eq.1 q new' hc
    · rintro rfl
      omega
  exact {
    site := reached
    size := by rw [spliced.size]; omega
    root := by
      have notSub : Forest.root ∉ m.children := by
        intro hc
        rcases subs _ hc with ⟨new', _⟩ | below
        · have : f.size ≤ 0 := new'
          have := h.nonempty
          omega
        · obtain ⟨p, hp⟩ := reached
          rcases Relation.ReflTransGen.cases_tail below.2 with eq | ⟨q, above, hq⟩
          · exact below.1 eq
          · exact h.root_ne_of_mem_children (Reached.below ⟨p, hp⟩ above) hq rfl
      have same : g.parent? Forest.root = none := by
        rcases grown.parent (r := Forest.root) h.nonempty with same | below
        · exact same.trans h.root
        · rcases Relation.ReflTransGen.cases_tail below.2 with eq | ⟨q, above, hq⟩
          · exact absurd eq below.1
          · exact absurd rfl (h.root_ne_of_mem_children (reached.below above) hq)
      rw [spliced.parent, if_neg, if_neg (fun eq => notSub eq.1), if_neg, same]
      · rintro ⟨_, eq⟩
        rw [same] at eq
        cases eq
      · intro eq
        rw [← eq] at newSize
        have : f.size ≤ 0 := newSize
        have := h.nonempty
        omega
    node := by
      intro r lt ne'
      rw [other ne' (by rintro rfl; omega), grown.node lt]
    parts := by
      intro q site c hc
      by_cases hb : q = b
      · subst hb
        rw [children, nodeB] at hc
        rcases rest c hc with rfl | ⟨hc, _⟩
        · exact .inl newSize
        · exact .inr (strictly c hc)
      · by_cases hn : q = new
        · subst hn
          rw [children, nodeNew] at hc
          exact (subs c hc).imp_left And.left
        · rw [children, other hb hn] at hc
          exact grown.parts (site.resolve_left hb) c hc
    order := by
      intro q new' c hc
      have hb : q ≠ b := by
        rintro rfl
        omega
      by_cases hn : q = new
      · subst hn
        rw [children, nodeNew] at hc
        rw [fresh]
        exact subsOld c hc
      · rw [children, other hb hn] at hc
        exact grown.order new' c hc
    closed := by
      intro q site c hc
      rw [spliced.size]
      by_cases hb : q = b
      · subst hb
        rw [children, nodeB] at hc
        rcases rest c hc with rfl | ⟨hc, _⟩
        · omega
        · have := h.closed hc
          omega
      · by_cases hn : q = new
        · subst hn
          rw [children, nodeNew] at hc
          exact Nat.lt_succ_of_lt (subsOld c hc)
        · rw [children, other hb hn] at hc
          have new' := site.resolve_left hb
          have := grown.order new' c hc
          have := g.lt_size_of_mem_children hc
          omega
    link := by
      intro q site c hc
      by_cases hb : q = b
      · subst hb
        rw [children, nodeB] at hc
        rw [spliced.parent]
        rcases rest c hc with rfl | ⟨hc, parent, notSub, notTaken⟩
        · rw [if_pos rfl]
        · rw [if_neg, if_neg (fun eq => notSub eq.1), if_neg (fun eq => notTaken eq.1), parent]
          rintro rfl
          have := h.closed hc
          omega
      · by_cases hn : q = new
        · subst hn
          rw [children, nodeNew] at hc
          have lt := subsOld c hc
          rw [spliced.parent, if_neg, if_pos ⟨hc, lt⟩]
          rintro rfl
          omega
        · rw [children, other hb hn] at hc
          exact link (site.resolve_left hb) c hc
    once := by
      intro q site
      by_cases hb : q = b
      · subst hb
        rw [children, nodeB]
        exact onceAfter
      · by_cases hn : q = new
        · subst hn
          rw [children, nodeNew]
          exact once
        · rw [children, other hb hn]
          exact grown.once (site.resolve_left hb)
    kept := by
      intro q c lt ne' old stays hc
      obtain ⟨notSub, parent⟩ := kept ne' old stays hc
      rw [spliced.parent, if_neg, if_neg (fun eq => notSub eq.1), if_neg, parent]
      · rintro ⟨_, eq⟩
        exact ne' (Option.some.inj (parent.symm.trans eq))
      · rintro rfl
        have := h.closed hc
        omega
    cache := by
      intro r either
      rcases spliced.cache r with none | same
      · exact .inl none
      · by_cases new' : f.size ≤ r.index
        · exact .inl (same.trans ((grown.cache r).trans (f.cache?_of_size_le new')))
        · by_cases above : f.Below r b
          · exact .inl (spliced.forgets r ((h.mem_ancestors (either.resolve_right new') above).imp_left
              Eq.symm))
          · exact .inr ⟨same.trans (grown.cache r), by omega, above⟩ }

/-- A node is inserted and spliced into a branch of any store. What is there before fingerprints are forgotten. -/
theorem replace_inserted {m : Node NodeRef} {left taken right : List NodeRef} (parsing : g.stage = .parsing)
    (inside : b.index < g.size) (branch : (g.node b).branch? = some (left ++ taken ++ right)) :
    ∃ k : Forest, replace b left.length taken.length ⟨g.size⟩ (g.inserted m) = .ok () (k.forget b) ∧
      k.size = g.size + 1 ∧ k.stage = g.stage ∧ k.source = g.source ∧
      (∀ s, k.node s =
        if s = b then (g.node b).withBranch (left ++ ⟨g.size⟩ :: right) else if s = ⟨g.size⟩ then m else g.node s) ∧
      (∀ s, k.cache? s = g.cache? s) ∧
      ∀ s, k.parent? s =
        if s = ⟨g.size⟩ then some b
        else if s ∈ m.children ∧ s.index < g.size then some ⟨g.size⟩
        else if s ∈ taken ∧ g.parent? s = some b then none
        else g.parent? s := by
  have ne : b.index ≠ g.size := Nat.ne_of_lt inside
  have node : (g.inserted m).node b = g.node b := by rw [node_inserted, if_neg ne]
  obtain ⟨k, forgotten, size, nodes, caches, stage, source, parents⟩ :=
    (g.inserted m).spliced_eq_forget b ⟨g.size⟩ (left ++ taken ++ right) left.length taken.length
  have kept : (left ++ taken ++ right).take left.length ++
      ⟨g.size⟩ :: (left ++ taken ++ right).drop (left.length + taken.length) =
        left ++ ⟨g.size⟩ :: right := by
    rw [List.append_assoc, List.take_left, ← List.drop_drop, List.drop_left, List.drop_left]
  have removed : ((left ++ taken ++ right).drop left.length).take taken.length = taken := by
    rw [List.append_assoc, List.drop_left, List.take_left]
  rw [kept] at nodes
  rw [removed] at parents
  refine ⟨k, ?_, by simp [size], by simp [stage], by simp [source], fun s => ?_, fun s => ?_, fun s => ?_⟩
  · rw [replace, get_bind, stage_inserted, if_pos parsing, node, branch]
    dsimp only
    rw [if_pos (by simp only [List.length_append]; omega)]
    show EStateM.Result.ok () _ = _
    rw [forgotten]
  · rw [nodes, node, node_inserted]
    by_cases here : s = b
    · subst here
      rw [if_pos ⟨rfl, by simp; omega⟩, if_pos rfl]
    · rw [if_neg (fun eq => here eq.1), if_neg here]
      by_cases new : s = ⟨g.size⟩
      · rw [if_pos new, if_pos (congrArg NodeRef.index new)]
      · rw [if_neg new, if_neg (fun eq => new (NodeRef.index_eq_iff.mp eq))]
  · rw [caches, cache?_inserted]
  · rw [parents, size_inserted, parent?_inserted]
    by_cases new : s = ⟨g.size⟩
    · subst new
      rw [if_pos ⟨rfl, Nat.lt_succ_self _⟩, if_pos rfl]
    · rw [if_neg (fun eq => new eq.1), if_neg new]
      by_cases sub : s ∈ m.children ∧ s.index < g.size
      · rw [if_pos sub, if_pos sub, if_neg]
        rintro ⟨_, eq⟩
        exact ne (congrArg NodeRef.index (Option.some.inj eq)).symm
      · rw [if_neg sub, if_neg sub]

/-- A node is inserted and spliced in. -/
theorem replace_run {m : Node NodeRef} {left taken right : List NodeRef}
    (h : f.Coherent) (reached : f.Reached b) (grown : Grown f g (f.StrictlyBelow b))
    (parsing : f.stage = .parsing)
    (branch : (f.node b).branch? = some (left ++ taken ++ right))
    (subs : ∀ c ∈ m.children, f.size ≤ c.index ∨ c ≠ b ∧ f.Below b c) :
    ∃ k, replace b left.length taken.length ⟨g.size⟩ (g.inserted m) = .ok () k ∧
      Spliced f g k b ⟨g.size⟩ m ((f.node b).withBranch (left ++ ⟨g.size⟩ :: right)) taken := by
  have inside : b.index < f.size := h.lt_size reached
  have insideG : b.index < g.size := Nat.lt_of_lt_of_le inside grown.size
  have children : f.children b = left ++ taken ++ right := by
    rw [Forest.children, Node.children_of_branch? branch]
  have node : g.node b = f.node b := grown.node inside
  obtain ⟨k, replaced, size, stage, source, nodes, caches, parents⟩ :=
    @replace_inserted g b m left taken right (grown.stage.trans parsing) insideG (node ▸ branch)
  -- The links above the branch are not touched, so everything above is forgotten.
  have links : ∀ s, f.Below s b → k.parent? s = f.parent? s := by
    intro s above
    have old : s.index < f.size := by
      rcases Relation.ReflTransGen.cases_head above with rfl | ⟨c, hc, _⟩
      · exact inside
      · exact f.lt_size_of_mem_children hc
    have notTaken : s ∉ taken := by
      intro hs
      refine Coherent.not_below_of_mem_children h.grounded (q := b) (c := s) ?_ above
      rw [children]
      simp [hs]
    have notSub : s ∉ m.children := by
      intro hs
      rcases subs s hs with new | ⟨ne, below⟩
      · omega
      · exact ne (h.not_above above below)
    have notNew : s ≠ ⟨g.size⟩ := by
      rintro rfl
      have := grown.size
      exact absurd old (by simpa using this)
    rw [parents, if_neg notNew, if_neg (fun eq => notSub eq.1), if_neg (fun eq => notTaken eq.1),
      grown.parent_above h reached above]
  refine ⟨k.forget b, replaced, rfl, by simp [size], by simp [stage], by simp [source], fun s => ?_, fun s => ?_,
    fun s => ?_, fun s hs => ?_⟩
  · rw [node_forget, nodes, node]
  · rw [parent?_forget, parents]
  · rw [cache?_forget, caches]
    split
    · exact .inl rfl
    · exact .inr rfl
  · rw [cache?_forget, if_pos]
    refine hs.imp_right fun up => h.ancestors_subset reached ?_ links up
    rw [size]
    have := grown.size
    omega

/-- Once the new tables are there, the node of a fold is inserted and put in the place of what it covers. -/
theorem applyFold_eq {focus : Focus NodeRef} {fold : Fold NodeRef} {back ahead : List NodeRef} {m : Node NodeRef}
    (covers : Rule.Covers f.node focus fold back ahead) (placed : fold.node.mapM place f = .ok m g) :
    applyFold b focus fold f =
      replace b fold.left.reverse.length (back.reverse ++ focus.here :: ahead).length ⟨g.size⟩ (g.inserted m) := by
  have length : focus.left.length + 1 + focus.right.length - fold.left.length - fold.right.length =
      (back.reverse ++ focus.here :: ahead).length := by
    simp only [covers.left, covers.right, List.length_append, List.length_cons, List.length_reverse]
    omega
  rw [applyFold, bind_ok placed, bind_ok (show insert m g = .ok ⟨g.size⟩ (g.inserted m) from rfl)]
  simp only [length, List.length_reverse]

/-- A fold that covers what it takes is put into a coherent store. -/
theorem Coherent.applyFold_run {focus : Focus NodeRef} {fold : Fold NodeRef}
    {back ahead : List NodeRef} (h : f.Coherent) (parsing : f.stage = .parsing)
    (reached : f.Reached b)
    (branch : (f.node b).branch? = some (focus.left.reverse ++ focus.here :: focus.right))
    (covers : Rule.Covers f.node focus fold back ahead) :
    ∃ g new, applyFold b focus fold f = .ok () g ∧ Folded f g b fold new := by
  let taken := back.reverse ++ focus.here :: ahead
  rw [covers.row] at branch
  have children : f.children b = fold.left.reverse ++ taken ++ fold.right := by
    rw [Forest.children, Node.children_of_branch? branch]
  have siblings : (fold.node.children.filterMap Origin.sibling?).Sublist taken := covers.siblings_sublist
  have listed : ∀ s ∈ taken, s ∈ f.children b := by
    intro s hs
    rw [children]
    simp [hs]
  have below : ∀ s ∈ f.children b, s ≠ b ∧ f.Below b s := fun s hs =>
    ⟨h.ne_of_mem_children hs, .single hs⟩
  obtain ⟨m, g, placed, visits, shape⟩ := Node.mapM_visits fold.node (fun o _ => place_total o) f
  obtain ⟨tabled, places, distinct, sources⟩ := places_run visits
  have once : (fold.left.reverse ++ taken ++ fold.right).Nodup := children ▸ h.once reached
  have onceTaken : taken.Nodup := (List.nodup_append.mp (List.nodup_append.mp once).1).2.1
  have subs : ∀ c ∈ m.children, c ∈ taken ∨ f.size ≤ c.index := fun c hc =>
    (sources c hc).imp_left fun hs => siblings.subset hs
  obtain ⟨k, replaced, spliced⟩ := replace_run (m := m) h reached (tabled.grown _) parsing branch
    fun c hc => (subs c hc).symm.imp_right fun hs => below c (listed c hs)
  have parent : ∀ c ∈ f.children b, g.parent? c = some b := fun c hc =>
    (tabled.parent c).trans (h.link reached hc)
  have notListed : (⟨g.size⟩ : NodeRef) ∉ f.children b := fun hc => by
    have : g.size < f.size := h.closed hc
    have := tabled.size
    omega
  have outside : g.size ≠ b.index := by
    have := tabled.size
    have := h.lt_size reached
    omega
  have isBranch : (f.node b).isBranch = true := by rw [Node.isBranch, branch]; rfl
  have branchAfter := Node.branch?_withBranch (fold.left.reverse ++ ⟨g.size⟩ :: fold.right) isBranch
  have notTaken : ∀ c ∈ fold.left.reverse ++ fold.right, c ∉ taken := by
    rw [List.nodup_append] at once
    obtain ⟨onceLeft, _, apart⟩ := once
    rw [List.nodup_append] at onceLeft
    intro c hc ht
    rcases List.mem_append.mp hc with hl | hr
    · exact onceLeft.2.2 c hl c ht rfl
    · exact apart c (List.mem_append_right _ ht) c hr rfl
  have graft : Grafted f k b := by
    refine spliced.grafted h reached (tabled.grown _) (fun c hc => ?_) ?_ ?_ ?_ ?_ ?_
    · rcases subs c hc with hs | new
      · exact .inr (below c (listed c hs))
      · refine .inl ⟨new, ?_⟩
        obtain ⟨o, ho, here⟩ := Placed.exists_of_mem places hc
        cases here with
        | sibling =>
          have := h.closed (listed c (siblings.subset (List.mem_filterMap.mpr ⟨_, ho, rfl⟩)))
          omega
        | table _ lt _ => exact lt
    · exact distinct (onceTaken.sublist siblings) fun r hr => h.closed (listed r (siblings.subset hr))
    · intro c _ q new hq
      rw [tabled.listless new] at hq
      cases hq
    · intro c hc
      rw [Node.children_of_branch? branchAfter] at hc
      have either : c = ⟨g.size⟩ ∨ c ∈ fold.left.reverse ++ fold.right := by
        simp only [List.mem_append, List.mem_cons] at hc ⊢
        tauto
      refine either.imp_right fun hc => ?_
      have old : c ∈ f.children b := by
        rw [children]
        simp only [List.mem_append] at hc ⊢
        tauto
      refine ⟨old, parent c old, fun hs => ?_, notTaken c hc⟩
      rcases subs c hs with hs | new
      · exact notTaken c hc hs
      · have := h.closed old
        omega
    · rw [Node.children_of_branch? branchAfter]
      refine List.nodup_middle.mpr (List.nodup_cons.mpr ⟨fun hc => notListed ?_, ?_⟩)
      · rw [children]
        simp only [List.mem_append] at hc ⊢
        tauto
      · refine once.sublist ?_
        rw [List.append_assoc]
        exact (List.sublist_append_right taken _).append_left _
    · intro q c ne old _ hc
      refine ⟨fun hs => ?_, (tabled.parent c).trans (h.link old hc)⟩
      rcases subs c hs with hs | new
      · exact ne (Option.some.inj ((h.link old hc).symm.trans (h.link reached (listed c hs))))
      · have := h.closed hc
        omega
  have newNode : k.node ⟨g.size⟩ = m := by
    rw [spliced.node, if_neg, if_pos rfl]
    intro eq
    exact outside (congrArg NodeRef.index eq)
  refine ⟨k, ⟨g.size⟩, ?_, graft, spliced.stage.trans tabled.stage,
    spliced.source.trans tabled.source, tabled.size, ?_, ?_, ?_⟩
  · rw [applyFold_eq covers placed]
    exact replaced
  · rw [spliced.node, if_pos rfl]
  · rw [newNode, shape]
  · rw [newNode]
    refine places.imp fun o r placed => ?_
    cases placed with
    | sibling r => exact .sibling r
    | table new lt node =>
      refine .table new (by rw [spliced.size]; omega) ?_
      rw [spliced.node, if_neg, if_neg, node]
      · rintro rfl
        exact Nat.lt_irrefl _ lt
      · rintro rfl
        have := h.lt_size reached
        omega

end Forest

end SqlFold
