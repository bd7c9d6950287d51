import Mathlib.Data.Fintype.EquivFin
import SqlFold.Proofs.Fingerprints
import SqlFold.Proofs.Store.Bare
import SqlFold.Proofs.Store.Links
import SqlFold.Tree.Hash

/-!
# Copies in any store

A copy is made of new records that list one another downwards, so it has an end in every store
(`Grown.grounded`). It stands for the tree that it was made from (`bare_plant`), and where that tree has an
end, copying it is copying its sub-nodes one after the other and putting their copies into its layer
(`Grounded.copy_eq`). `Forest.copy_duplicates` puts together what a copy has in common with its original and
what it leaves as it was.
-/

namespace SqlFold

/-- The tokens of a tree do not depend on its tags. -/
theorem Tree.tokens_bare {ι : Type} (t : Tree ι) : t.bare.tokens = t.tokens := by
  induction t using Tree.induction with
  | step tag n ih =>
    rw [bare_mk, tokens_mk, tokens_mk, Node.parts_map, List.flatMap_map]
    refine List.flatMap_congr fun p mem => ?_
    cases p with
    | child c => exact ih c (List.mem_filterMap.mpr ⟨_, mem, rfl⟩)
    | token t => rfl
    | absent => rfl
    | mark flag => rfl

namespace Forest

variable {ι : Type} {f g k : Forest} {q r s : NodeRef} {rs : List NodeRef}

/-! ## Trees with an end -/

/-- A tree has an end exactly when its sub-nodes have records and none of its nodes stands below one of its own
sub-nodes. -/
theorem grounded_iff :
    f.Grounded r ↔ ∀ q, f.Below r q → ∀ c ∈ f.children q, c.index < f.size ∧ ¬f.Below c q := by
  constructor
  · intro ends q below c listed
    exact ⟨(ends.of_below below).closed c listed, (ends.of_below below).not_below c listed⟩
  · intro acyclic
    -- Standing strictly below orders the records, which are finitely many, and so has no infinite descent.
    let lower (i j : Fin f.size) : Prop :=
      f.Below r ⟨j⟩ ∧ Relation.TransGen (fun q c => c ∈ f.children q) ⟨j⟩ ⟨i⟩
    have trans : IsTrans (Fin f.size) lower := ⟨fun _ _ _ low high => ⟨high.1, high.2.trans low.2⟩⟩
    have irrefl : Std.Irrefl lower := ⟨fun i ⟨below, again⟩ => by
      obtain ⟨c, listed, back⟩ := Relation.TransGen.head'_iff.mp again
      exact (acyclic _ below c listed).2 back⟩
    have ends (i : Fin f.size) : f.Below r ⟨i⟩ → f.Grounded ⟨i⟩ := by
      induction i using (Finite.wellFounded_of_trans_of_irrefl lower).induction with
      | _ i ih =>
        intro below
        refine .mk (fun c listed => (acyclic _ below c listed).1) fun c listed => ?_
        exact ih ⟨c.index, (acyclic _ below c listed).1⟩ ⟨below, .single listed⟩ (below.tail listed)
    refine .mk (fun c listed => (acyclic r .refl c listed).1) fun c listed => ?_
    exact ends ⟨c.index, (acyclic r .refl c listed).1⟩ (.single listed)

/-- Every sub-node has a record, and no node stands below one of its own sub-nodes. -/
def Acyclic (f : Forest) : Prop :=
  ∀ q, ∀ c ∈ f.children q, c.index < f.size ∧ ¬f.Below c q

theorem Acyclic.grounded (acyclic : f.Acyclic) (r : NodeRef) : f.Grounded r :=
  grounded_iff.mpr fun q _ => acyclic q

/-- A store is acyclic if every node stands higher than its sub-nodes. -/
theorem Acyclic.of_rank (rank : NodeRef → Nat)
    (lower : ∀ q, ∀ c ∈ f.children q, c.index < f.size ∧ rank c < rank q) : f.Acyclic := by
  have descends (q c : NodeRef) (below : f.Below q c) : rank c ≤ rank q := by
    induction below with
    | refl => exact Nat.le_refl _
    | tail _ listed ih => exact Nat.le_trans (Nat.le_of_lt (lower _ _ listed).2) ih
  intro q c listed
  obtain ⟨inside, less⟩ := lower q c listed
  exact ⟨inside, fun back => Nat.not_lt.mpr (descends c q back) less⟩

/-- Records that are new list one another downwards. -/
theorem Grown.grounded (h : Grown f g fun _ => False) (fresh : f.size ≤ r.index) : g.Grounded r := by
  have below (n : Nat) : ∀ r : NodeRef, r.index < n → f.size ≤ r.index → g.Grounded r := by
    induction n with
    | zero => intro r lt; omega
    | succ n ih =>
      intro r lt fresh
      have lower (c : NodeRef) (listed : c ∈ g.children r) : c.index < r.index := h.order fresh c listed
      refine .mk (fun c listed => ?_) fun c listed => ?_
      · have := lower c listed
        have := g.lt_size_of_mem_children listed
        omega
      · have := lower c listed
        exact ih c (by omega) ((h.parts fresh c listed).resolve_right id)
  exact below (r.index + 1) r (Nat.lt_succ_self _) fresh

/-- The records of a copy are new. -/
theorem Loose.size_le_of_below (loose : Loose f g rs) (mem : r ∈ rs) (below : g.Below r s) : f.size ≤ s.index := by
  induction below with
  | refl => exact (loose.fresh r mem).1
  | tail _ listed ih => exact (loose.grown.parts ih _ listed).resolve_right id

/-! ## Copies stand for their originals -/

/-- Records that stay keep their trees. -/
theorem Grounded.bare_congr (h : f.Grounded r) (size : f.size ≤ g.size)
    (same : ∀ s, f.Below r s → g.node s = f.node s) : g.bare r = f.bare r :=
  congrArg Tree.bare (h.tree_congr size same)

theorem Grounded.bare_eq (h : f.Grounded r) : f.bare r = .mk () ((f.node r).map f.bare) := by
  rw [bare, h.tree_eq, Tree.bare_mk, Node.map_map]
  rfl

/-- New records keep the trees that were there before them. -/
theorem Grounded.bare_grown (h : f.Grounded r) (inside : r.index < f.size) (grown : Grown f g fun _ => False) :
    g.bare r = f.bare r :=
  h.bare_congr grown.size fun _ below => grown.node (h.lt_size_of_below inside below)

/-- What puts one tree into new records each time puts a list of trees there. -/
theorem Grown.bare_of_visits {α : Type} {act : α → Edit NodeRef} {look : α → Bare} {as : List α}
    (grown : Grown f g fun _ => False) (visits : Visits act as g rs k)
    (each : ∀ a ∈ as, ∀ g r k, Grown f g (fun _ => False) → act a g = .ok r k → Loose g k [r] ∧ k.bare r = look a) :
    rs.map k.bare = as.map look ∧ Grown g k fun _ => False := by
  induction visits with
  | nil g => exact ⟨rfl, .refl g _⟩
  | @cons a as r rs g k last first _ ih =>
    obtain ⟨loose, shown⟩ := each a List.mem_cons_self _ _ _ grown first
    obtain ⟨rest, later⟩ := ih (grown.trans loose.grown) fun a mem => each a (List.mem_cons_of_mem _ mem)
    obtain ⟨fresh, inside⟩ := loose.fresh r List.mem_cons_self
    have here : last.bare r = k.bare r := (loose.grown.grounded fresh).bare_grown inside later
    exact ⟨by rw [List.map_cons, List.map_cons, rest, here, shown], loose.grown.trans later⟩

/-- A tree that is put into new records stands there. -/
theorem bare_plant {t : Tree ι} (run : plant t f = .ok r g) : Loose f g [r] ∧ g.bare r = t.bare := by
  induction t using Tree.induction generalizing f r g with
  | step tag n ih =>
    obtain ⟨r', g', run', loose⟩ := plant_run (.mk tag n) f
    rw [run] at run'
    cases run'
    refine ⟨loose, ?_⟩
    obtain ⟨m, k, planted, visits, shape, subs⟩ := plants_run n (fun t _ f => plant_run t f) f
    have each : ∀ q ∈ (n.map fun t => (t, plant t)).children, ∀ g r k, Grown f g (fun _ => False) →
        q.2 g = .ok r k → Loose g k [r] ∧ k.bare r = q.1.bare := by
      rw [Node.children_map]
      intro q mem g r k grown run
      obtain ⟨t, listed, rfl⟩ := List.mem_map.mp mem
      exact ih t listed run
    obtain ⟨shown, -⟩ := (Grown.refl f _).bare_of_visits visits each
    have inserted : plant (.mk tag n) f = .ok ⟨k.size⟩ (k.inserted m) := by
      rw [plant_mk, bind_ok planted]
      rfl
    rw [run] at inserted
    cases inserted
    -- Adding the layer around the new sub-nodes does not change the trees under them.
    have same : ∀ c ∈ m.children, (k.inserted m).bare c = k.bare c := by
      intro c mem
      obtain ⟨fresh, inside⟩ := subs.fresh c mem
      have ends := subs.grown.grounded fresh
      refine ends.bare_congr (by simp) fun s below => ?_
      rw [node_inserted, if_neg (Nat.ne_of_lt (ends.lt_size_of_below inside below))]
    have ends := loose.grown.grounded (loose.fresh _ List.mem_cons_self).1
    rw [ends.bare_eq, node_inserted, if_pos rfl, Node.map_congr same, Tree.bare_mk]
    refine congrArg (Tree.mk ()) (Node.eq_of_shape (by simpa using shape) ?_)
    rw [Node.children_map, shown, Node.children_map, Node.children_map, List.map_map]
    rfl

/-- A copy stands for the tree that was copied. -/
theorem bare_copy (run : copy s f = .ok r g) : Loose f g [r] ∧ g.bare r = f.bare s :=
  bare_plant run

/-! ## Copying node by node -/

/-- Copying sub-nodes in turn puts the trees that they had before into new records. -/
theorem copies_eq {cs : List NodeRef} (ends : ∀ c ∈ cs, c.index < f.size ∧ f.Grounded c)
    (grown : Grown f g fun _ => False) (visits : Visits copy cs g rs k) :
    Visits (·.2) ((cs.map f.tree).map fun t => (t, plant t)) g rs k := by
  induction visits with
  | nil g => exact .nil g
  | @cons c cs r rs g k last first _ ih =>
    obtain ⟨inside, here⟩ := ends c List.mem_cons_self
    obtain ⟨loose, -⟩ := bare_copy first
    refine .cons ?_ (ih (fun c mem => ends c (List.mem_cons_of_mem _ mem)) (grown.trans loose.grown))
    have same : g.tree c = f.tree c :=
      here.tree_congr grown.size fun s below => grown.node (here.lt_size_of_below inside below)
    rw [← same]
    exact first

/-- An effect turns values into the same ones each time. -/
theorem visits_unique {α : Type} {act : α → Edit NodeRef} {as : List α} {rs' : List NodeRef} {k' : Forest}
    (visits : Visits act as g rs k) (visits' : Visits act as g rs' k') : rs = rs' ∧ k = k' := by
  induction visits generalizing rs' with
  | nil g =>
    cases visits'
    exact ⟨rfl, rfl⟩
  | cons first _ ih =>
    cases visits' with
    | cons first' later' =>
      rw [first] at first'
      cases first'
      obtain ⟨rfl, rfl⟩ := ih later'
      exact ⟨rfl, rfl⟩

/-- Copying a node is copying its sub-nodes one after the other and adding its layer around the copies. -/
theorem Grounded.copy_eq (h : f.Grounded s) : copy s f = ((f.node s).mapM copy >>= insert) f := by
  obtain ⟨m, k, copied, visits, shape⟩ := Node.mapM_visits (f.node s) (fun c _ f => by
    obtain ⟨r, g, run, _⟩ := copy_run c f
    exact ⟨r, g, run⟩) f
  obtain ⟨m', k', planted, visits', shape', -⟩ := plants_run ((f.node s).map f.tree) (fun t _ f => plant_run t f) f
  have again := copies_eq (fun c listed => ⟨h.closed c listed, h.children c listed⟩) (.refl f _) visits
  rw [Node.children_map, Node.children_map] at visits'
  obtain ⟨subs, rfl⟩ := visits_unique again visits'
  obtain rfl : m = m' := Node.eq_of_shape (shape.trans (by simpa using shape'.symm)) subs
  rw [copy, get_bind, h.tree_eq, plant_mk, bind_ok planted, bind_ok copied]

/-! ## What a copy is -/

/-- The node `r` of the store `g` is a copy of the node `s` of the store `f`, made of new records. -/
structure Duplicate (f g : Forest) (s r : NodeRef) : Prop where
  detached : g.parent? r = none
  fresh : ∀ q, g.Below r q → f.size ≤ q.index ∧ q.index < g.size
  once : ∀ q, g.Below r q → (g.children q).Nodup
  link : ∀ q, g.Below r q → ∀ c ∈ g.children q, g.parent? c = some q
  /-- The trees are the same but for the references. -/
  same : g.bare r = f.bare s
  /-- Tokens stand at their places, so the copy has the places of the original. -/
  tokens : (g.tree r).tokens = (f.tree s).tokens
  hash : ∀ H, (g.tree r).fingerprint.hash H = (f.tree s).fingerprint.hash H
  render : g.render r = f.render s
  outline : g.outline r = f.outline s
  /-- The records that were there stay as they were. -/
  kept : ∀ q : NodeRef, q.index < f.size →
    g.node q = f.node q ∧ g.parent? q = f.parent? q ∧ g.cache? q = f.cache? q

/-- Copying succeeds for every node under which no node stands below itself. It does the same as copying its
sub-nodes one after the other and putting their copies into its layer. -/
theorem copy_duplicates (acyclic : ∀ q, f.Below s q → ∀ c ∈ f.children q, c.index < f.size ∧ ¬f.Below c q) :
    ∃ r g, copy s f = .ok r g ∧ ((f.node s).mapM copy >>= insert) f = .ok r g ∧ Duplicate f g s r := by
  have ends : f.Grounded s := grounded_iff.mpr acyclic
  obtain ⟨r, g, run, loose⟩ := copy_run s f
  obtain ⟨-, shown⟩ := bare_copy run
  obtain ⟨fresh, inside⟩ := loose.fresh r List.mem_cons_self
  have new (q : NodeRef) (below : g.Below r q) : f.size ≤ q.index := loose.size_le_of_below List.mem_cons_self below
  refine ⟨r, g, run, ends.copy_eq ▸ run, ?_⟩
  constructor
  case detached =>
    cases link : g.parent? r with
    | none => rfl
    | some p =>
      rcases loose.grown.linked link with old | ⟨new, listed⟩
      · rw [f.parent?_of_size_le fresh] at old
        cases old
      · exact absurd listed (loose.unlisted r List.mem_cons_self p new)
  case fresh =>
    intro q below
    exact ⟨new q below, (loose.grown.grounded fresh).lt_size_of_below inside below⟩
  case once => exact fun q below => loose.grown.once (new q below)
  case link => exact fun q below => loose.grown.link (new q below)
  case same => exact shown
  case tokens =>
    rw [← Tree.tokens_bare, ← Tree.tokens_bare (f.tree s)]
    exact congrArg Tree.tokens shown
  case hash =>
    intro H
    rw [← Tree.fingerprint_bare, ← Tree.fingerprint_bare (f.tree s)]
    exact congrArg (fun t => t.fingerprint.hash H) shown
  case render => rw [← render_bare, shown, render_bare]
  case outline => rw [← outline_bare, shown, outline_bare]
  case kept =>
    intro q old
    exact ⟨loose.grown.node old, (loose.grown.parent old).resolve_right id, loose.grown.cache q⟩

/-- The equation `x = x` whose sides are one node is copied to three nodes. -/
theorem copy_duplicates_shared :
    let f := ((empty "").inserted (.column ⟨none, none, ⟨.symbol, "x", ⟨0, 0⟩⟩⟩)).inserted
      (.operation ⟨⟨1⟩, [⟨.operator, "=", ⟨0, 2⟩⟩], ⟨1⟩⟩)
    (∀ q, f.Below ⟨2⟩ q → ∀ c ∈ f.children q, c.index < f.size ∧ ¬f.Below c q) ∧
      ∃ r g, copy ⟨2⟩ f = .ok r g ∧ ((f.node ⟨2⟩).mapM copy >>= insert) f = .ok r g ∧ Duplicate f g ⟨2⟩ r ∧
        f.size = 3 ∧ g.size = 6 := by
  intro f
  have side : f.Grounded ⟨1⟩ := .of_childless rfl
  have sides : f.children ⟨2⟩ = [⟨1⟩, ⟨1⟩] := rfl
  have equation : f.Grounded ⟨2⟩ := by
    refine .mk (fun c listed => ?_) fun c listed => ?_ <;> rw [sides] at listed
    · obtain rfl : c = ⟨1⟩ := by simpa using listed
      show 1 < 3
      decide
    · obtain rfl : c = ⟨1⟩ := by simpa using listed
      exact side
  have acyclic := grounded_iff.mp equation
  obtain ⟨r, g, run, layered, duplicate⟩ := copy_duplicates acyclic
  refine ⟨acyclic, r, g, run, layered, duplicate, rfl, ?_⟩
  have made : ∃ k, copy ⟨2⟩ f = .ok ⟨5⟩ k ∧ k.size = 6 := ⟨_, rfl, rfl⟩
  obtain ⟨k, run', size⟩ := made
  rw [run] at run'
  cases run'
  exact size

end Forest

end SqlFold
