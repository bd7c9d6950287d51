import SqlFold.Forest.Merge
import SqlFold.Proofs.Store.Regions

/-!
# Copies and merges in a store

`plant_run` and `copy_run` say that a copy is made of new records only, which nothing else lists.
`Coherent.merge_run` says that a merge of a clause that is reached either fails and changes nothing
or is a graft at the node that listed the clause.
-/

namespace SqlFold.Forest

variable {ι : Type} {f g k : Forest} {q r : NodeRef} {adopted adopted' : NodeRef → Prop}

/-! ## New records -/

namespace Grown

theorem refl (f : Forest) (adopted : NodeRef → Prop) : Grown f f adopted where
  size := Nat.le_refl _
  stage := rfl
  source := rfl
  node _ := rfl
  parent _ := .inl rfl
  cache _ := rfl
  parts new c hc := by rw [f.children_of_size_le new] at hc; cases hc
  order new c hc := by rw [f.children_of_size_le new] at hc; cases hc
  link new c hc := by rw [f.children_of_size_le new] at hc; cases hc
  linked link := .inl link
  once new := by rw [f.children_of_size_le new]; exact .nil

theorem mono (h : Grown f g adopted) (imp : ∀ r, adopted r → adopted' r) : Grown f g adopted' :=
  { h with
    parent := fun old => (h.parent old).imp_right (imp _)
    parts := fun new c hc => (h.parts new c hc).imp_right (imp c) }

/-- Records that adopt nothing leave those before them as they are. -/
theorem trans (h : Grown f g adopted) (h' : Grown g k fun _ => False) : Grown f k adopted := by
  have node {q : NodeRef} (lt : q.index < g.size) : k.children q = g.children q := by
    rw [children, h'.node lt, children]
  have parent {r : NodeRef} (lt : r.index < g.size) : k.parent? r = g.parent? r :=
    (h'.parent lt).resolve_right id
  have fresh {q : NodeRef} (new : g.size ≤ q.index) : ∀ c ∈ k.children q, g.size ≤ c.index :=
    fun c hc => (h'.parts new c hc).resolve_right id
  have size := h.size
  exact {
    size := Nat.le_trans h.size h'.size
    stage := h'.stage.trans h.stage
    source := h'.source.trans h.source
    node := fun old => (h'.node (by omega)).trans (h.node old)
    parent := fun {r} old => by
      rw [parent (by omega)]
      exact h.parent old
    cache := fun r => (h'.cache r).trans (h.cache r)
    parts := fun {q} new c hc => by
      by_cases lt : q.index < g.size
      · exact h.parts new c (node lt ▸ hc)
      · exact .inl (Nat.le_trans size (fresh (by omega) c hc))
    order := fun {q} new c hc => by
      by_cases lt : q.index < g.size
      · exact h.order new c (node lt ▸ hc)
      · exact h'.order (by omega) c hc
    link := fun {q} new c hc => by
      by_cases lt : q.index < g.size
      · rw [node lt] at hc
        have order := h.order new c hc
        rw [parent (by omega)]
        exact h.link new c hc
      · exact h'.link (by omega) c hc
    linked := fun {r p} link => by
      rcases h'.linked link with before | ⟨new, listed⟩
      · refine (h.linked before).imp_right ?_
        rintro ⟨new, listed⟩
        exact ⟨new, by rwa [node (g.lt_size_of_mem_children listed)]⟩
      · exact .inr ⟨Nat.le_trans size new, listed⟩
    once := fun {q} new => by
      by_cases lt : q.index < g.size
      · rw [node lt]
        exact h.once new
      · exact h'.once (by omega) }

/-- One more record, whose sub-nodes no new record lists yet. -/
theorem inserted (h : Grown f g adopted) {m : Node NodeRef}
    (inside : ∀ c ∈ m.children, c.index < g.size)
    (subs : ∀ c ∈ m.children, f.size ≤ c.index ∨ adopted c) (once : m.children.Nodup)
    (unlisted : ∀ c ∈ m.children, ∀ q : NodeRef, f.size ≤ q.index → c ∉ g.children q) :
    Grown f (g.inserted m) adopted := by
  have size := h.size
  have children (q : NodeRef) :
      (g.inserted m).children q = if q.index = g.size then m.children else g.children q := by
    rw [Forest.children, node_inserted]
    split <;> rfl
  exact {
    size := by rw [size_inserted]; omega
    stage := by rw [stage_inserted, h.stage]
    source := by rw [source_inserted, h.source]
    node := fun {r} old => by rw [node_inserted, if_neg (by omega), h.node old]
    parent := fun {r} old => by
      rw [parent?_inserted]
      split
      · next sub => exact .inr ((subs r sub.1).resolve_left (by omega))
      · exact h.parent old
    cache := fun r => by rw [cache?_inserted, h.cache]
    parts := fun {q} new c hc => by
      rw [children] at hc
      split at hc
      · exact subs c hc
      · exact h.parts new c hc
    order := fun {q} new c hc => by
      rw [children] at hc
      split at hc
      · next eq =>
        rw [eq]
        exact inside c hc
      · exact h.order new c hc
    link := fun {q} new c hc => by
      rw [children] at hc
      rw [parent?_inserted]
      split at hc
      · next eq =>
        rw [if_pos ⟨hc, inside c hc⟩, ← eq]
      · rw [if_neg fun sub => unlisted c sub.1 q new hc]
        exact h.link new c hc
    linked := fun {r p} link => by
      rw [parent?_inserted] at link
      rw [children]
      split at link
      · next sub =>
        cases link
        exact .inr ⟨size, by rw [if_pos rfl]; exact sub.1⟩
      · refine (h.linked link).imp_right ?_
        rintro ⟨new, listed⟩
        exact ⟨new, by rwa [if_neg (Nat.ne_of_lt (g.lt_size_of_mem_children listed))]⟩
    once := fun {q} new => by
      rw [children]
      split
      · exact once
      · exact h.once new }

/-- What is reached was reached before. -/
theorem reached (h : Grown f g fun _ => False) (coherent : f.Coherent) (reached : g.Reached r) :
    f.Reached r := by
  obtain ⟨p, path⟩ := reached
  induction path with
  | root => exact .root
  | step _ hi ih =>
    have hc := List.mem_of_getElem? hi
    rw [children, h.node (coherent.lt_size ih)] at hc
    exact ih.child hc

/-- Records that adopt nothing keep a store coherent. -/
theorem coherent (h : Grown f g fun _ => False) (coherent : f.Coherent) : g.Coherent where
  nonempty := Nat.lt_of_lt_of_le coherent.nonempty h.size
  closed {q c} hc := by
    by_cases old : q.index < f.size
    · rw [children, h.node old] at hc
      exact Nat.lt_of_lt_of_le (coherent.closed hc) h.size
    · have := h.order (by omega) c hc
      have := g.lt_size_of_mem_children hc
      omega
  grounded := by
    have old (q : NodeRef) : q.index < f.size → Acc (fun c q => c ∈ g.children q) q := by
      induction q using coherent.grounded.induction with
      | _ q ih =>
        intro lt
        refine .intro q fun c hc => ?_
        rw [children, h.node lt] at hc
        exact ih c hc (coherent.closed hc)
    have below (n : Nat) : ∀ q : NodeRef, q.index < n → Acc (fun c q => c ∈ g.children q) q := by
      induction n with
      | zero => intro q lt; omega
      | succ n ih =>
        intro q lt
        by_cases inside : q.index < f.size
        · exact old q inside
        · refine .intro q fun c hc => ih c ?_
          have := h.order (by omega) c hc
          omega
    exact ⟨fun q => below (q.index + 1) q (Nat.lt_succ_self _)⟩
  root := ((h.parent coherent.nonempty).resolve_right id).trans coherent.root
  link {q c} reached hc := by
    have before := h.reached coherent reached
    rw [children, h.node (coherent.lt_size before)] at hc
    rw [(h.parent (coherent.closed hc)).resolve_right id]
    exact coherent.link before hc
  once {q} reached := by
    have before := h.reached coherent reached
    rw [children, h.node (coherent.lt_size before)]
    exact coherent.once before
  cache {r p} reached remembered := by
    have before := h.reached coherent reached
    rw [h.cache] at remembered
    rw [coherent.tree_congr h.size fun s below => h.node (coherent.lt_size (before.below below))]
    exact coherent.cache before remembered

end Grown

/-- New nodes, one for each item of a list, which nothing lists. -/
structure Loose (f g : Forest) (rs : List NodeRef) : Prop where
  grown : Grown f g fun _ => False
  fresh : ∀ r ∈ rs, f.size ≤ r.index ∧ r.index < g.size
  once : rs.Nodup
  unlisted : ∀ r ∈ rs, ∀ q : NodeRef, f.size ≤ q.index → r ∉ g.children q

/-- The last record is listed by none. -/
theorem Grown.loose (h : Grown f g fun _ => False) (fresh : f.size ≤ r.index)
    (last : r.index + 1 = g.size) : Loose f g [r] where
  grown := h
  fresh := by simp only [List.mem_singleton, forall_eq]; omega
  once := List.nodup_singleton _
  unlisted := by
    simp only [List.mem_singleton, forall_eq]
    intro q new hr
    have := h.order new r hr
    have := g.lt_size_of_mem_children hr
    omega

/-- What makes one loose node each time makes loose nodes. -/
theorem Loose.of_visits {α : Type} {act : α → Edit NodeRef} {as : List α} {rs : List NodeRef}
    (visits : Visits act as f rs g)
    (each : ∀ a ∈ as, ∀ f r g, act a f = .ok r g → Loose f g [r]) : Loose f g rs := by
  induction visits with
  | nil f => exact ⟨.refl f _, by simp, .nil, by simp⟩
  | @cons a as r rs f g k first _ ih =>
    have here := each a List.mem_cons_self _ _ _ first
    replace ih := ih fun a ha => each a (List.mem_cons_of_mem _ ha)
    have size := here.grown.size
    have sizeK := ih.grown.size
    obtain ⟨fresh, inside⟩ := here.fresh r List.mem_cons_self
    refine ⟨here.grown.trans ih.grown, ?_, ?_, ?_⟩
    · intro s hs
      rcases List.mem_cons.mp hs with rfl | hs
      · omega
      · have := ih.fresh s hs
        omega
    · refine List.nodup_cons.mpr ⟨fun hr => ?_, ih.once⟩
      have := ih.fresh r hr
      omega
    · intro s hs q new hq
      by_cases lt : q.index < g.size
      · have same : k.children q = g.children q := by
          rw [children, ih.grown.node lt, children]
        rw [same] at hq
        rcases List.mem_cons.mp hs with rfl | hs
        · exact here.unlisted s List.mem_cons_self q new hq
        · have := here.grown.order new s hq
          have := ih.fresh s hs
          omega
      · rcases List.mem_cons.mp hs with rfl | hs
        · have := (ih.grown.parts (by omega) s hq).resolve_right id
          omega
        · exact ih.unlisted s hs q (by omega) hq

/-! ## Copies -/

theorem plant_mk (tag : ι) (n : Node (Tree ι)) :
    plant (.mk tag n) = (n.map fun t => (t, plant t)).mapM (·.2) >>= insert := by
  rw [plant, Tree.fold_mk]

/-- Sub-trees are put into new records one after the other, each by itself. -/
theorem plants_run (n : Node (Tree ι))
    (each : ∀ t ∈ n.children, ∀ f, ∃ r g, plant t f = .ok r g ∧ Loose f g [r]) (f : Forest) :
    ∃ m g, (n.map fun t => (t, plant t)).mapM (·.2) f = .ok m g ∧
      Visits (·.2) (n.map fun t => (t, plant t)).children f m.children g ∧ m.shape = n.shape ∧
        Loose f g m.children := by
  have child : ∀ p ∈ (n.map fun t => (t, plant t)).children, ∀ f,
      ∃ r g, p.2 f = .ok r g ∧ Loose f g [r] := by
    rw [Node.children_map]
    intro p hp f
    obtain ⟨t, ht, rfl⟩ := List.mem_map.mp hp
    exact each t ht f
  obtain ⟨m, g, run, visits, shape⟩ := Node.mapM_visits (n.map fun t => (t, plant t))
    (fun p hp f => by
      obtain ⟨r, g, run, _⟩ := child p hp f
      exact ⟨r, g, run⟩) f
  refine ⟨m, g, run, visits, shape.trans (by simp), .of_visits visits fun p hp f r g run => ?_⟩
  obtain ⟨r', g', run', loose⟩ := child p hp f
  rw [run] at run'
  cases run'
  exact loose

/-- A tree is put into new records. -/
theorem plant_run (t : Tree ι) (f : Forest) : ∃ r g, plant t f = .ok r g ∧ Loose f g [r] := by
  induction t using Tree.induction generalizing f with
  | step tag n ih =>
    obtain ⟨m, g, run, _, _, loose⟩ := plants_run n ih f
    have size := loose.grown.size
    have grown := loose.grown.inserted (m := m) (fun c hc => (loose.fresh c hc).2)
      (fun c hc => .inl (loose.fresh c hc).1) loose.once loose.unlisted
    refine ⟨⟨g.size⟩, g.inserted m, ?_, grown.loose size (by simp)⟩
    rw [plant_mk, bind_ok run]
    rfl

/-- The tree under a node is copied into new records. -/
theorem copy_run (s : NodeRef) (f : Forest) : ∃ r g, copy s f = .ok r g ∧ Loose f g [r] :=
  plant_run (f.tree s) f

/-- The trees under nodes are copied one after the other. -/
theorem copies_run (cs : List NodeRef) (f : Forest) :
    ∃ rs g, cs.mapM copy f = .ok rs g ∧ Visits copy cs f rs g ∧ Loose f g rs := by
  obtain ⟨rs, g, run, visits, -⟩ := list_mapM_visits (g := copy) (fun c => c) (fun d => d)
    (fun _ => ()) (fun _ => ()) (fun c b s s' run => ⟨b, run, rfl, rfl⟩) cs
    (fun c _ s => by
      obtain ⟨r, g, run, _⟩ := copy_run c s
      exact ⟨r, g, run⟩) f
  simp only [List.map_id'] at visits
  refine ⟨rs, g, run, visits, .of_visits visits fun c _ f r g run => ?_⟩
  obtain ⟨r', g', run', loose⟩ := copy_run c f
  rw [run] at run'
  cases run'
  exact loose

/-! ## Merges -/

variable {this other p : NodeRef}

/-- The sub-nodes of the merged clause: those of the clause, or new ones. Those of the clause are listed by it or by
new nodes. -/
structure Merged (f g : Forest) (this : NodeRef) (m : Node NodeRef) : Prop where
  grown : Grown f g (· ∈ f.children this)
  subs : ∀ c ∈ m.children, f.size ≤ c.index ∧ c.index < g.size ∨ c ∈ f.children this
  taken : ∀ c ∈ f.children this, c ∈ m.children ∨ ∃ q : NodeRef, f.size ≤ q.index ∧ c ∈ g.children q
  once : (f.children this).Nodup → m.children.Nodup
  unlisted : ∀ c ∈ m.children, ∀ q : NodeRef, f.size ≤ q.index → c ∉ g.children q

/-- What the clause does not list keeps its parent when the merged clause is put into the store. -/
theorem Merged.parent?_inserted {m : Node NodeRef} (merged : Merged f g this m) (old : r.index < f.size)
    (apart : r ∉ f.children this) : (g.inserted m).parent? r = f.parent? r := by
  have notSub : r ∉ m.children := fun sub => by
    rcases merged.subs r sub with ⟨new, _⟩ | listed
    · omega
    · exact apart listed
  rw [Forest.parent?_inserted, if_neg fun both => notSub both.1]
  exact (merged.grown.parent old).resolve_right apart

/-- A merged condition is one new node, which lists the first condition. -/
theorem mergedCondition_run (a b : Restriction NodeRef) (other : NodeRef)
    (old : a.expression.index < f.size) (listed : a.expression ∈ f.children this) :
    ∃ c g, mergedCondition a b other f = .ok c g ∧ Grown f g (· ∈ f.children this) ∧
      f.size ≤ c.expression.index ∧ c.expression.index + 1 = g.size ∧ a.expression ∈ g.children c.expression := by
  obtain ⟨second, g, run, loose⟩ := copy_run b.expression f
  have size := loose.grown.size
  obtain ⟨fresh, inside⟩ := loose.fresh second List.mem_cons_self
  let word : Token := ⟨.andKw, "AND", g.position other⟩
  let both : Node NodeRef := .conjunction ⟨⟨none, a.expression⟩, ⟨some word, second⟩, []⟩
  have subs : both.children = [a.expression, second] := by simp [both, Conjunction.parts]
  have grown : Grown f (g.inserted both) (· ∈ f.children this) := by
    refine (loose.grown.mono fun _ => False.elim).inserted ?_ ?_ ?_ ?_ <;> rw [subs]
    · simp only [List.mem_cons, List.not_mem_nil, or_false, forall_eq_or_imp, forall_eq]
      omega
    · simp only [List.mem_cons, List.not_mem_nil, or_false, forall_eq_or_imp, forall_eq]
      exact ⟨.inr listed, .inl fresh⟩
    · simp only [List.nodup_cons, List.mem_singleton, List.not_mem_nil, not_false_eq_true,
        List.nodup_nil, and_true]
      intro eq
      rw [eq] at old
      omega
    · simp only [List.mem_cons, List.not_mem_nil, or_false, forall_eq_or_imp, forall_eq]
      refine ⟨fun q new hc => ?_, loose.unlisted second List.mem_cons_self⟩
      have := (loose.grown.parts new _ hc).resolve_right id
      omega
  refine ⟨⟨a.keyword, ⟨g.size⟩⟩, g.inserted both, ?_, grown, size, by simp, ?_⟩
  · rw [mergedCondition, bind_ok run]
    rfl
  · rw [children, node_inserted, if_pos rfl, subs]
    exact List.mem_cons_self

/-- What holds a merged condition and nothing else is a merged clause. -/
theorem mergedCondition_merged (a b : Restriction NodeRef) (other : NodeRef) (old : a.expression.index < f.size)
    (here : f.children this = [a.expression]) :
    ∃ c g, mergedCondition a b other f = .ok c g ∧ ∀ m, m.children = [c.expression] → Merged f g this m := by
  have listed : a.expression ∈ f.children this := by
    rw [here]
    exact List.mem_cons_self
  obtain ⟨c, g, run, grown, fresh, last, taken⟩ := mergedCondition_run a b other old listed
  refine ⟨c, g, run, fun m children => ⟨grown, ?_, ?_, fun _ => ?_, ?_⟩⟩
  · rw [children]
    simp only [List.mem_singleton, forall_eq]
    exact .inl ⟨fresh, by omega⟩
  · rw [here]
    simp only [List.mem_singleton, forall_eq]
    exact .inr ⟨c.expression, fresh, taken⟩
  · rw [children]
    exact List.nodup_singleton _
  · -- The condition is the last record, and new records list older ones only.
    rw [children]
    simp only [List.mem_singleton, forall_eq]
    intro q new hc
    have := grown.order new _ hc
    have := g.lt_size_of_mem_children hc
    omega

/-- Two clauses of one kind that can be merged are joined in the way of that kind, and for others nothing is done. -/
theorem mergedClause_cases (f : Forest) (this other : NodeRef) :
    (∃ a b, f.node this = .whereClause a ∧ f.node other = .whereClause b ∧
      mergedClause this other f = (mergedCondition a b other >>= fun c => pure (.whereClause c)) f) ∨
    (∃ a b, f.node this = .havingClause a ∧ f.node other = .havingClause b ∧
      mergedClause this other f = (mergedCondition a b other >>= fun c => pure (.havingClause c)) f) ∨
    (∃ a b, f.node this = .groupBy a ∧ f.node other = .groupBy b ∧
      mergedClause this other f = (b.expressions.mapM copy >>= fun copies =>
        pure (.groupBy { a with expressions := a.expressions ++ copies })) f) ∨
    mergedClause this other f = .error (.notMergeable (f.kind this) (f.kind other)) f ∧
      ((f.kind this).isMergeable = true → f.kind other ≠ f.kind this) := by
  unfold mergedClause kind
  rw [get_bind]
  cases f.node this with
  | whereClause a =>
    cases f.node other with
    | whereClause b => exact .inl ⟨a, b, rfl, rfl, rfl⟩
    | _ => exact .inr (.inr (.inr ⟨rfl, fun _ same => by cases same⟩))
  | havingClause a =>
    cases f.node other with
    | havingClause b => exact .inr (.inl ⟨a, b, rfl, rfl, rfl⟩)
    | _ => exact .inr (.inr (.inr ⟨rfl, fun _ same => by cases same⟩))
  | groupBy a =>
    cases f.node other with
    | groupBy b => exact .inr (.inr (.inl ⟨a, b, rfl, rfl, rfl⟩))
    | _ => exact .inr (.inr (.inr ⟨rfl, fun _ same => by cases same⟩))
  | _ => exact .inr (.inr (.inr ⟨rfl, fun mergeable => by cases mergeable⟩))

/-- Two clauses of one kind that can be merged have a merged clause, and for others nothing is done. The sub-nodes of
the first one must be there. -/
theorem mergedClause_run (inside : ∀ c ∈ f.children this, c.index < f.size) (other : NodeRef) :
    (∃ m g, mergedClause this other f = .ok m g ∧ Merged f g this m ∧ (f.kind this).isMergeable = true) ∨
      mergedClause this other f = .error (.notMergeable (f.kind this) (f.kind other)) f ∧
        ((f.kind this).isMergeable = true → f.kind other ≠ f.kind this) := by
  rcases mergedClause_cases f this other with ⟨a, b, hThis, _, run⟩ | ⟨a, b, hThis, _, run⟩ |
    ⟨a, b, hThis, _, run⟩ | failed
  · have here : f.children this = [a.expression] := by rw [children, hThis, Node.children_whereClause]
    obtain ⟨c, g, run', merged⟩ := mergedCondition_merged a b other (inside _ (by simp [here])) here
    refine .inl ⟨.whereClause c, g, ?_, merged _ (by simp), by rw [kind, hThis]; rfl⟩
    rw [run, bind_ok run']
    rfl
  · have here : f.children this = [a.expression] := by rw [children, hThis, Node.children_havingClause]
    obtain ⟨c, g, run', merged⟩ := mergedCondition_merged a b other (inside _ (by simp [here])) here
    refine .inl ⟨.havingClause c, g, ?_, merged _ (by simp), by rw [kind, hThis]; rfl⟩
    rw [run, bind_ok run']
    rfl
  · have here : f.children this = a.expressions := by rw [children, hThis, Node.children_groupBy]
    obtain ⟨copies, g, run', _, loose⟩ := copies_run b.expressions f
    refine .inl ⟨.groupBy { a with expressions := a.expressions ++ copies }, g, ?_, ?_, by rw [kind, hThis]; rfl⟩
    · rw [run, bind_ok run']
      rfl
    · rw [← here]
      refine ⟨loose.grown.mono fun _ => False.elim, ?_, ?_, fun once => ?_, ?_⟩ <;> rw [Node.children_groupBy]
      · intro c hc
        rcases List.mem_append.mp hc with hc | hc
        · exact .inr hc
        · exact .inl (loose.fresh c hc)
      · exact fun c hc => .inl (List.mem_append_left _ hc)
      · refine List.nodup_append.mpr ⟨once, loose.once, ?_⟩
        rintro c hc d hd rfl
        have := inside c hc
        have := loose.fresh c hd
        omega
      · intro c hc q new hq
        rcases List.mem_append.mp hc with hc | hc
        · have := (loose.grown.parts new c hq).resolve_right id
          have := inside c hc
          omega
        · exact loose.unlisted c hc q new hq
  · exact .inr failed

/-- A node is put in the place of another that a composite node lists. -/
theorem substituted_run {m : Node NodeRef} (h : f.Coherent) (reached : f.Reached p)
    (hc : this ∈ f.children p) (grown : Grown f g (f.StrictlyBelow p))
    (subs : ∀ c ∈ m.children, f.size ≤ c.index ∨ f.StrictlyBelow p c) (notSub : this ∉ m.children)
    (link : g.parent? this = some p) :
    Spliced f g ((g.inserted m).substituted p this ⟨g.size⟩) p ⟨g.size⟩ m
      ((f.node p).map fun r => if r = this then ⟨g.size⟩ else r) [this] := by
  have inside : p.index < f.size := h.lt_size reached
  have insideG : p.index < g.size := Nat.lt_of_lt_of_le inside grown.size
  have ne : p.index ≠ g.size := Nat.ne_of_lt insideG
  have insideThis : this.index < g.size := Nat.lt_of_lt_of_le (h.closed hc) grown.size
  have node : (g.inserted m).node p = f.node p := by
    rw [node_inserted, if_neg ne, grown.node inside]
  obtain ⟨k, forgotten, size, nodes, caches, stage, source, parents⟩ :=
    (g.inserted m).substituted_eq_forget p this ⟨g.size⟩
  have links : ∀ s, f.Below s p → k.parent? s = f.parent? s := by
    intro s above
    have old : s.index < f.size := by
      rcases Relation.ReflTransGen.cases_head above with rfl | ⟨c, hc, _⟩
      · exact inside
      · exact f.lt_size_of_mem_children hc
    have notNew : s ≠ ⟨g.size⟩ := by
      rintro rfl
      have := grown.size
      exact absurd old (by simpa using this)
    have notThis : s ≠ this := by
      rintro rfl
      exact Coherent.not_below_of_mem_children h.grounded hc above
    have notSub : s ∉ m.children := by
      intro hs
      rcases subs s hs with new | ⟨ne, below⟩
      · omega
      · exact ne (h.not_above above below)
    rw [parents, if_neg (fun eq => notNew eq.1), if_neg (fun eq => notThis eq.1),
      parent?_inserted, if_neg (fun eq => notSub eq.1), grown.parent_above h reached above]
  rw [forgotten]
  refine ⟨rfl, by simp [size], by simp [stage], by simp [source], fun s => ?_, fun s => ?_,
    fun s => ?_, fun s hs => ?_⟩
  · rw [node_forget, nodes, node, node_inserted]
    by_cases here : s = p
    · subst here
      rw [if_pos ⟨rfl, by simp; omega⟩, if_pos rfl]
    · rw [if_neg (fun eq => here eq.1), if_neg here]
      by_cases new : s = ⟨g.size⟩
      · rw [if_pos new, if_pos (congrArg NodeRef.index new)]
      · rw [if_neg new, if_neg (fun eq => new (NodeRef.index_eq_iff.mp eq))]
  · rw [parent?_forget, parents, size_inserted, parent?_inserted]
    by_cases new : s = ⟨g.size⟩
    · subst new
      rw [if_pos ⟨rfl, Nat.lt_succ_self _⟩, if_pos rfl]
    · rw [if_neg (fun eq => new eq.1), if_neg new]
      by_cases sub : s ∈ m.children ∧ s.index < g.size
      · rw [if_pos sub, if_pos sub, if_neg]
        rintro ⟨rfl, _⟩
        exact notSub sub.1
      · rw [if_neg sub, if_neg sub]
        by_cases eq : s = this
        · subst eq
          rw [if_pos ⟨rfl, by omega⟩, if_pos ⟨List.mem_singleton_self _, link⟩]
        · rw [if_neg (fun h => eq h.1), if_neg (fun h => eq (List.mem_singleton.mp h.1))]
  · rw [cache?_forget, caches, cache?_inserted]
    split
    · exact .inl rfl
    · exact .inr rfl
  · rw [cache?_forget, if_pos]
    refine hs.imp_right fun up => h.ancestors_subset reached ?_ links up
    rw [size, size_inserted]
    have := grown.size
    omega

/-- A merged clause in the place of the clause is a graft. -/
theorem Merged.grafted {m after : Node NodeRef} {new : NodeRef} (merged : Merged f g this m)
    (h : f.Coherent) (reached : f.Reached p) (hc : this ∈ f.children p)
    (spliced : Spliced f g k p new m after [this])
    (rest : ∀ c ∈ after.children, c = new ∨ c ∈ f.children p ∧ c ≠ this)
    (once : after.children.Nodup) : Grafted f k p := by
  have reachedThis := reached.child hc
  have strict : ∀ c ∈ f.children this, f.StrictlyBelow p c := by
    intro c below
    refine ⟨?_, .tail (.single hc) below⟩
    rintro rfl
    exact Coherent.not_below_of_mem_children h.grounded hc (.single below)
  have grown := merged.grown.mono strict
  have notAdopted {q c : NodeRef} (old : f.Reached q) (hq : c ∈ f.children q) (ne : q ≠ this) :
      c ∉ f.children this := fun below =>
    ne (Option.some.inj ((h.link old hq).symm.trans (h.link reachedThis below)))
  have notSub {q c : NodeRef} (old : f.Reached q) (hq : c ∈ f.children q) (ne : q ≠ this) :
      c ∉ m.children := by
    intro hm
    rcases merged.subs c hm with ⟨fresh, _⟩ | below
    · have := h.closed hq
      omega
    · exact notAdopted old hq ne below
  have parent {q c : NodeRef} (old : f.Reached q) (hq : c ∈ f.children q) (ne : q ≠ this) :
      g.parent? c = some q := by
    rw [(merged.grown.parent (h.closed hq)).resolve_right (notAdopted old hq ne)]
    exact h.link old hq
  have pNe : p ≠ this := (h.ne_of_mem_children hc).symm
  -- Nothing that is still reached lists the clause.
  have stays {r : NodeRef} (reached' : k.Reached r) :
      f.size ≤ r.index ∨ f.Reached r ∧ r ≠ this := by
    obtain ⟨path, hp⟩ := reached'
    induction hp with
    | root => exact .inr ⟨.root, (h.root_ne_of_mem_children reached hc).symm⟩
    | @step path i q r above hi ih =>
      have hr := List.mem_of_getElem? hi
      have adopted {r : NodeRef} (hr : r ∈ f.children this) : f.Reached r ∧ r ≠ this :=
        ⟨reachedThis.child hr, h.ne_of_mem_children hr⟩
      have fresh : new.index = g.size := by rw [spliced.fresh]
      have size := grown.size
      rw [children, spliced.node] at hr
      split at hr
      · rcases rest r hr with rfl | ⟨hr, ne⟩
        · exact .inl (by omega)
        · exact .inr ⟨reached.child hr, ne⟩
      · next notP =>
        split at hr
        · exact (merged.subs r hr).imp And.left adopted
        · by_cases old : q.index < f.size
          · rw [grown.node old] at hr
            obtain ⟨reachedQ, _⟩ := ih.resolve_left (by omega)
            refine .inr ⟨reachedQ.child hr, ?_⟩
            rintro rfl
            exact notP (Option.some.inj ((h.link reachedQ hr).symm.trans (h.link reached hc)))
          · exact (merged.grown.parts (by omega) r hr).imp_right adopted
  refine spliced.grafted h reached grown (fun c hm => ?_) (merged.once (h.once reachedThis)) merged.unlisted
    (fun c ha => ?_) once (fun {q c} ne old still hq => ?_)
  · exact (merged.subs c hm).imp_right (strict c)
  · refine (rest c ha).imp_right ?_
    rintro ⟨hp, ne⟩
    exact ⟨hp, parent reached hp pNe, notSub reached hp pNe, fun eq => ne (List.mem_singleton.mp eq)⟩
  · have neThis : q ≠ this := by
      rintro rfl
      rcases stays still with fresh | ⟨_, ne⟩
      · have := h.lt_size old
        omega
      · exact ne rfl
    exact ⟨notSub old hq neThis, parent old hq neThis⟩

/-- A child is found at its place in a list. -/
theorem exists_split_of_idxOf? {cs : List NodeRef} {c : NodeRef} {i : Nat}
    (found : cs.idxOf? c = some i) : ∃ left right, cs = left ++ [c] ++ right ∧ left.length = i := by
  rw [List.idxOf?, List.findIdx?_eq_some_iff_getElem] at found
  obtain ⟨inside, here, _⟩ := found
  refine ⟨cs.take i, cs.drop (i + 1), ?_, by rw [List.length_take]; omega⟩
  have eq : cs[i] = c := by simpa using here
  rw [List.append_assoc, List.singleton_append, ← eq, List.getElem_cons_drop, List.take_append_drop]

/-- Where no reference is listed twice, one is replaced at its place. -/
theorem map_replaced {left right : List NodeRef} {new : NodeRef} (once : (left ++ [this] ++ right).Nodup) :
    (left ++ [this] ++ right).map (fun r => if r = this then new else r) = left ++ new :: right := by
  rw [List.append_assoc, List.singleton_append, List.nodup_middle, List.nodup_cons] at once
  have others : ∀ {rs : List NodeRef}, this ∉ rs → rs.map (fun r => if r = this then new else r) = rs := by
    intro rs absent
    refine (List.map_congr_left fun r hr => if_neg ?_).trans (List.map_id' rs)
    rintro rfl
    exact absent hr
  simp only [List.mem_append, not_or] at once
  simp [others once.1.1, others once.1.2]

/-- A merge of a clause that a node lists puts the merged clause there, or nothing is done. -/
theorem Coherent.merge_spliced (h : f.Coherent) (parsing : f.stage = .parsing) (reached : f.Reached p)
    (hc : this ∈ f.children p) (other : NodeRef) :
    (∃ m g k, mergedClause this other f = .ok m g ∧ Merged f g this m ∧ merge this other f = .ok ⟨g.size⟩ k ∧
        Spliced f g k p ⟨g.size⟩ m ((f.node p).map fun r => if r = this then ⟨g.size⟩ else r) [this]) ∨
      merge this other f = .error (.notMergeable (f.kind this) (f.kind other)) f ∧
        ((f.kind this).isMergeable = true → f.kind other ≠ f.kind this) := by
  rcases mergedClause_run (fun c listed => h.closed listed) other with ⟨m, g, run, merged, _⟩ | ⟨run, kinds⟩
  case inr => exact .inr ⟨bind_error run, kinds⟩
  left
  have grown := merged.grown
  have size := grown.size
  have old : this.index < f.size := h.closed hc
  have oldP : p.index < f.size := h.lt_size reached
  have strict : ∀ c ∈ f.children this, f.StrictlyBelow p c := by
    intro c below
    refine ⟨?_, .tail (.single hc) below⟩
    rintro rfl
    exact Coherent.not_below_of_mem_children h.grounded hc (.single below)
  have subs : ∀ c ∈ m.children, f.size ≤ c.index ∨ f.StrictlyBelow p c := fun c hm =>
    (merged.subs c hm).imp And.left (strict c)
  have notBelow : this ∉ f.children this := fun below => h.ne_of_mem_children below rfl
  have notSub : this ∉ m.children := by
    intro hm
    rcases merged.subs this hm with ⟨fresh, _⟩ | below
    · omega
    · exact notBelow below
  have link : g.parent? this = some p :=
    ((grown.parent old).resolve_right notBelow).trans (h.link reached hc)
  have linkInserted : (g.inserted m).parent? this = some p :=
    (merged.parent?_inserted old notBelow).trans (h.link reached hc)
  have nodeInserted : (g.inserted m).node p = f.node p := by
    rw [node_inserted, if_neg (by omega), grown.node oldP]
  -- What remains is the substitution, in a branch by a splice.
  have finish {k : Forest} (substituted : substitute this ⟨g.size⟩ (g.inserted m) = .ok () k) :
      merge this other f = .ok ⟨g.size⟩ k := by
    rw [merge, bind_ok run, bind_ok (show insert m g = .ok ⟨g.size⟩ (g.inserted m) from rfl),
      get_bind, linkInserted]
    dsimp only [Option.isSome_some]
    rw [if_pos rfl, bind_ok substituted]
    rfl
  cases found : ((g.inserted m).childList p).idxOf? this with
  | some offset =>
    obtain ⟨left, right, split, rfl⟩ := exists_split_of_idxOf? found
    have branch : (f.node p).branch? = some (left ++ [this] ++ right) := by
      rw [childList, nodeInserted] at split
      cases branch : (f.node p).branch? with
      | none =>
        rw [branch] at split
        simp at split
      | some cs =>
        rw [branch] at split
        exact congrArg some split
    have once := h.once reached
    rw [children, Node.children_of_branch? branch] at once
    obtain ⟨k, replaced, spliced⟩ :=
      replace_run h reached (grown.mono strict) parsing branch subs
    rw [← map_replaced once, ← Node.map_of_branch? branch] at spliced
    refine ⟨m, g, k, run, merged, finish ?_, spliced⟩
    rw [substitute, get_bind, linkInserted]
    dsimp only
    rw [found]
    exact replaced
  | none =>
    refine ⟨m, g, _, run, merged, finish ?_,
      substituted_run h reached hc (grown.mono strict) subs notSub link⟩
    rw [substitute, get_bind, linkInserted]
    dsimp only
    rw [found]
    dsimp only
    rw [stage_inserted, if_pos (grown.stage.trans parsing), if_pos]
    · rfl
    · rw [children, nodeInserted]
      exact hc

/-- The merged clause in the place of a clause is a graft. -/
theorem Merged.graft {m : Node NodeRef} (merged : Merged f g this m) (h : f.Coherent) (reached : f.Reached p)
    (hc : this ∈ f.children p)
    (spliced : Spliced f g k p ⟨g.size⟩ m ((f.node p).map fun r => if r = this then ⟨g.size⟩ else r) [this]) :
    Grafted f k p := by
  have fresh : (⟨g.size⟩ : NodeRef) ∉ f.children p := fun hm => by
    have : g.size < f.size := h.closed hm
    have := merged.grown.size
    omega
  refine merged.grafted h reached hc spliced ?_ ?_
  · intro c ha
    rw [Node.children_map] at ha
    obtain ⟨r, hr, rfl⟩ := List.mem_map.mp ha
    split
    · exact .inl rfl
    · next ne => exact .inr ⟨hr, ne⟩
  · rw [Node.children_map]
    refine List.Nodup.map_on (fun r hr s hs eq => ?_) (h.once reached)
    split at eq <;> split at eq
    · next hr hs => exact hr.trans hs.symm
    · exact absurd (eq ▸ hs) fresh
    · exact absurd (eq ▸ hr) fresh
    · exact eq

/-- A merge of a clause that a node lists is a graft at this node, or nothing is done. -/
theorem Coherent.merge_run (h : f.Coherent) (parsing : f.stage = .parsing) (reached : f.Reached p)
    (hc : this ∈ f.children p) (other : NodeRef) :
    (∃ merged k, merge this other f = .ok merged k ∧ Grafted f k p ∧ k.stage = f.stage ∧
        k.source = f.source ∧ (k.node p).kind = (f.node p).kind) ∨
      ∃ v, merge this other f = .error v f := by
  refine (h.merge_spliced parsing reached hc other).imp (fun ⟨m, g, k, _, merged, run, spliced⟩ => ?_)
    fun ⟨failed, _⟩ => ⟨_, failed⟩
  refine ⟨⟨g.size⟩, k, run, merged.graft h reached hc spliced, spliced.stage.trans merged.grown.stage,
    spliced.source.trans merged.grown.source, ?_⟩
  rw [spliced.node, if_pos rfl, Node.kind_map]

end SqlFold.Forest
