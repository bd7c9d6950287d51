import SqlFold.Proofs.Merging.Clauses
import SqlFold.Proofs.Sessions
import SqlFold.Proofs.Store.Copying

/-!
# The trees of merged clauses

A copy stands for the tree that was copied as long as its records stay (`Forest.CopyOf`). The merged clause
lists the sub-nodes of the first clause and copies of those of the second one (`Forest.Joined`). So a merge
puts the clause that joins two others (`Tree.Joins`) in the place of the first one and changes nothing else in
the tree (`Forest.Sound.merge_joins`).
-/

namespace SqlFold

namespace Forest

variable {ι : Type} {f g k : Forest} {r s this other p merged : NodeRef} {rs : List NodeRef}

/-! ## Copies -/

/-- Records that stay keep their trees. -/
theorem Coherent.bare_congr (h : f.Coherent) (size : f.size ≤ g.size) (inside : r.index < f.size)
    (same : ∀ s, s.index < f.size → f.Below r s → g.node s = f.node s) : g.bare r = f.bare r :=
  congrArg Tree.bare (h.tree_congr size fun s below => same s ((h.grounded_node r).lt_size_of_below inside below) below)

/-- Copies stand for the trees that were copied. -/
theorem Coherent.bare_copies {cs : List NodeRef} (h : f.Coherent) (inside : ∀ c ∈ cs, c.index < f.size) :
    ∃ rs g, cs.mapM copy f = .ok rs g ∧ Loose f g rs ∧ rs.map g.bare = cs.map f.bare := by
  obtain ⟨rs, g, run, visits, loose⟩ := copies_run cs f
  refine ⟨rs, g, run, loose, ((Grown.refl f _).bare_of_visits visits fun c mem g r k grown run => ?_).1⟩
  obtain ⟨copied, shown⟩ := bare_copy run
  exact ⟨copied, shown.trans (h.bare_congr grown.size (inside c mem) fun s old _ => grown.node old)⟩

/-- Where the records of a copy stay, nothing else comes to stand below it. -/
theorem Loose.below_of_kept (loose : Loose f g rs) (h : f.Coherent) (mem : r ∈ rs)
    (kept : ∀ s : NodeRef, f.size ≤ s.index → s.index < g.size → k.node s = g.node s) (below : k.Below r s) :
    g.Below r s := by
  induction below with
  | refl => exact .refl
  | @tail q c _ listed ih =>
    have inside := ((loose.grown.coherent h).grounded_node r).lt_size_of_below (loose.fresh r mem).2 ih
    rw [children, kept q (loose.size_le_of_below mem ih) inside] at listed
    exact ih.tail listed

/-- In the store `k` the node `c` stands for the tree that stood under `r` in the store `f`, and was put there with
everything below it since then. -/
structure CopyOf (f k : Forest) (r c : NodeRef) : Prop where
  fresh : ∀ s, k.Below c s → f.size ≤ s.index
  same : k.bare c = f.bare r

/-- A copy stands for its tree where its records stay. -/
theorem Loose.copyOf (loose : Loose f g rs) (h : f.Coherent) (mem : s ∈ rs) (shown : g.bare s = f.bare r)
    (size : g.size ≤ k.size) (kept : ∀ s : NodeRef, f.size ≤ s.index → s.index < g.size → k.node s = g.node s) :
    CopyOf f k r s where
  fresh _ below := loose.size_le_of_below mem (loose.below_of_kept h mem kept below)
  same := ((loose.grown.coherent h).bare_congr size (loose.fresh s mem).2 fun _ inside below =>
    kept _ (loose.size_le_of_below mem below) inside).trans shown

/-! ## Merged clauses -/

/-- The node `both` of the store `k` is the conjunction of the node `a`, which keeps its tree, and a copy of `b`. The
`AND` between them stands at the place of the clause `other`. -/
structure Conjoined (f k : Forest) (other a b both : NodeRef) : Prop where
  first : k.bare a = f.bare a
  second : ∃ copy, CopyOf f k b copy ∧
    k.node both = .conjunction ⟨⟨none, a⟩, ⟨some ⟨.andKw, "AND", f.position other⟩, copy⟩, []⟩

/-- A node of the store `k` joins two clauses of the store `f`, of which `other` is the second one. -/
inductive Joined (f k : Forest) (other : NodeRef) : Node NodeRef → Node NodeRef → Node NodeRef → Prop
  | filter {a b : Restriction NodeRef} {both : NodeRef} : Conjoined f k other a.expression b.expression both →
      Joined f k other (.whereClause a) (.whereClause b) (.whereClause ⟨a.keyword, both⟩)
  | having {a b : Restriction NodeRef} {both : NodeRef} : Conjoined f k other a.expression b.expression both →
      Joined f k other (.havingClause a) (.havingClause b) (.havingClause ⟨a.keyword, both⟩)
  | grouping {a b : GroupBy NodeRef} {copies : List NodeRef} : (∀ c ∈ a.expressions, k.bare c = f.bare c) →
      List.Forall₂ (CopyOf f k) b.expressions copies →
        Joined f k other (.groupBy a) (.groupBy b) (.groupBy { a with expressions := a.expressions ++ copies })

/-- A store that has the records of a merged clause, and under the clause that was merged what stood there. -/
structure Keeps (f g k : Forest) (this : NodeRef) : Prop where
  coherent : k.Coherent
  size : g.size ≤ k.size
  fresh : ∀ s : NodeRef, f.size ≤ s.index → s.index < g.size → k.node s = g.node s
  old : ∀ c ∈ f.children this, k.bare c = f.bare c

/-- A merged condition is the conjunction of both. -/
theorem Keeps.conjoined {a b c : Restriction NodeRef} (keeps : Keeps f g k this) (h : f.Coherent)
    (listed : a.expression ∈ f.children this) (inside : other.index < f.size)
    (run : mergedCondition a b other f = .ok c g) :
    c.keyword = a.keyword ∧ Conjoined f k other a.expression b.expression c.expression := by
  obtain ⟨second, copied, run', _⟩ := copy_run b.expression f
  obtain ⟨loose, shown⟩ := bare_copy run'
  have size := loose.grown.size
  rw [mergedCondition, bind_ok run'] at run
  cases run
  have kept : ∀ s : NodeRef, f.size ≤ s.index → s.index < copied.size → k.node s = copied.node s := by
    intro s new inside
    rw [keeps.fresh s new (by simp; omega), node_inserted, if_neg (Nat.ne_of_lt inside)]
  have copy := loose.copyOf h List.mem_cons_self shown (by have := keeps.size; simp at this; omega) kept
  have place : copied.position other = f.position other := by
    rw [← position_bare, ← position_bare, h.bare_congr size inside fun s old _ => loose.grown.node old]
  refine ⟨rfl, keeps.old _ listed, second, copy, ?_⟩
  rw [← place, keeps.fresh ⟨copied.size⟩ size (by rw [size_inserted]; exact Nat.lt_succ_self _), node_inserted, if_pos rfl]

/-- The merged clause joins both clauses. -/
theorem Keeps.joined {m : Node NodeRef} (keeps : Keeps f g k this) (h : f.Coherent)
    (run : mergedClause this other f = .ok m g) : Joined f k other (f.node this) (f.node other) m := by
  rcases mergedClause_cases f this other with ⟨a, b, hThis, hOther, same⟩ | ⟨a, b, hThis, hOther, same⟩ |
    ⟨a, b, hThis, hOther, same⟩ | ⟨failed, _⟩
  · have listed : a.expression ∈ f.children this := by simp [children, hThis]
    have inside : other.index < f.size := f.lt_size_of_mem_children (c := b.expression) (by simp [children, hOther])
    obtain ⟨c, g', run', _⟩ := mergedCondition_run a b other (h.closed listed) listed
    rw [same, bind_ok run'] at run
    cases run
    obtain ⟨keyword, conjoined⟩ := keeps.conjoined h listed inside run'
    have joined := Joined.filter (a := a) (b := b) conjoined
    rwa [← keyword, ← hThis, ← hOther] at joined
  · have listed : a.expression ∈ f.children this := by simp [children, hThis]
    have inside : other.index < f.size := f.lt_size_of_mem_children (c := b.expression) (by simp [children, hOther])
    obtain ⟨c, g', run', _⟩ := mergedCondition_run a b other (h.closed listed) listed
    rw [same, bind_ok run'] at run
    cases run
    obtain ⟨keyword, conjoined⟩ := keeps.conjoined h listed inside run'
    have joined := Joined.having (a := a) (b := b) conjoined
    rwa [← keyword, ← hThis, ← hOther] at joined
  · have listed : ∀ c ∈ a.expressions, c ∈ f.children this := by simp [children, hThis]
    have inside : ∀ c ∈ b.expressions, c.index < f.size := by
      intro c mem
      have below : c ∈ f.children other := by simpa [children, hOther] using mem
      exact h.closed below
    obtain ⟨copies, g', run', loose, shown⟩ := h.bare_copies inside
    rw [← List.forall₂_eq_eq_eq, List.forall₂_map_left_iff, List.forall₂_map_right_iff] at shown
    rw [same, bind_ok run'] at run
    cases run
    rw [hThis, hOther]
    refine .grouping (fun c mem => keeps.old c (listed c mem)) (List.Forall₂.flip ?_)
    refine ((List.forall₂_and_left _ _).mpr ⟨fun c mem => mem, shown⟩).imp ?_
    rintro c b ⟨mem, shown⟩
    exact loose.copyOf h mem shown keeps.size keeps.fresh
  · cases failed.symm.trans run

/-- The trees of clauses that are joined are joined. -/
theorem Joined.joins {m : Node NodeRef} (joined : Joined f k other (f.node this) (f.node other) m) (h : f.Coherent)
    (h' : k.Coherent) : Tree.Joins (f.bare this) (f.bare other) (.mk () (m.map k.bare)) := by
  have shown {a b both : NodeRef} (conjoined : Conjoined f k other a b both) :
      k.bare both = Tree.both ⟨.andKw, "AND", f.position other⟩ (f.bare a) (f.bare b) := by
    obtain ⟨first, copy, second, node⟩ := conjoined
    rw [h'.bare_eq, node]
    simp only [Node.map, Junct.map, List.map_nil, first, second.same]
    rfl
  rw [h.bare_eq this, h.bare_eq other]
  generalize f.node this = nThis at joined
  generalize f.node other = nOther at joined
  cases joined with
  | @filter a b _ conjoined =>
    have joins := Tree.Joins.filter (a.map f.bare) (b.map f.bare) (f.position other)
    simpa only [Node.map, Restriction.map, shown conjoined] using joins
  | @having a b _ conjoined =>
    have joins := Tree.Joins.having (a.map f.bare) (b.map f.bare) (f.position other)
    simpa only [Node.map, Restriction.map, shown conjoined] using joins
  | @grouping a b copies first copied =>
    have second : b.expressions.map f.bare = copies.map k.bare := by
      rw [← List.forall₂_eq_eq_eq, List.forall₂_map_left_iff, List.forall₂_map_right_iff]
      exact copied.imp fun b c copy => copy.same.symm
    have joins := Tree.Joins.grouping ⟨a.group, a.byKeyword, a.expressions.map f.bare⟩
      ⟨b.group, b.byKeyword, b.expressions.map f.bare⟩
    simpa only [Node.map, List.map_append, List.map_congr_left first, ← second] using joins

/-- After a merge the merged clause stands in the place of the clause. -/
theorem Coherent.replaces {new : NodeRef} (h : f.Coherent) (h' : k.Coherent)
    (node : ∀ s : NodeRef, s.index < f.size →
      k.node s = if s = p then (f.node p).map (fun r => if r = this then new else r) else f.node s)
    (inside : r.index < f.size) : Tree.Replaces (f.bare this) (k.bare new) (f.bare r) (k.bare r) := by
  induction r using h.grounded.induction with
  | _ r ih =>
    rw [h.bare_eq r, h'.bare_eq r, node r inside]
    by_cases here : r = p
    · subst here
      rw [if_pos rfl, Node.map_map]
      refine .of_map fun c listed => ?_
      by_cases replaced : c = this
      · rw [Function.comp, if_pos replaced, replaced]
        exact .here
      · rw [Function.comp, if_neg replaced]
        exact ih c listed (h.closed listed)
    · rw [if_neg here]
      exact .of_map fun c listed => ih c listed (h.closed listed)

/-- In the store `k` the clause that joins `this` and `other` stands in the slot of the node `p` that was that of `this`
in the store `f`, and the other nodes are as they were. -/
structure Installed (f k : Forest) (this other p merged : NodeRef) : Prop where
  above : f.Reached p
  listed : this ∈ f.children p
  fresh : f.size ≤ merged.index
  graft : Grafted f k p
  node : ∀ s : NodeRef, s.index < f.size →
    k.node s = if s = p then (f.node p).map (fun r => if r = this then merged else r) else f.node s
  clause : Joined f k other (f.node this) (f.node other) (k.node merged)

/-- A merge that succeeds installs the merged clause. -/
theorem Sound.merge_installed (h : f.Sound) (reached : f.Reached this) (run : f.merge this other = .ok merged k) :
    ∃ p, Installed f k this other p merged := by
  rcases reached.cases with rfl | ⟨p, above, hc⟩
  · obtain ⟨v, failed⟩ := h.merge_root other
    rw [run] at failed
    cases failed
  rcases h.coherent.merge_spliced h.parsing above hc other with ⟨m, g, k', clause, made, run', spliced⟩ | ⟨failed, _⟩
  swap
  · rw [run] at failed
    cases failed
  rw [run] at run'
  cases run'
  have graft := made.graft h.coherent above hc spliced
  have coherent := graft.coherent h.coherent
  have size := made.grown.size
  have insideP := h.coherent.lt_size above
  have keeps : Keeps f g k this := by
    refine ⟨coherent, by rw [spliced.size]; exact Nat.le_succ _, fun s new inside => ?_, fun c listed => ?_⟩
    · have notP : s ≠ p := by
        rintro rfl
        omega
      have notNew : s ≠ ⟨g.size⟩ := by
        rintro rfl
        exact Nat.lt_irrefl _ inside
      rw [spliced.node, if_neg notP, if_neg notNew]
    · refine congrArg Tree.bare (graft.tree_eq h.coherent (h.coherent.closed listed) fun below => ?_)
      exact Coherent.not_below_of_mem_children h.coherent.grounded hc (.head listed below)
  have notP : (⟨g.size⟩ : NodeRef) ≠ p := by
    rintro rfl
    exact absurd insideP (Nat.not_lt.mpr size)
  refine ⟨p, above, hc, size, graft, fun s inside => ?_, ?_⟩
  · have notNew : s ≠ ⟨g.size⟩ := by
      rintro rfl
      exact absurd inside (Nat.not_lt.mpr size)
    rw [spliced.node, if_neg notNew, made.grown.node inside]
  · rw [spliced.node, if_neg notP, if_pos rfl]
    exact keeps.joined h.coherent clause

/-- A merge puts a clause that joins both in the place of the first one. -/
theorem Sound.merge_joins (h : f.Sound) (reached : f.Reached this) (run : f.merge this other = .ok merged k) :
    k.Sound ∧ Tree.Joins (f.bare this) (f.bare other) (k.bare merged) ∧
      Tree.Replaces (f.bare this) (k.bare merged) (f.bare Forest.root) (k.bare Forest.root) := by
  have sound := h.merge reached other
  rw [run] at sound
  obtain ⟨p, installed⟩ := h.merge_installed reached run
  have coherent := installed.graft.coherent h.coherent
  refine ⟨sound, ?_, h.coherent.replaces coherent installed.node h.coherent.nonempty⟩
  rw [coherent.bare_eq merged]
  exact installed.clause.joins h.coherent coherent

end Forest

end SqlFold
