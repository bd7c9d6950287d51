import SqlFold.Proofs.Engine.Changes
import SqlFold.Proofs.Rows.Weight
import SqlFold.Proofs.Translation.Clauses

/-!
# Runs over stores are runs over rows

A run over a branch of a store does to the trees of the branch what a run over the row of these trees
does, for a run that passes over the branches it has stabilized and for one that does not.

The simulation says of a step of the run over the branch `b` that it `Tracks` a step over the row of
`b`. Three things make it go through:

* `Kept b w w'`: nothing but the branch and what stands below it is changed or noted as stable;
* `Quiet again w c`: a sweep that meets the child `c` later has nothing to do inside it, because it
  is noted as stable with the fingerprint that it has. A run that starts over `again` every time
  needs no such note;
* a new branch has a number that nothing is noted of.

What is done at the bound on the depth is left open. It is never done, because every level takes
weight away.
-/

namespace SqlFold

open Forest

variable {α β : Type} {f g : Forest} {b c r : NodeRef} {again : Bool} {i : Nat}

/-- The row of a fold that is seen through trees. -/
theorem Fold.row_map (below : α → Bare) (fold : Fold α) :
    (fold.map below id).row = fold.bare below := by
  have origin : Origin.bare id ∘ Origin.map below id = Origin.bare below := by
    funext o
    cases o with
    | sibling a => rfl
    | newTable name =>
      obtain ⟨_ | _, _⟩ := name <;> rfl
  rw [Fold.row, Fold.tree, Fold.bare, Fold.map, Node.mapTokens_id, Node.map_map, origin,
    List.map_reverse]

/-- The trees of the children of a branch. -/
def Forest.row (f : Forest) (b : NodeRef) : Row := (f.childList b).map f.bare

namespace Forest

theorem row_of_branch? {cs : List NodeRef} (branch : (f.node b).branch? = some cs) :
    f.row b = cs.map f.bare := by
  rw [row, childList, branch]
  rfl

/-- The tree of a branch shows its row. -/
theorem Coherent.branch?_bare (h : f.Coherent) (branch : (f.node b).isBranch = true) :
    (f.bare b).node.branch? = some (f.row b) := by
  obtain ⟨cs, hcs⟩ := Option.isSome_iff_exists.mp branch
  rw [h.node_bare, Node.branch?_map, hcs, row_of_branch? hcs]
  rfl

theorem Coherent.isBranch_bare (h : f.Coherent) (c : NodeRef) :
    (f.bare c).node.isBranch = (f.node c).isBranch := by
  rw [h.node_bare, Node.isBranch, Node.branch?_map, Option.isSome_map]
  rfl

theorem Remembers.row (rem : Remembers f g) : g.row = f.row := by
  funext b
  rw [Forest.row, Forest.row, rem.bare, childList, childList, rem.node]

end Forest

/-- Putting a tree where it stands changes nothing. -/
theorem Forest.row_set_self (found : (f.childList b)[i]? = some c) :
    f.row b = (f.row b).set i (f.bare c) := by
  obtain ⟨inside, rfl⟩ := List.getElem?_eq_some_iff.mp found
  rw [row, ← List.map_set, List.set_getElem_self]

namespace Folding

/-! ## What the steps of a run keep -/

variable {w w' w'' : Work}

/-- Nothing is noted of nodes that there are not. -/
def Fresh (w : Work) : Prop := ∀ r : NodeRef, w.forest.size ≤ r.index → w.stable[r.index]? = none

/-- A branch is noted as stable and looks as it did then. -/
def Settled (w : Work) (c : NodeRef) : Prop :=
  w.stable[c.index]? = some (w.forest.tree c).fingerprint

/-- A sweep that meets the node later may pass over it. -/
def Quiet (again : Bool) (w : Work) (c : NodeRef) : Prop :=
  again = true ∨ (w.forest.node c).isBranch = false ∨ Settled w c

/-- The work in which a run over a branch can go on. -/
structure Start (again : Bool) (b : NodeRef) (w : Work) : Prop where
  ready : Ready w.forest b
  fresh : Fresh w
  quiet : ∀ c ∈ w.forest.childList b, Quiet again w c

/-- Nothing but a branch and what stands below it is changed or noted. -/
structure Kept (b : NodeRef) (w w' : Work) : Prop where
  confined : Confined w.forest w'.forest b
  stable : ∀ {r}, w.forest.Reached r → ¬w.forest.Below b r →
    w'.stable[r.index]? = w.stable[r.index]?
  fresh : Fresh w'

namespace Kept

theorem refl (ready : Ready w.forest b) (fresh : Fresh w) : Kept b w w :=
  ⟨.refl ready.coherent ready.reached ready.branch, fun _ _ => rfl, fresh⟩

/-- Changes at a branch or below compose. -/
theorem trans (kept : Kept b w w') (ready : Ready w.forest b) (kept' : Kept c w' w'')
    (inside : w'.forest.Below b c) : Kept b w w'' where
  confined := kept.confined.trans ready.coherent kept'.confined inside
  stable {r} reached outside := by
    have later := (kept.confined.node reached outside).1
    have outside' := kept.confined.not_below ready.coherent reached outside
    rw [kept'.stable later fun below => outside' (inside.trans below), kept.stable reached outside]
  fresh := kept'.fresh

/-- Asking for fingerprints keeps everything. -/
theorem remembers (ready : Ready w.forest b) (fresh : Fresh w) (rem : Remembers w.forest f)
    (events : Array Event) : Kept b w { w with forest := f, events } :=
  ⟨rem.confined ready.coherent ready.reached ready.branch, fun _ _ => rfl,
    fun r outside => fresh r (rem.size ▸ outside)⟩

/-- A change below is one of the branch. -/
theorem of_child (kept : Kept c w w') (ready : Ready w.forest b) (fresh : Fresh w)
    (hc : c ∈ w.forest.children b) : Kept b w w' :=
  (Kept.refl ready fresh).trans ready kept (.single hc)

end Kept

/-- What is only remembered leaves nodes quiet. -/
theorem Quiet.remembers (quiet : Quiet again w c) (rem : Remembers w.forest f)
    (events : Array Event) : Quiet again { w with forest := f, events } c := by
  unfold Quiet Settled at quiet ⊢
  simpa only [rem.node, rem.tree] using quiet

/-- What is only remembered leaves the work as it is for a run. -/
theorem Start.remembers (start : Start again b w) (rem : Remembers w.forest f)
    (events : Array Event) : Start again b { w with forest := f, events } where
  ready := start.ready.of_confined
    (rem.confined start.ready.coherent start.ready.reached start.ready.branch)
  fresh r outside := start.fresh r (rem.size ▸ outside)
  quiet c hc := by
    have same : f.childList b = w.forest.childList b := by rw [childList, childList, rem.node]
    exact (start.quiet c (same ▸ hc)).remembers rem events

/-! ## Steps that agree -/

/-- A step over the branch `b` of a store comes to the same as a step over its row. -/
inductive Tracks (again : Bool) (b : NodeRef) (w : Work) :
    EStateM.Result Error Work α → EStateM.Result Failure Row α → Prop
  | ok {a : α} {w' : Work} : Kept b w w' → (∀ c ∈ w'.forest.childList b, Quiet again w' c) →
      Tracks again b w (.ok a w') (.ok a (w'.forest.row b))
  | error {failure : Failure} {w' : Work} : Kept b w w' →
      Tracks again b w (.error (failure.error w.forest.source) w')
        (.error failure (w'.forest.row b))

namespace Tracks

/-- The same state and value on both sides. -/
theorem of_ok {a : α} {row : Row} (kept : Kept b w w')
    (quiet : ∀ c ∈ w'.forest.childList b, Quiet again w' c) (eq : w'.forest.row b = row) :
    Tracks again b w (.ok a w') (.ok a row) := eq ▸ .ok kept quiet

theorem of_error {e : Error} {failure : Failure} {row : Row} (kept : Kept b w w')
    (same : e = failure.error w.forest.source) (eq : w'.forest.row b = row) :
    Tracks (α := α) again b w (.error e w') (.error failure row) := by
  subst same eq
  exact .error kept

/-- After a step that ends well a run can go on. -/
theorem start (ready : Ready w.forest b) {a : α} {row : Row}
    (tracks : Tracks again b w (.ok a w') (.ok a row)) : Start again b w' := by
  cases tracks with
  | ok kept quiet => exact ⟨ready.of_confined kept.confined, kept.fresh, quiet⟩

/-- What is tracked from a later work is tracked from here. -/
theorem later (ready : Ready w.forest b) (kept : Kept b w w') {x : EStateM.Result Error Work α}
    {y : EStateM.Result Failure Row α} (tracks : Tracks again b w' x y) :
    Tracks again b w x y := by
  cases tracks with
  | ok kept' quiet => exact .ok (kept.trans ready kept' .refl) quiet
  | error kept' =>
    rw [kept.confined.source]
    exact .error (kept.trans ready kept' .refl)

/-- Steps that go on after one another. -/
theorem bind (ready : Ready w.forest b) {x : Step α} {y : Row.Step α} {k : α → Step β}
    {l : α → Row.Step β} {row : Row} (first : Tracks again b w (x w) (y row))
    (second : ∀ a w', Start again b w' → y row = .ok a (w'.forest.row b) →
      Tracks again b w' (k a w') (l a (w'.forest.row b))) :
    Tracks again b w ((x >>= k) w) ((y >>= l) row) := by
  cases run : x w with
  | ok a w' =>
    rw [run] at first
    cases run' : y row with
    | error e row' =>
      rw [run'] at first
      cases first
    | ok a' row' =>
      rw [run'] at first
      cases first with
      | ok kept quiet =>
        rw [bind_ok run, bind_ok run']
        have start : Start again b w' := ⟨ready.of_confined kept.confined, kept.fresh, quiet⟩
        exact (second a w' start run').later ready kept
  | error e w' =>
    rw [run] at first
    cases run' : y row with
    | ok a' row' =>
      rw [run'] at first
      cases first
    | error e' row' =>
      rw [run'] at first
      rw [bind_error run, bind_error run']
      cases first with
      | error kept => exact .error kept

end Tracks

/-! ## Visits -/

/-- What a way to stabilize branches has to do if it is to settle rows that weigh less than `bound`:
a settled branch is passed over, and any other is settled as its row is. -/
structure Meets (again : Bool) (bound : Nat) (stabilize : NodeRef → Step Unit)
    (settle : Row.Step Unit) : Prop where
  runs : ∀ {c w}, Start again c w → Row.weight (w.forest.row c) < bound →
    (again = true ∨ ¬Settled w c) →
      Tracks again c w (stabilize c w) (settle (w.forest.row c)) ∧
        ∀ w', stabilize c w = .ok () w' → Quiet again w' c
  skips : ∀ {c w}, Ready w.forest c → Row.weight (w.forest.row c) < bound → again = false →
    Settled w c → ∃ f, Remembers w.forest f ∧ stabilize c w = .ok () { w with forest := f }
  bounded : ∀ row, Row.Bounded 0 row.weight (settle row)

/-- A step inside the child of `b` at an offset comes to the same as a step inside its tree. -/
inductive Visited (again : Bool) (b : NodeRef) (i : Nat) (w : Work) :
    EStateM.Result Error Work Unit → EStateM.Result Failure Bare Unit → Prop
  | ok {w' : Work} {t : Bare} : Kept b w w' → (∀ c ∈ w'.forest.childList b, Quiet again w' c) →
      w'.forest.node b = w.forest.node b → w'.forest.row b = (w.forest.row b).set i t →
        Visited again b i w (.ok () w') (.ok () t)
  | error {failure : Failure} {w' : Work} {t : Bare} : Kept b w w' →
      w'.forest.row b = (w.forest.row b).set i t →
        Visited again b i w (.error (failure.error w.forest.source) w') (.error failure t)

/-- The rows before and after a change at one child. -/
theorem row_eq_set (ready : Ready w.forest b) (kept : Kept c w w')
    (found : (w.forest.childList b)[i]? = some c) :
    w'.forest.node b = w.forest.node b ∧
      w'.forest.row b = (w.forest.row b).set i (w'.forest.bare c) := by
  have h := ready.coherent
  have hc : c ∈ w.forest.children b :=
    mem_children_of_mem_childList (List.mem_of_getElem? found)
  have same : w'.forest.node b = w.forest.node b :=
    (kept.confined.node ready.reached (Coherent.not_below_of_mem_children h.grounded hc)).2
  refine ⟨same, ?_⟩
  obtain ⟨cs, branch⟩ := Option.isSome_iff_exists.mp ready.branch
  have once := h.once ready.reached
  rw [Forest.children, Node.children_of_branch? branch] at once
  have children : w.forest.children b = cs := Node.children_of_branch? branch
  rw [childList, branch] at found
  replace found : cs[i]? = some c := found
  rw [row_of_branch? branch, row_of_branch? (same ▸ branch)]
  apply List.ext_getElem?
  intro j
  rw [List.getElem?_set, List.getElem?_map, List.getElem?_map, List.length_map]
  obtain ⟨inside, eq⟩ := List.getElem?_eq_some_iff.mp found
  split
  · next at_i =>
    subst at_i
    rw [found]
    rfl
  · next other =>
    cases hd : cs[j]? with
    | none => rfl
    | some d =>
      have ne : d ≠ c := by
        rintro rfl
        obtain ⟨inside', eq'⟩ := List.getElem?_eq_some_iff.mp hd
        exact other ((List.Nodup.getElem_inj_iff once).mp (eq.trans eq'.symm))
      have hd' : d ∈ w.forest.children b := children ▸ List.mem_of_getElem? hd
      simp only [Option.map_some, Forest.bare,
        kept.confined.tree_sibling_eq h ready.reached hc hd' ne]

/-- A branch shows the row that a run over it leaves. -/
theorem Kept.bare_site (kept : Kept c w w') (ready : Ready w.forest c) :
    w'.forest.bare c = (w.forest.bare c).withRow (w'.forest.row c) := by
  have replaced {n : Node NodeRef} (branch : n.isBranch = true) (f g : NodeRef → Bare) (cs : Row) :
      (n.map f).withBranch cs = (n.map g).withBranch cs := by
    cases n with
    | bracket p => rfl
    | root children => rfl
    | _ => cases branch
  obtain ⟨cs, node⟩ := kept.confined.branch
  have row : w'.forest.row c = cs.map w'.forest.bare :=
    row_of_branch? (by rw [node, Node.branch?_withBranch cs ready.branch])
  rw [kept.confined.coherent.bare_eq, node, Node.map_withBranch, ready.coherent.bare_eq, row]
  exact congrArg (Tree.mk ()) (replaced ready.branch _ _ _)

/-- What a run below one child does, the other children do not notice. -/
theorem Quiet.sibling (ready : Ready w.forest b) (kept : Kept c w w')
    (hc : c ∈ w.forest.children b) {d : NodeRef} (hd : d ∈ w.forest.children b) (ne : d ≠ c)
    (quiet : Quiet again w d) : Quiet again w' d := by
  have h := ready.coherent
  have outside : ¬w.forest.Below c d := fun below =>
    ne (h.eq_of_below ready.reached hd hc .refl below)
  have reached := ready.reached.child hd
  have node := (kept.confined.node reached outside).2
  have tree := kept.confined.tree_sibling_eq h ready.reached hc hd ne
  unfold Quiet Settled at quiet ⊢
  rwa [node, tree, kept.stable reached outside]

variable {bound : Nat} {stabilize : NodeRef → Step Unit} {settle : Row.Step Unit}
  (meets : Meets again bound stabilize settle)

include meets

/-- A child is stabilized as its tree is settled inside. -/
theorem stabilizeBranch_visited (ready : Ready w.forest b) (fresh : Fresh w)
    (light : Row.weight (w.forest.row b) ≤ bound)
    (found : (w.forest.childList b)[i]? = some c)
    (others : ∀ d ∈ w.forest.childList b, d ≠ c → Quiet again w d)
    (inner : (w.forest.node c).isBranch = true → (∀ d ∈ w.forest.childList c, Quiet again w d) ∧
      (again = true ∨ ¬Settled w c)) :
    Visited again b i w (stabilizeBranch stabilize c w)
      (Row.inside settle (w.forest.bare c)) := by
  have hc := mem_children_of_mem_childList (List.mem_of_getElem? found)
  show Visited again b i w
    ((if (w.forest.node c).isBranch then stabilize c else pure () : Step Unit) w) _
  cases branch : (w.forest.node c).isBranch with
  | false =>
    have plain : (w.forest.bare c).node.branch? = none := by
      have := (ready.coherent.isBranch_bare c).trans branch
      rwa [Node.isBranch, Option.isSome_eq_false_iff, Option.isNone_iff_eq_none] at this
    rw [Row.inside, plain]
    refine .ok (.refl ready fresh) (fun d hd => ?_) rfl ?_
    · by_cases eq : d = c
      · exact .inr (.inl (eq ▸ branch))
      · exact others d hd eq
    · exact row_set_self found
  | true =>
    obtain ⟨quietInside, run⟩ := inner branch
    have startC : Start again c w :=
      ⟨⟨ready.coherent, ready.parsing, ready.reached.child hc, branch⟩, fresh, quietInside⟩
    have shown := ready.coherent.branch?_bare branch
    have lighter : Row.weight (w.forest.row c) < bound := by
      have := Tree.weight_of_branch? shown
      have mem : w.forest.bare c ∈ w.forest.row b :=
        List.mem_map_of_mem (List.mem_of_getElem? found)
      have := Row.weight_le_of_mem mem
      omega
    obtain ⟨tracks, after⟩ := meets.runs startC lighter run
    rw [Row.inside, shown]
    dsimp only
    show Visited again b i w (stabilize c w) _
    have finish {w' : Work} (kept : Kept c w w') :
        Kept b w w' ∧ w'.forest.node b = w.forest.node b ∧ w'.forest.row b =
          (w.forest.row b).set i ((w.forest.bare c).withRow (w'.forest.row c)) := by
      obtain ⟨node, row⟩ := row_eq_set ready kept found
      refine ⟨kept.of_child ready fresh hc, node, ?_⟩
      rw [row, kept.bare_site startC.ready]
    generalize settle (w.forest.row c) = r at tracks ⊢
    generalize run' : stabilize c w = r' at tracks after ⊢
    cases tracks with
    | @ok a w' kept quiet =>
      obtain ⟨kept', node, row⟩ := finish kept
      refine .ok kept' (fun d hd => ?_) node row
      by_cases eq : d = c
      · exact eq ▸ after w' rfl
      · have hd : d ∈ w.forest.childList b := by rwa [childList, node] at hd
        exact (others d hd eq).sibling ready kept hc (mem_children_of_mem_childList hd) eq
    | error kept =>
      obtain ⟨kept', node, row⟩ := finish kept
      exact .error kept' row

/-- A child that a sweep passes is stabilized as its tree is visited. -/
theorem stabilizeBranch_passed (start : Start again b w)
    (light : Row.weight (w.forest.row b) ≤ bound)
    (found : (w.forest.childList b)[i]? = some c) :
    Visited again b i w (stabilizeBranch stabilize c w)
      ((Row.visitsBy again settle).passed (w.forest.bare c)) := by
  have hc := List.mem_of_getElem? found
  cases again with
  | true =>
    exact stabilizeBranch_visited meets start.ready start.fresh light found
      (fun _ _ _ => .inl rfl) fun _ => ⟨fun _ _ => .inl rfl, .inl rfl⟩
  | false =>
    show Visited false b i w
      ((if (w.forest.node c).isBranch then stabilize c else pure () : Step Unit) w)
      (.ok () (w.forest.bare c))
    have stays : w.forest.row b = (w.forest.row b).set i (w.forest.bare c) := row_set_self found
    cases branch : (w.forest.node c).isBranch with
    | false => exact .ok (.refl start.ready start.fresh) start.quiet rfl stays
    | true =>
      have settled : Settled w c := by
        rcases start.quiet c hc with again | plain | settled
        · cases again
        · rw [branch] at plain
          cases plain
        · exact settled
      have readyC : Ready w.forest c := ⟨start.ready.coherent, start.ready.parsing,
        start.ready.reached.child (mem_children_of_mem_childList hc), branch⟩
      have lighter : Row.weight (w.forest.row c) < bound := by
        have := Tree.weight_of_branch? (readyC.coherent.branch?_bare branch)
        have mem : w.forest.bare c ∈ w.forest.row b := List.mem_map_of_mem hc
        have := Row.weight_le_of_mem mem
        omega
      obtain ⟨f, rem, run⟩ := meets.skips readyC lighter rfl settled
      rw [if_pos rfl, run]
      have after := start.remembers rem w.events
      refine .ok (.remembers start.ready start.fresh rem w.events) after.quiet (rem.node b) ?_
      rw [← stays, rem.row]

omit meets

/-- A visit of the child at an offset as a step over the branch. -/
theorem Visited.tracks {x : Step Unit} {change : EStateM Failure Bare Unit}
    (found : (w.forest.childList b)[i]? = some c)
    (visited : Visited again b i w (x w) (change (w.forest.bare c))) :
    Tracks again b w (x w) (Row.changeAt i change (w.forest.row b)) := by
  have found' : (w.forest.row b)[i]? = some (w.forest.bare c) := by
    rw [Forest.row, List.getElem?_map, found]
    rfl
  rw [Row.changeAt, found']
  dsimp only
  generalize x w = r at visited
  generalize change (w.forest.bare c) = r' at visited ⊢
  cases visited with
  | ok kept quiet _ row => exact .of_ok kept quiet row
  | error kept row => exact .of_error kept rfl row

/-! ## Sweeps -/

variable {fold : Fold NodeRef} {new : NodeRef} {focus : Focus NodeRef} {back ahead : List NodeRef}

/-- What a fold leaves for the rest of the run: the siblings that stay are as quiet as they were, and
nothing is noted of the new node, which has only quiet nodes inside it. -/
theorem Start.folded (start : Start again b w)
    (branch : (w.forest.node b).branch? = some (focus.left.reverse ++ focus.here :: focus.right))
    (covers : Rule.Covers w.forest.node focus fold back ahead)
    (folded : Folded w.forest g b fold new) :
    Kept b w { w with forest := g } ∧
      (∀ c ∈ g.childList b, c ≠ new → Quiet again { w with forest := g } c) ∧
      w.stable[new.index]? = none ∧
      ∀ c ∈ g.childList new, Quiet again { w with forest := g } c := by
  have h := start.ready.coherent
  have children : w.forest.children b = focus.left.reverse ++ focus.here :: focus.right :=
    Node.children_of_branch? branch
  have stays {c : NodeRef} (hc : c ∈ w.forest.children b) :
      Quiet again { w with forest := g } c := by
    have hc' : c ∈ w.forest.childList b := by rwa [childList, branch, Option.getD_some, ← children]
    have quiet := start.quiet c hc'
    unfold Quiet Settled at quiet ⊢
    rwa [folded.node_of_mem_children h hc, folded.tree_of_mem_children h hc]
  refine ⟨⟨folded.confined h, fun _ _ => rfl, fun r outside => ?_⟩, fun c hc ne => ?_,
    start.fresh new folded.fresh, fun c hc => ?_⟩
  · exact start.fresh r (Nat.le_trans folded.graft.size outside)
  · rw [childList, folded.branch? start.ready.branch, Option.getD_some] at hc
    apply stays
    rw [children, covers.row]
    simp only [List.mem_append, List.mem_cons] at hc ⊢
    tauto
  · obtain ⟨o, mem, placed⟩ := Placed.exists_of_mem folded.placed (mem_children_of_mem_childList hc)
    cases placed with
    | sibling =>
      have taken : c ∈ back.reverse ++ focus.here :: ahead :=
        covers.siblings_sublist.subset (List.mem_filterMap.mpr ⟨_, mem, rfl⟩)
      apply stays
      rw [children, covers.row]
      exact List.mem_append_left _ (List.mem_append_right _ taken)
    | table _ _ node => exact .inr (.inl (congrArg Node.isBranch node))

variable {rule : Rule}

/-- A rule answers the same on nodes and on their trees. -/
theorem apply_bare (h : f.Coherent) (rule : Rule) (focus : Focus NodeRef) :
    rule.apply Tree.node (focus.map f.bare) =
      ((rule.apply f.node focus).map (Option.map (Fold.map f.bare id))).mapError
        (Objection.map f.bare) :=
  Rule.apply_map h.node_bare rule focus

/-- The marks of a sweep tell the children apart. -/
theorem getD_setIfInBounds_of_ne {seen : Array Bool} {i j : Nat} (ne : i ≠ j) :
    (seen.setIfInBounds i true).getD j false = seen.getD j false := by
  simp [Array.getD_eq_getD_getElem?, ne]

include meets

/-- A fold and the visit after it are a fold of the row and the visit after it. -/
theorem folded_tracks (focus : Focus NodeRef) {k : Forest} (events : Array Event) (start : Start again b w)
    (light : Row.weight (w.forest.row b) ≤ bound)
    (branch : (w.forest.node b).branch? = some (focus.left.reverse ++ focus.here :: focus.right))
    (answer : rule.apply w.forest.node focus = .ok (some fold))
    (covers : Rule.Covers w.forest.node focus fold back ahead)
    (folded : Folded w.forest g b fold new) (rem : Remembers g k) :
    Tracks again b w
      (stabilizeChild stabilize b focus.left.length { w with forest := k, events })
      (Row.changeAt focus.left.length
        ((Row.visitsBy again settle).after focus.left.length (fold.map w.forest.bare id))
        (fold.map w.forest.bare id).row) := by
  have h := start.ready.coherent
  obtain ⟨kept, others, unnoted, inner⟩ := start.folded branch covers folded
  obtain ⟨branch', trees, _⟩ := folded.bare_branch h branch covers
  have readyG : Ready g b := start.ready.of_confined kept.confined
  let w' : Work := { w with forest := k, events }
  have kept' : Kept b w w' :=
    kept.trans start.ready (.remembers readyG kept.fresh rem events) .refl
  have ready' : Ready k b := start.ready.of_confined kept'.confined
  have children : k.childList b = fold.left.reverse ++ new :: fold.right := by
    rw [childList, rem.node, branch']
    rfl
  have row : k.row b = fold.bare w.forest.bare := by
    rw [rem.row, Forest.row, childList, branch', Option.getD_some, trees]
  have others' : ∀ d ∈ k.childList b, d ≠ new → Quiet again w' d := fun d hd ne =>
    (others d (by rwa [childList, ← rem.node]) ne).remembers rem events
  have light' : Row.weight (k.row b) ≤ bound := by
    have answer' := apply_bare h rule focus
    rw [answer] at answer'
    have lighter := Rule.weight_row_lt answer'
    have before : w.forest.row b =
        (focus.left.map w.forest.bare).reverse
          ++ w.forest.bare focus.here :: focus.right.map w.forest.bare := by
      rw [row_of_branch? branch, List.map_append, List.map_reverse, List.map_cons]
    rw [Fold.row_map, ← before] at lighter
    rw [row]
    omega
  have made : (k.node new).isBranch = fold.node.isBranch := by
    have same := congrArg Node.isBranch folded.shape
    rw [rem.node]
    simpa only [Node.shape, Node.isBranch, Node.branch?_map, Option.isSome_map] using same
  rw [Fold.row_map, ← row]
  show Tracks again b w (stabilizeChild stabilize b focus.left.length w') _
  unfold stabilizeChild
  rw [bind_ok (forest_run w'), show w'.forest = k from rfl]
  refine Tracks.later start.ready kept' ?_
  unfold Row.Visits.after
  rw [show (fold.map w.forest.bare id).left.length = fold.left.length from List.length_map _]
  split
  · next same =>
    have found : (k.childList b)[focus.left.length]? = some new := by
      rw [children, ← same, List.getElem?_append_right (by simp)]
      simp
    rw [found]
    refine Visited.tracks found ?_
    refine stabilizeBranch_visited meets ready' kept'.fresh light' found others' fun _ => ⟨?_, ?_⟩
    · intro d hd
      exact (inner d (by rwa [childList, ← rem.node])).remembers rem events
    · refine .inr fun settled => ?_
      rw [Settled, show w'.stable = w.stable from rfl, unnoted] at settled
      cases settled
  · next moved =>
    have plain : (k.node new).isBranch = false := by
      rw [made]
      by_contra isBranch
      obtain rfl := Rule.eq_bracket_of_isBranch answer (Bool.eq_true_of_not_eq_false isBranch)
      obtain ⟨_, _, _, _, _, _, _, _, _, eq⟩ := Rule.applyBracket_fold answer
      exact moved (congrArg (List.length ∘ Fold.left) eq)
    have start' : Start again b w' := by
      refine ⟨ready', kept'.fresh, fun d hd => ?_⟩
      by_cases eq : d = new
      · exact .inr (.inl (eq ▸ plain))
      · exact others' d hd eq
    cases found : (k.childList b)[focus.left.length]? with
    | none =>
      have found' : (k.row b)[focus.left.length]? = none := by
        rw [Forest.row, List.getElem?_map, found]
        rfl
      rw [Row.changeAt, found']
      exact .ok (.refl ready' kept'.fresh) start'.quiet
    | some c => exact Visited.tracks found (stabilizeBranch_passed meets start' light' found)

/-- The rest of a sweep over a branch is the rest of a sweep over its row. -/
theorem sweepFrom_tracks (start : Start again b w)
    (light : Row.weight (w.forest.row b) ≤ bound) (size : Nat) (seen : Array Bool)
    (passed : List NodeRef) {rest : List NodeRef}
    (branch : (w.forest.node b).branch? = some (passed.reverse ++ rest))
    (unseen : ∀ c ∈ rest, seen.getD c.index false = false) :
    Tracks again b w (sweepFrom stabilize rule b size seen passed.length passed rest w)
      (Row.sweepFrom (Row.visitsBy again settle) rule (passed.map w.forest.bare)
        (rest.map w.forest.bare)) := by
  induction rest generalizing w seen passed with
  | nil =>
    refine .of_ok (.refl start.ready start.fresh) start.quiet ?_
    rw [row_of_branch? branch, List.append_nil, List.map_reverse]
  | cons child right ih =>
    have h := start.ready.coherent
    have answer' := apply_bare h rule ⟨passed, child, right⟩
    have called : Called rule b ⟨passed, child, right⟩ w _ :=
      h.call_run rule size passed.length start.ready.parsing start.ready.reached branch
    have row : w.forest.row b = (passed.map w.forest.bare).reverse
        ++ w.forest.bare child :: right.map w.forest.bare := by
      rw [row_of_branch? branch, List.map_append, List.map_reverse, List.map_cons]
    unfold sweepFrom
    rw [unseen child List.mem_cons_self, if_neg Bool.false_ne_true, List.map_cons]
    unfold Row.sweepFrom
    generalize run : call rule b size passed.length ⟨passed, child, right⟩ w = r at called
    cases called with
    | @objected o f events answer rem =>
      rw [answer] at answer'
      replace answer' : rule.apply Tree.node ⟨passed.map w.forest.bare, w.forest.bare child,
        right.map w.forest.bare⟩ = .error ⟨w.forest.bare o.culprit, o.fault⟩ := answer'
      rw [answer', bind_error run]
      refine .of_error (.remembers start.ready start.fresh rem events) ?_ ?_
      · rw [locate, Failure.error, position_bare]
      · rw [rem.row, row]
    | @declined f events answer rem =>
      rw [answer] at answer'
      replace answer' : rule.apply Tree.node ⟨passed.map w.forest.bare, w.forest.bare child,
        right.map w.forest.bare⟩ = .ok none := answer'
      rw [answer', bind_ok run]
      let w₁ : Work := { w with forest := f, events }
      have kept : Kept b w w₁ := .remembers start.ready start.fresh rem events
      have start₁ : Start again b w₁ := start.remembers rem events
      have branch₁ : (f.node b).branch? = some (passed.reverse ++ child :: right) := by
        rw [rem.node, branch]
      have found : (f.childList b)[passed.length]? = some child := by
        rw [childList, branch₁, Option.getD_some, List.getElem?_append_right (by simp)]
        simp
      have visited := stabilizeBranch_passed meets start₁ (by rw [rem.row]; exact light) found
      rw [rem.bare] at visited
      have inside := (Row.visitsBy_bounded again meets.bounded).passed (w.forest.bare child)
      refine Tracks.later start.ready kept ?_
      show Tracks again b w₁ ((stabilizeBranch stabilize child >>= fun _ =>
        sweepFrom stabilize rule b size (seen.setIfInBounds child.index true) (passed.length + 1)
          (child :: passed) right : Step Bool) w₁) _
      dsimp only
      generalize run' : stabilizeBranch stabilize child w₁ = r at visited
      generalize (Row.visitsBy again settle).passed (w.forest.bare child) = r' at visited inside ⊢
      have row₁ (t : Bare) : (f.row b).set passed.length t = (passed.map w.forest.bare).reverse
          ++ t :: right.map w.forest.bare := by
        rw [rem.row, row, List.set_append_right _ _ (by simp)]
        simp
      cases visited with
      | error kept' row' =>
        rw [bind_error run']
        exact .of_error kept' rfl (row'.trans (row₁ _))
      | @ok w' t kept' quiet node row' =>
        rw [bind_ok run']
        have start' : Start again b w' :=
          ⟨start₁.ready.of_confined kept'.confined, kept'.fresh, quiet⟩
        have branch' : (w'.forest.node b).branch? = some ((child :: passed).reverse ++ right) := by
          rw [node, branch₁]
          simp
        -- The trees of the row are those before the visit, but for the child.
        have trees : (passed.map w'.forest.bare).reverse
              ++ w'.forest.bare child :: right.map w'.forest.bare =
            (passed.map w.forest.bare).reverse ++ t :: right.map w.forest.bare := by
          rw [← row₁, ← row', row_of_branch? branch']
          simp
        obtain ⟨before, after⟩ := List.append_inj trees (by simp)
        obtain ⟨here, after⟩ := List.cons.inj after
        have light' : Row.weight (w'.forest.row b) ≤ bound := by
          rw [row', row₁]
          rw [row] at light
          cases inside with
          | ok lighter =>
            simp only [Row.weight_append, Row.weight_cons] at light ⊢
            omega
        have once : child ∉ right := by
          have once := h.once start.ready.reached
          rw [children, Node.children_of_branch? branch] at once
          exact (List.nodup_cons.mp (List.nodup_append.mp once).2.1).1
        have unseen' : ∀ c ∈ right,
            (seen.setIfInBounds child.index true).getD c.index false = false := by
          intro c hc
          rw [getD_setIfInBounds_of_ne fun eq => once ?_]
          · exact unseen c (List.mem_cons_of_mem _ hc)
          · rwa [NodeRef.index_eq_iff.mp eq]
        have rest := ih start' light' (seen.setIfInBounds child.index true)
          (child :: passed) branch' unseen'
        rw [List.map_cons, here, List.reverse_inj.mp before, after] at rest
        exact rest.later start₁.ready kept'
    | @folded fold f g k new back ahead events answer rem covers ran folded rem' =>
      rw [answer] at answer'
      replace answer' : rule.apply Tree.node ⟨passed.map w.forest.bare, w.forest.bare child,
        right.map w.forest.bare⟩ = .ok (some (fold.map w.forest.bare id)) := answer'
      rw [answer', bind_ok run]
      let w₁ : Work := { w with forest := f }
      have kept : Kept b w w₁ := .remembers start.ready start.fresh rem w.events
      have start₁ : Start again b w₁ := start.remembers rem w.events
      have branch₁ : (f.node b).branch? = some (passed.reverse ++ child :: right) := by
        rw [rem.node, branch]
      have answer₁ : rule.apply f.node ⟨passed, child, right⟩ = .ok (some fold) := by
        rw [rem.node_eq, answer]
      have tracks := folded_tracks meets ⟨passed, child, right⟩ events start₁
        (by rw [rem.row]; exact light) branch₁ answer₁ covers folded rem'
      rw [show w₁.forest.bare = w.forest.bare from rem.bare] at tracks
      refine Tracks.later start.ready kept ?_
      rw [List.length_map]
      show Tracks again b w₁ ((stabilizeChild stabilize b passed.length >>= fun _ =>
        pure true : Step Bool) { w with forest := k, events }) _
      dsimp only at tracks ⊢
      generalize Row.changeAt passed.length _ _ = r' at tracks ⊢
      generalize run' : stabilizeChild stabilize b passed.length { w with forest := k, events } = r
        at tracks
      cases tracks with
      | ok kept' quiet =>
        rw [bind_ok run']
        exact .ok kept' quiet
      | error kept' =>
        rw [bind_error run']
        exact .error kept'

/-- A sweep over a branch is a sweep over its row. -/
theorem sweep_tracks (rule : Rule) (start : Start again b w) (light : Row.weight (w.forest.row b) ≤ bound) :
    Tracks again b w (sweep stabilize rule b w)
      (Row.sweep (Row.visitsBy again settle) rule (w.forest.row b)) := by
  obtain ⟨cs, branch⟩ := Option.isSome_iff_exists.mp start.ready.branch
  show Tracks again b w (sweepFrom stabilize rule b (w.forest.childList b).length
    (.replicate w.forest.size false) 0 [] (w.forest.childList b) w) _
  refine sweepFrom_tracks meets start light _ _ [] ?_ fun c _ => ?_
  · rw [childList, branch]
    rfl
  · rw [Array.getD_eq_getD_getElem?, Array.getElem?_replicate]
    split <;> rfl

/-- Sweeps over a branch are sweeps over its row. -/
theorem fixpoint_tracks (rule : Rule) (start : Start again b w) (light : Row.weight (w.forest.row b) ≤ bound)
    (spent left : Nat) :
    Tracks again b w (fixpoint stabilize rule b spent left w)
      (Row.fixpoint (Row.visitsBy again settle) rule spent left (w.forest.row b)) := by
  induction left generalizing w spent with
  | zero => exact .of_error (.refl start.ready start.fresh) rfl rfl
  | succ left ih =>
    have swept := sweep_tracks meets rule start light
    have lighter := (Row.sweepFrom_bounded (Row.visitsBy_bounded again meets.bounded) rule []
      (w.forest.row b)).1
    refine Tracks.bind start.ready swept fun folded w' start' run => ?_
    replace run : Row.sweepFrom (Row.visitsBy again settle) rule [] (w.forest.row b) =
      .ok folded (w'.forest.row b) := run
    rw [run] at lighter
    have light' : Row.weight (w'.forest.row b) ≤ bound := by
      cases lighter with
      | ok le => exact le.trans light
    cases folded with
    | true => exact ih start' light' (spent + 1)
    | false =>
      have noted := Kept.remembers start'.ready start'.fresh (.refl w'.forest)
        (w'.noting (.stabilized rule (spent + 1) (w'.forest.childList b).length)).events
      exact .ok noted start'.quiet

/-- All rules on a branch are all rules on its row. -/
theorem runRules_tracks (folding : Folding) (start : Start again b w)
    (light : Row.weight (w.forest.row b) ≤ bound) :
    Tracks again b w
      ((folding.rules.forM fun rule => fixpoint stabilize rule b 0 folding.sweepLimit : Step Unit) w)
      (Row.runRules (Row.visitsBy again settle) folding (w.forest.row b)) := by
  unfold Row.runRules
  generalize folding.rules = rules
  induction rules generalizing w with
  | nil => exact .ok (.refl start.ready start.fresh) start.quiet
  | cons rule rules ih =>
    have swept := fixpoint_tracks meets rule start light 0 folding.sweepLimit
    have lighter := Row.fixpoint_bounded (Row.visitsBy_bounded again meets.bounded) rule 0
      folding.sweepLimit (Row.weight (w.forest.row b)) (Nat.le_refl _) (Nat.le_add_left _ _)
    refine Tracks.bind start.ready swept fun _ w' start' run => ih start' ?_
    replace run : Row.fixpoint (Row.visitsBy again settle) rule 0 folding.sweepLimit
      (w.forest.row b) = _ := run
    rw [run] at lighter
    cases lighter with
    | ok le => exact le.trans light

end Folding

end SqlFold
