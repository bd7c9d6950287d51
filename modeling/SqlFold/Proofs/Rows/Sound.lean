import SqlFold.Proofs.Cover.Taken
import SqlFold.Proofs.Rows.Adjacent

/-!
# Sound trees

`Tree.Sound P` says of a tree without references what every tree in a run is like: no root stands in
it, every layer has in its slots what belongs there, and all tokens are of the sort `P`. A fold makes
sound trees of sound trees (`Rule.sound_tree`), and every sound tree has a first token
(`Tree.Sound.leading`), so that an error can be placed.
-/

namespace SqlFold

variable {α β : Type} {P : Token → Prop}

/-- What a layer has in its slots is seen in the sub-nodes. -/
theorem Node.slots_map {glance : β → Glance} (f : α → β) (n : Node α) :
    (n.map f).Slots glance ↔ n.Slots (glance ∘ f) := by
  cases n <;>
    simp [Node.map, Node.Slots, Junct.map, SortKey.map, Projection.map, Restriction.map,
      Conjunction.parts]

/-- A tree as a run makes it, with tokens of the sort `P`. -/
inductive Tree.Sound (P : Token → Prop) : Bare → Prop
  | mk {n : Node Bare} : n.kind ≠ .root → n.Slots (Rule.glance Tree.node) →
      (∀ t, .token t ∈ n.parts → P t) → (∀ c ∈ n.children, Sound P c) → Sound P (.mk () n)

namespace Tree.Sound

variable {t : Bare}

theorem slots (sound : t.Sound P) : t.node.Slots (Rule.glance Tree.node) := by
  cases sound with
  | mk _ slots => exact slots

theorem children (sound : t.Sound P) : ∀ c ∈ t.node.children, c.Sound P := by
  cases sound with
  | mk _ _ _ children => exact children

theorem leaf {token : Token} (sort : P token) : (Tree.mk () (.leaf token)).Sound P := by
  refine .mk nofun trivial (fun t mem => ?_) nofun
  cases List.mem_singleton.mp mem
  exact sort

/-- A branch with other sound trees in it. -/
theorem withRow (sound : t.Sound P) {row : Row} (branch : t.node.isBranch = true)
    (all : ∀ u ∈ row, u.Sound P) : (t.withRow row).Sound P := by
  cases sound with
  | @mk n noRoot slots tokens _ =>
    show (Tree.mk () (n.withBranch row)).Sound P
    cases n with
    | bracket p =>
      refine .mk nofun slots (fun token mem => tokens token ?_) (fun c mem => all c ?_)
      · simpa [Node.withBranch, Node.parts] using mem
      · simpa [Node.withBranch] using mem
    | root => exact absurd rfl noRoot
    | _ => cases branch

/-- The first token of a sound tree. -/
theorem leading (sound : t.Sound P) : ∃ k, t.leadingToken? = some k ∧ P k := by
  induction sound with
  | @mk n noRoot _ tokens _ ih =>
    have shown : ∃ p ∈ n.parts, (∃ t, p = .token t) ∨ ∃ c, p = .child c := by
      cases n with
      | root => exact absurd rfl noRoot
      | join j =>
        exact ⟨.child j.source, by simp [Node.parts], .inr ⟨_, rfl⟩⟩
      | _ => simp [Node.parts, Conjunction.parts]
    have below {c : Bare} (mem : .child c ∈ n.parts) : ∃ k, c.leadingToken? = some k ∧ P k :=
      ih c (List.mem_filterMap.mpr ⟨_, mem, rfl⟩)
    rw [Tree.leadingToken?_mk]
    cases found : n.leadingToken? Tree.leadingToken? with
    | none =>
      rw [Node.leadingToken?, List.findSome?_eq_none_iff] at found
      obtain ⟨p, mem, ⟨t, rfl⟩ | ⟨c, rfl⟩⟩ := shown
      · cases found _ mem
      · obtain ⟨k, eq, _⟩ := below mem
        cases eq.symm.trans (found _ mem)
    | some k =>
      refine ⟨k, rfl, ?_⟩
      obtain ⟨p, mem, eq⟩ := List.exists_of_findSome?_eq_some found
      cases p with
      | token t =>
        cases eq
        exact tokens _ mem
      | child c =>
        obtain ⟨k', eq', sort⟩ := below mem
        cases eq'.symm.trans eq
        exact sort
      | absent => cases eq
      | mark => cases eq

end Tree.Sound

namespace Rule

variable {rule : Rule} {left right : Row} {here : Bare} {fold : Fold Bare}

/-- The pieces of a folded node have the tokens of the siblings that they were made from. -/
theorem MatchesAll.tokens {ps : List (Piece (Origin Bare))} {as : Row}
    (matched : MatchesAll Tree.node ps as) (all : ∀ a ∈ as, a.Sound P) :
    ∀ t ∈ ps.flatMap (Piece.read fun _ => []), P t := by
  induction matched with
  | nil => nofun
  | @cons p a ps as made _ ih =>
    intro t mem
    obtain ⟨sound, rest⟩ := List.forall_mem_cons.mp all
    rw [List.flatMap_cons, List.mem_append] at mem
    rcases mem with here | later
    · obtain @⟨n, _, _, tokens, _⟩ := sound
      cases made with
      | leaf shown =>
        cases List.mem_singleton.mp here
        exact tokens t (by rw [show n = _ from shown]; simp [Node.parts])
      | name shown =>
        cases List.mem_singleton.mp here
        exact tokens t (by rw [show n = _ from shown]; simp [Node.parts])
      | sibling => cases here
      | table => cases here
    · exact ih rest t later

/-- What the sub-nodes of a folded node stand for. -/
theorem MatchesAll.children {ps : List (Piece (Origin Bare))} {as : Row}
    (matched : MatchesAll Tree.node ps as) (all : ∀ a ∈ as, a.Sound P) :
    ∀ o ∈ Piece.children ps, (Origin.bare id o).Sound P := by
  induction matched with
  | nil =>
    intro o mem
    cases mem
  | @cons p a ps as made _ ih =>
    obtain ⟨sound, rest⟩ := List.forall_mem_cons.mp all
    cases made with
    | leaf => exact ih rest
    | name => exact ih rest
    | sibling => exact List.forall_mem_cons.mpr ⟨sound, ih rest⟩
    | @table s name _ shown =>
      refine List.forall_mem_cons.mpr ⟨?_, ih rest⟩
      obtain @⟨n, _, slots, tokens, _⟩ := sound
      replace shown : n = .column ⟨none, s, name⟩ := shown
      subst shown
      refine .mk nofun (fun u mem => ?_) (fun u mem => tokens u ?_) (fun c mem => ?_)
      · exact slots.symbols u (by simpa using mem)
      · simpa [Node.parts, Part.ofToken?] using mem
      · simp at mem

/-- A fold of sound trees makes a sound tree. -/
theorem sound_tree (answer : rule.apply Tree.node ⟨left, here, right⟩ = .ok (some fold))
    (all : ∀ t ∈ left.reverse ++ here :: right, t.Sound P) : fold.tree.Sound P := by
  obtain ⟨back, ahead, covers⟩ := apply_covers answer
  have taken : ∀ a ∈ back.reverse ++ here :: ahead, a.Sound P := by
    intro a mem
    refine all a ?_
    rw [show left = back ++ fold.left from covers.left,
      show right = ahead ++ fold.right from covers.right]
    simp only [List.mem_append, List.mem_reverse, List.mem_cons] at mem ⊢
    tauto
  obtain ⟨ps, written, matched⟩ := covers.written
  refine .mk ?_ ?_ (fun t mem => ?_) (fun c mem => ?_)
  · intro root
    have made := (kind_tree answer).symm.trans root
    cases rule <;> cases made
  · rw [Node.slots_map]
    have glances : Rule.glance Tree.node ∘ Origin.bare id = glanceOrigin Tree.node := by
      funext o
      cases o with
      | sibling => rfl
      | newTable name => simp [glance, glanceOrigin, Origin.bare, Tree.node, isAssignment, Node.kind]
    rw [glances]
    refine covers.slots fun a mem c shown => ?_
    have slots := (taken a mem).slots
    rwa [shown] at slots
  · rw [Node.parts_map, List.mem_map] at mem
    obtain ⟨p, mem, eq⟩ := mem
    cases p with
    | token u =>
      cases eq
      have read := (written.sublist fun _ => []).subset
        (List.mem_flatMap.mpr ⟨_, mem, List.mem_singleton.mpr rfl⟩)
      exact matched.tokens taken t read
    | _ => cases eq
  · rw [Node.children_map, List.mem_map] at mem
    obtain ⟨o, mem, rfl⟩ := mem
    exact matched.children taken o (written.children ▸ mem)

/-- A fold keeps rows of sound trees. -/
theorem sound_row (answer : rule.apply Tree.node ⟨left, here, right⟩ = .ok (some fold))
    (all : ∀ t ∈ left.reverse ++ here :: right, t.Sound P) : ∀ t ∈ fold.row, t.Sound P :=
  forall_row answer all (sound_tree answer all)

/-- The sub-trees of a tree that a fold makes stood in the row, or are new tables. -/
theorem mem_children_tree (answer : rule.apply Tree.node ⟨left, here, right⟩ = .ok (some fold)) :
    ∀ c ∈ fold.tree.node.children,
      c ∈ left.reverse ++ here :: right ∨ ∃ name, c = .mk () (.table name) := by
  obtain ⟨back, ahead, covers⟩ := apply_covers answer
  obtain ⟨ps, written, matched⟩ := covers.written
  intro c mem
  rw [Fold.tree, Tree.node, Node.children_map, List.mem_map] at mem
  obtain ⟨o, mem, rfl⟩ := mem
  rw [← written.children, Piece.children, List.mem_filterMap] at mem
  obtain ⟨p, listed, shown⟩ := mem
  cases p with
  | token => cases shown
  | name => cases shown
  | child o' =>
    cases shown
    obtain ⟨a, taken, piece⟩ := matched.exists_sibling listed
    cases piece with
    | table => exact .inr ⟨_, rfl⟩
    | sibling =>
      left
      show a ∈ _
      rw [show left = back ++ fold.left from covers.left, show right = ahead ++ fold.right from covers.right]
      simp only [List.mem_append, List.mem_reverse, List.mem_cons] at taken ⊢
      tauto

end Rule

end SqlFold
