import SqlFold.Proofs.Merging.Copies
import SqlFold.Proofs.Regeneration.Basic

/-!
# Merged statements are written and read again

Between the operands of a merged condition stand brackets where it is written, so that what is read again has other
trees than the store that was written. But it has as many statements of the same kinds, it is written the same, and
its statements have the same equations (`Dialect.parse_merged`). The invariant is that every layer can be folded again
from its text when the brackets are in the trees (`Forest.Renewable`); the trees of parsed statements are so, and a
merge replaces one clause by one of the same kind.
-/

namespace SqlFold

open Forest

namespace Tree

/-! ## The brackets of parsed trees -/

/-- The brackets are opened by tokens of the tree. -/
theorem openings_sublist (t : Bare) : t.openings.Sublist t.tokens := by
  induction t using Tree.induction with
  | step tag n ih =>
    by_cases bracket : n.kind = .bracket
    · cases n with
      | bracket p =>
        rw [openings, show mk tag (.bracket p) = Row.span p.opening p.closing p.children from rfl, spans_span, Row.span,
          tokens_mk]
        exact (List.nil_sublist _).cons_cons _
      | _ => cases bracket
    · rw [openings_mk bracket]
      exact (List.Sublist.flatMap_right _ fun c listed => ih c listed).trans (tokens_children_sublist (mk tag n))

/-- Where no token occurs twice, brackets are told apart by the tokens that open them. -/
theorem all_openings_nodup {t : Bare} (once : t.tokens.Nodup) : t.All fun n => ∀ c ∈ n.children, c.openings.Nodup := by
  induction t using Tree.induction with
  | step tag n ih =>
    have below : ∀ c ∈ n.children, c.tokens.Nodup := by
      intro c listed
      refine once.sublist (List.Sublist.trans ?_ (tokens_children_sublist (mk tag n)))
      exact List.sublist_flatten_of_mem (List.mem_map_of_mem listed)
    exact .mk (fun c listed => (below c listed).sublist c.openings_sublist) fun c listed => ih c listed (below c listed)

/-! ## Rows -/

/-- A row is written as its trees with the brackets in them. -/
theorem render_root_enclosed (row : Row) :
    (mk () (.root (row.map enclosed)) : Bare).render = (mk () (.root row)).render := by
  rw [← render_enclosed (mk () (.root row)), enclosed_of_ne (by simp [Node.kind])]
  rfl

theorem Replaces.exists_row {old new u : Bare} {row : Row} (noRoot : old.kind ≠ .root)
    (replaces : Replaces old new (mk () (.root row)) u) :
    ∃ row', u = mk () (.root row') ∧ List.Forall₂ (Replaces old new) row row' := by
  generalize whole : mk () (.root row) = t at replaces
  cases replaces with
  | here => exact absurd (whole ▸ rfl) noRoot
  | same => exact ⟨row, whole.symm, List.forall₂_same.mpr fun t _ => .same t⟩
  | @layer m each =>
    have node : Node.root row = m.map Prod.fst := congrArg Tree.node whole
    cases m with
    | root ps =>
      rw [Node.children_root] at each
      obtain rfl : row = ps.map Prod.fst := Node.root.inj node
      exact ⟨ps.map Prod.snd, rfl, Row.forall₂_pairs each⟩
    | _ => cases node

/-- A tree is like the one with the brackets. -/
theorem like_enclosed (t : Bare) : t.Like t.enclosed := ⟨t.kind_enclosed, t.tokenKind?_enclosed⟩

theorem Like.symm {t u : Bare} (like : t.Like u) : u.Like t := ⟨like.kind.symm, like.tokenKind?.symm⟩

theorem Like.trans {t u v : Bare} (like : t.Like u) (like' : u.Like v) : t.Like v :=
  ⟨like'.kind.trans like.kind, like'.tokenKind?.trans like.tokenKind?⟩

end Tree

namespace Row

variable {row row' : Row}

/-- Rows of trees that are alike have statements of the same kinds. -/
theorem overStatements_of_like (like : List.Forall₂ Tree.Like row row') :
    overStatements Tree.kind row' = overStatements Tree.kind row := by
  induction like with
  | nil => rfl
  | cons same _ ih =>
    rw [overStatements, overStatements, List.filter_cons, List.filter_cons, same.tokenKind?] at *
    split
    · rw [List.map_cons, List.map_cons, same.kind, ih]
    · exact ih

theorem exists_of_mem {R : Bare → Bare → Prop} {u : Bare} (rows : List.Forall₂ R row row') (mem : u ∈ row') :
    ∃ t ∈ row, R t u := by
  induction rows with
  | nil => cases mem
  | @cons t u' _ _ here _ ih =>
    rcases List.mem_cons.mp mem with rfl | mem
    · exact ⟨t, List.mem_cons_self, here⟩
    · obtain ⟨t, mem, related⟩ := ih mem
      exact ⟨t, List.mem_cons_of_mem _ mem, related⟩

theorem Statements.of_like (statements : Statements row) (like : List.Forall₂ Tree.Like row row') : Statements row' := by
  intro u mem
  obtain ⟨t, mem', same⟩ := exists_of_mem like mem
  exact (statements t mem').imp (same.kind ▸ id) (same.leafIs .semicolon).trans

end Row

namespace Forest

variable {f g k : Forest} {row : Row} {r this other merged : NodeRef}

/-- A store of statements whose layers can be folded again from their texts. -/
structure Renewable (f : Forest) (row : Row) : Prop where
  sound : f.Sound
  shown : f.bare Forest.root = .mk () (.root row)
  statements : Row.Statements row
  ends : Row.Chained Row.Ends none row
  renews : ∀ t ∈ row, t.enclosed.All (Node.Renews Token.Standard)

namespace Renewable

/-- So is everything that is reached. -/
theorem reached (h : f.Renewable row) (reached : f.Reached r) :
    r = Forest.root ∨ (f.bare r).enclosed.All (Node.Renews Token.Standard) := by
  obtain ⟨path, walk⟩ := reached
  induction walk with
  | root => exact .inl rfl
  | @step path i q c _ listed ih =>
    have listed := List.mem_of_getElem? listed
    rcases ih with rfl | above
    · have stands : f.bare c ∈ (f.bare Forest.root).node.children := by
        rw [h.sound.coherent.node_bare, Node.children_map]
        exact List.mem_map_of_mem listed
      rw [h.shown, Tree.node, Node.children_root] at stands
      exact .inr (h.renews _ stands)
    · right
      have stands : (f.bare c).enclosed.operandOf (f.bare q).kind ∈ (f.bare q).enclosed.node.children := by
        rw [Tree.node_enclosed, h.sound.coherent.node_bare, Node.map_map, Node.children_map]
        exact List.mem_map_of_mem listed
      exact (above.children _ stands).of_operandOf

/-- A merge keeps a store so, with statements of the same kinds. -/
theorem merge (h : f.Renewable row) (reached : f.Reached this) (reached' : f.Reached other)
    (run : f.merge this other = .ok merged k) :
    ∃ row', k.Renewable row' ∧ List.Forall₂ Tree.Like row row' := by
  obtain ⟨sound, joins, replaces⟩ := h.sound.merge_joins reached run
  have noRoot : (f.bare Forest.root).kind = .root := by
    rw [h.shown]
    rfl
  have first := (h.reached reached).resolve_left fun here => joins.kind_ne_root.1 (here ▸ noRoot)
  have second := (h.reached reached').resolve_left fun here => joins.kind_ne_root.2 (here ▸ noRoot)
  have clause := joins.renews first second
  have peers := joins.peers first clause
  rw [h.shown] at replaces
  obtain ⟨row', shown, rows⟩ := replaces.exists_row joins.kind_ne_root.1
  have like : List.Forall₂ Tree.Like row row' := rows.imp fun t u replaces =>
    (t.like_enclosed.trans ((replaces.enclosed peers).like peers)).trans u.like_enclosed.symm
  refine ⟨row', ⟨sound, shown, h.statements.of_like like, h.ends.ends_of_like like rfl, fun u mem => ?_⟩, like⟩
  obtain ⟨t, mem', replaced⟩ := Row.exists_of_mem rows mem
  exact (replaced.enclosed peers).renews peers clause (h.renews t mem')

end Renewable

/-- Stores that differ by merges of clauses that are reached. -/
inductive Merges : Forest → Forest → Prop
  | refl (f : Forest) : Merges f f
  | step {f g k : Forest} {this other merged : NodeRef} : Merges f g → g.Reached this → g.Reached other →
      g.merge this other = .ok merged k → Merges f k

/-- Merges keep statements that can be written and folded again, and their kinds. -/
theorem Merges.renewable (merges : Merges f g) (h : f.Renewable row) :
    ∃ row', g.Renewable row' ∧ row'.overStatements Tree.kind = row.overStatements Tree.kind := by
  induction merges with
  | refl => exact ⟨row, h, rfl⟩
  | step _ reached reached' run ih =>
    obtain ⟨row', h', same⟩ := ih
    obtain ⟨row'', h'', like⟩ := h'.merge reached reached' run
    exact ⟨row'', h'', (Row.overStatements_of_like like).trans same⟩

/-- The equations of a node are written as those of its tree. -/
theorem render_equations (f : Forest) (r : NodeRef) :
    (f.equations r).map Tree.render = (f.bare r).equations.map Tree.render := by
  rw [equations_eq, bare, Tree.bare, Tree.equations_translate .refl, List.map_map]
  exact List.map_congr_left fun e _ => (KeepsLooks.refl.render_translate (fun _ => ()) e).symm

end Forest

namespace Dialect

variable {vocabulary : Vocabulary} {limit : Nat} {source : String} {f : Forest} {script : Script} {row : Row}

/-- Parsed statements can be written and folded again. -/
theorem Parsed.renewable (h : Parsed .standard limit source f script row) (statements : Row.Statements row) :
    f.Renewable row where
  sound := h.sound
  shown := h.bare
  statements := statements
  ends := h.ends
  renews := by
    intro t mem
    have restores := h.restores statements t mem
    have once : t.tokens.Nodup := by
      have spells := h.spells
      rw [h.bare] at spells
      have below := (Tree.tokens_children_sublist (.mk () (.root row))).trans (Tree.tokens_sublist spells)
      rw [Tree.children, Tree.node, Node.children_root] at below
      refine (h.increasing.imp fun {t u} before => ?_).sublist
        ((List.sublist_flatten_of_mem (List.mem_map_of_mem mem)).trans below)
      rintro rfl
      exact before.irrefl
    rw [Tree.enclosed_of_regular (restores.imp fun _ layer => layer.regular)]
    exact (restores.and (Tree.all_openings_nodup once)).imp fun n layer =>
      ⟨layer.1, fun c listed _ _ => layer.2 c listed⟩

/-- A store that can be written again is read again, with the brackets in its trees. -/
theorem parse_renewable {f : Forest} {row : Row} (h : f.Renewable row) :
    ∃ script, Script.ofText? .standard (f.render root) = .ok script ∧
      ∀ limit, script.significant.length < limit →
        ∃ k row', (Dialect.mk .standard (.standard limit)).parse (f.render root) = .ok k ∧
          Parsed .standard limit (f.render root) k script row' ∧
            row'.map Tree.unplaced = (row.map Tree.enclosed).map Tree.unplaced := by
  have like : List.Forall₂ Tree.Like row (row.map Tree.enclosed) :=
    List.forall₂_map_right_iff.mpr (List.forall₂_same.mpr fun t _ => t.like_enclosed)
  have restores : ∀ t ∈ row.map Tree.enclosed, t.All (Node.Restores Token.Standard) := by
    intro t mem
    obtain ⟨u, stood, rfl⟩ := List.mem_map.mp mem
    exact (h.renews u stood).imp fun _ layer => layer.restores
  obtain ⟨ts, script, parses, scanned, same⟩ :=
    Row.exists_reread (h.statements.of_like like) (h.ends.ends_of_like like rfl) restores
  have text : (Tree.mk () (.root (row.map Tree.enclosed))).render = f.render root := by
    rw [← render_bare, h.shown, Tree.render_root_enclosed]
  rw [text] at scanned
  refine ⟨script, scanned, fun limit enough => ?_⟩
  have light : (Row.leaves ts).weight < limit := by
    have length := congrArg List.length same
    rw [List.length_map, List.length_map] at length
    rwa [Folding.weight_leaves, length]
  obtain ⟨row', parses', within, agree⟩ :=
    parses.unplaced_within (parses.within (Row.leaf_of_mem_leaves ts) light) same
  obtain ⟨k, ok, parsed⟩ := parse_of_parses scanned parses' within
  exact ⟨k, row', ok, parsed, agree⟩

end Dialect

end SqlFold
