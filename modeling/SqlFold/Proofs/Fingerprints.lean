import SqlFold.Proofs.Rows.Positions

/-!
# What fingerprints tell

A fingerprint tells everything of a tree but the places of its tokens: trees have one fingerprint
exactly when they are the same with all tokens at the start of a text (`Tree.fingerprint_eq_iff`).
Such trees have one text and one outline.

The reason is that a layer is known by its kind and its parts (`Node.eq_of_parts`). Lists in it are
read back up to the next part that no item starts with: a token, a mark or the end.
-/

namespace SqlFold

variable {α γ : Type}

/-! ## Layers from their parts -/

/-- Blocks that can be told apart are read back from a list that goes on with no further block. -/
theorem blocks_inj {f : α → List γ} (blocks : ∀ a b u v, f a ++ u = f b ++ v → a = b ∧ u = v)
    {l m : List γ} (ends : ∀ a u, f a ++ u ≠ l) (ends' : ∀ a u, f a ++ u ≠ m) {as bs : List α}
    (h : as.flatMap f ++ l = bs.flatMap f ++ m) : as = bs ∧ l = m := by
  induction as generalizing bs with
  | nil =>
    cases bs with
    | nil => exact ⟨rfl, h⟩
    | cons b bs =>
      rw [List.flatMap_cons, List.append_assoc] at h
      exact absurd h.symm (ends b _)
  | cons a as ih =>
    cases bs with
    | nil =>
      rw [List.flatMap_cons, List.append_assoc] at h
      exact absurd h (ends' a _)
    | cons b bs =>
      rw [List.flatMap_cons, List.flatMap_cons, List.append_assoc, List.append_assoc] at h
      obtain ⟨rfl, rest⟩ := blocks a b _ _ h
      obtain ⟨rfl, same⟩ := ih rest
      exact ⟨rfl, same⟩

/-- Blocks that can be told apart are read back up to the end of a list. -/
theorem blocks_inj_end {f : α → List γ} (blocks : ∀ a b u v, f a ++ u = f b ++ v → a = b ∧ u = v)
    (ne : ∀ a, f a ≠ []) {as bs : List α} (h : as.flatMap f = bs.flatMap f) : as = bs := by
  have ends (a : α) (u : List γ) : f a ++ u ≠ [] := List.append_ne_nil_of_left_ne_nil (ne a) u
  exact (blocks_inj blocks ends ends (by rw [h])).1

namespace Part

theorem ofToken?_inj {t u : Option Token} : (ofToken? t : Part α) = ofToken? u ↔ t = u := by
  cases t <;> cases u <;> simp [ofToken?]

theorem ofChild?_inj {c d : Option α} : ofChild? c = ofChild? d ↔ c = d := by
  cases c <;> cases d <;> simp [ofChild?]

/-- Sub-nodes are read back up to what is none. -/
theorem map_child_inj {l m : List (Part α)} (ends : ∀ c u, .child c :: u ≠ l)
    (ends' : ∀ c u, .child c :: u ≠ m) {cs ds : List α}
    (h : cs.map .child ++ l = ds.map .child ++ m) : cs = ds ∧ l = m := by
  rw [List.map_eq_flatMap, List.map_eq_flatMap] at h
  exact blocks_inj (by simp) ends ends' h

/-- Tokens are read back up to what is none. -/
theorem map_token_inj {l m : List (Part α)} (ends : ∀ t u, .token t :: u ≠ l)
    (ends' : ∀ t u, .token t :: u ≠ m) {ts us : List Token}
    (h : ts.map .token ++ l = us.map .token ++ m) : ts = us ∧ l = m := by
  rw [List.map_eq_flatMap, List.map_eq_flatMap] at h
  exact blocks_inj (by simp) ends ends' h

/-- Operands are read back from the end of a list. -/
theorem juncts_inj {js ks : List (Junct α)}
    (h : (js.flatMap fun j => [ofToken? j.operator, .child j.expression]) =
      ks.flatMap fun j => [ofToken? j.operator, .child j.expression]) : js = ks := by
  refine blocks_inj_end (fun j k u v same => ?_) (fun _ => List.cons_ne_nil _ _) h
  cases j; cases k
  simpa [ofToken?_inj, and_assoc] using same

/-- Sort keys are read back from the end of a list. -/
theorem sortKeys_inj {is js : List (SortKey α)}
    (h : (is.flatMap fun i => [.child i.expression, ofToken? i.direction]) =
      js.flatMap fun i => [.child i.expression, ofToken? i.direction]) : is = js := by
  refine blocks_inj_end (fun i j u v same => ?_) (fun _ => List.cons_ne_nil _ _) h
  cases i; cases j
  simpa [ofToken?_inj, and_assoc] using same

/-- Selected expressions are read back up to what is none. -/
theorem projections_inj {l m : List (Part α)} (ends : ∀ c u, .child c :: u ≠ l)
    (ends' : ∀ c u, .child c :: u ≠ m) {is js : List (Projection α)}
    (h : (is.flatMap fun i => [.child i.expression, ofToken? i.aliasName]) ++ l =
      (js.flatMap fun i => [.child i.expression, ofToken? i.aliasName]) ++ m) : is = js ∧ l = m := by
  refine blocks_inj (fun i j u v same => ?_) (fun _ _ => ends _ _) (fun _ _ => ends' _ _) h
  cases i; cases j
  simpa [ofToken?_inj, and_assoc] using same

end Part

/-- The kind and the parts determine a layer. -/
theorem Node.eq_of_parts {n m : Node α} (kinds : n.kind = m.kind) (same : n.parts = m.parts) :
    n = m := by
  cases n <;> cases m <;> cases kinds <;> simp only [parts] at same
  case leaf.leaf => simpa using same
  case column.column c c' =>
    cases c; cases c'
    simpa [Part.ofToken?_inj] using same
  case literal.literal l l' =>
    cases l; cases l'
    simpa [Part.ofToken?_inj] using same
  case operation.operation o o' =>
    obtain ⟨l, ops, r⟩ := o
    obtain ⟨l', ops', r'⟩ := o'
    simp only [List.cons_append, List.cons.injEq, Part.child.injEq] at same
    obtain ⟨rfl, rest⟩ := same
    obtain ⟨rfl, last⟩ := Part.map_token_inj (by simp) (by simp) rest
    simpa using last
  case membership.membership o o' =>
    cases o; cases o'
    simpa [Part.ofToken?_inj] using same
  case conjunction.conjunction c c' =>
    have juncts := Part.juncts_inj same
    cases c; cases c'
    simpa [Conjunction.parts] using juncts
  case bracket.bracket p p' =>
    obtain ⟨o, c, cs⟩ := p
    obtain ⟨o', c', cs'⟩ := p'
    simp only [List.cons_append, List.cons.injEq, Part.token.injEq] at same
    obtain ⟨rfl, rest⟩ := same
    obtain ⟨rfl, last⟩ := Part.map_child_inj (by simp) (by simp) rest
    simpa using last
  case call.call c c' =>
    cases c; cases c'
    simpa using same
  case allColumns.allColumns a a' =>
    cases a; cases a'
    simpa [Part.ofToken?_inj] using same
  case table.table t t' =>
    cases t; cases t'
    simpa [Part.ofToken?_inj] using same
  case fromClause.fromClause c c' =>
    cases c; cases c'
    simpa [Part.ofToken?_inj] using same
  case join.join j j' =>
    obtain ⟨ks, s, a, c⟩ := j
    obtain ⟨ks', s', a', c'⟩ := j'
    simp only [List.append_assoc] at same
    obtain ⟨rfl, rest⟩ := Part.map_token_inj (by simp) (by simp) same
    rcases c with _ | ⟨k, e⟩ <;> rcases c' with _ | ⟨k', e'⟩ <;> simp_all [Part.ofToken?_inj]
  case whereClause.whereClause c c' =>
    cases c; cases c'
    simpa using same
  case havingClause.havingClause c c' =>
    cases c; cases c'
    simpa using same
  case groupBy.groupBy g g' =>
    cases g; cases g'
    simp only [List.cons.injEq, Part.token.injEq] at same
    obtain ⟨rfl, rfl, rest⟩ := same
    obtain ⟨rfl, -⟩ := Part.map_child_inj (l := []) (m := []) (by simp) (by simp) (by simpa using rest)
    rfl
  case orderBy.orderBy o o' =>
    cases o; cases o'
    simp only [List.cons.injEq, Part.token.injEq] at same
    obtain ⟨rfl, rfl, rest⟩ := same
    rw [Part.sortKeys_inj rest]
  case select.select s s' =>
    obtain ⟨k, d, is, s, js, f, g, h, o⟩ := s
    obtain ⟨k', d', is', s', js', f', g', h', o'⟩ := s'
    simp only [List.append_assoc, List.cons_append, List.nil_append, List.cons.injEq, Part.token.injEq,
      Part.ofToken?_inj] at same
    obtain ⟨rfl, rfl, rest⟩ := same
    -- The marks around the joins end the list before them and the joins themselves.
    obtain ⟨rfl, marked⟩ := Part.projections_inj (by simp) (by simp) rest
    obtain ⟨source, joins⟩ := List.cons.inj (List.cons.inj marked).2
    obtain rfl := Part.ofChild?_inj.mp source
    obtain ⟨rfl, last⟩ := Part.map_child_inj (by simp) (by simp) joins
    simpa [Part.ofChild?_inj] using last
  case update.update u u' =>
    obtain ⟨k, t, a, js, s, as, f, o⟩ := u
    obtain ⟨k', t', a', js', s', as', f', o'⟩ := u'
    simp only [List.append_assoc, List.cons_append, List.nil_append, List.cons.injEq, Part.token.injEq,
      Part.child.injEq, Part.ofToken?_inj] at same
    obtain ⟨rfl, rfl, rfl, rest⟩ := same
    obtain ⟨rfl, set⟩ := Part.map_child_inj (by simp) (by simp) rest
    obtain ⟨keyword, assignments⟩ := List.cons.inj set
    obtain rfl := Part.token.inj keyword
    obtain ⟨rfl, last⟩ := Part.map_child_inj (by simp) (by simp) assignments
    simpa [Part.ofChild?_inj] using last
  case root.root cs cs' =>
    obtain ⟨rfl, -⟩ := Part.map_child_inj (l := []) (m := []) (by simp) (by simp) (by simpa using same)
    rfl

/-! ## Trees from their fingerprints -/

namespace Fingerprint

/-- A sketch tells the parts but for the places of tokens. -/
theorem sketch_inj {ps qs : List (Part Fingerprint)} (same : sketch ps = sketch qs) :
    ps.map (Part.mapToken Token.unplaced) = qs.map (Part.mapToken Token.unplaced) := by
  induction ps generalizing qs with
  | nil =>
    rcases qs with _ | ⟨_ | _ | _ | _, qs⟩
    · rfl
    all_goals cases same
  | cons p ps ih =>
    rcases qs with _ | ⟨q, qs⟩
    · cases p <;> cases same
    · cases p <;> cases q <;> simp only [sketch, Sketch.detail.injEq, Sketch.child.injEq, reduceCtorEq, false_and,
        Detail.token.injEq, Detail.mark.injEq] at same
      case token.token t u =>
        obtain ⟨⟨kind, lexeme⟩, rest⟩ := same
        simp only [List.map_cons, Part.mapToken, Token.unplaced, kind, lexeme, ih rest]
      case child.child p q =>
        obtain ⟨kind, inner, rest⟩ := same
        obtain rfl : p = q := by cases p; cases q; rw [Fingerprint.mk.injEq]; exact ⟨kind, inner⟩
        rw [List.map_cons, List.map_cons, ih rest]
      case absent.absent => rw [List.map_cons, List.map_cons, ih same.2]
      case mark.mark b c =>
        obtain ⟨rfl, rest⟩ := same
        rw [List.map_cons, List.map_cons, ih rest]

/-- The fingerprint of a layer tells the layer but for the places of tokens. -/
theorem layer_inj {n m : Node Fingerprint} (same : layer n = layer m) :
    n.mapTokens Token.unplaced = m.mapTokens Token.unplaced := by
  obtain ⟨kinds, parts⟩ := Fingerprint.mk.inj same
  refine Node.eq_of_parts (by simpa using kinds) ?_
  rw [Node.parts_mapTokens, Node.parts_mapTokens]
  exact sketch_inj parts

end Fingerprint

namespace Tree

/-- The fingerprint of a tree tells the tree but for the places of tokens. -/
theorem unplaced_eq_of_fingerprint {t u : Bare} (same : t.fingerprint = u.fingerprint) :
    t.unplaced = u.unplaced := by
  induction t using Tree.induction generalizing u with
  | step tag n ih =>
    obtain ⟨tag', m⟩ := u
    rw [fingerprint_mk, fingerprint_mk] at same
    have layers := Fingerprint.layer_inj same
    rw [← Node.map_mapTokens, ← Node.map_mapTokens] at layers
    have shapes := congrArg Node.shape layers
    have subs := congrArg Node.children layers
    rw [Node.shape_map, Node.shape_map] at shapes
    rw [Node.children_map, Node.children_map, Node.children_mapTokens, Node.children_mapTokens,
      ← List.forall₂_eq_eq_eq, List.forall₂_map_left_iff, List.forall₂_map_right_iff] at subs
    have agree : (n.mapTokens Token.unplaced).map unplaced = (m.mapTokens Token.unplaced).map unplaced := by
      refine Node.map_eq_map_of_forall₂ shapes ?_
      rw [Node.children_mapTokens, Node.children_mapTokens]
      exact ((List.forall₂_and_left _ _).mpr ⟨ih, subs⟩).imp fun _ _ ⟨ih, same⟩ => ih same
    rw [Node.map_mapTokens, Node.map_mapTokens] at agree
    rw [unplaced, unplaced, recast, recast, translate_mk, translate_mk]
    exact congrArg _ agree

/-- Trees have one fingerprint exactly when they differ in the places of tokens only. -/
theorem fingerprint_eq_iff {t u : Bare} : t.fingerprint = u.fingerprint ↔ t.unplaced = u.unplaced := by
  refine ⟨unplaced_eq_of_fingerprint, fun same => ?_⟩
  rw [← t.fingerprint_unplaced, ← u.fingerprint_unplaced, same]

/-- Trees that differ in the places of tokens only have one text. -/
theorem render_eq_of_unplaced {t u : Bare} (same : t.unplaced = u.unplaced) : t.render = u.render := by
  rw [← t.render_unplaced, ← u.render_unplaced, same]

/-- Trees that differ in the places of tokens only have one outline. -/
theorem outline_eq_of_unplaced {t u : Bare} (same : t.unplaced = u.unplaced) : t.outline = u.outline := by
  rw [← t.outline_unplaced, ← u.outline_unplaced, same]

end Tree

end SqlFold
