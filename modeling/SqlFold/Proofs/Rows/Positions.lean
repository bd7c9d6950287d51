import SqlFold.Proofs.Rows.Lockstep
import SqlFold.Proofs.Rows.Runs
import SqlFold.Proofs.Rows.Within

/-!
# Positions do not matter

What a run makes of a row does not depend on the places of its tokens: rows of tokens that agree but
for their places are parsed to trees that agree but for the places (`Row.Parses.unplaced`). Such trees
have one fingerprint (`Tree.fingerprint_unplaced`).
-/

namespace SqlFold

/-- The token at the start of a text. -/
def Token.unplaced (t : Token) : Token := { t with position := .start }

/-- The tree with all its tokens at the start of a text. -/
def Tree.unplaced (t : Bare) : Bare := t.recast Token.unplaced

theorem recast_unplaced : Token.Recast Token.unplaced fun _ => True where
  kind _ := rfl
  sign _ := rfl
  equals _ _ _ := rfl

theorem keepsLooks_unplaced : KeepsLooks Token.unplaced := ⟨fun _ => rfl, fun _ => rfl⟩

/-- The fingerprint of a tree does not see positions. -/
theorem Tree.fingerprint_unplaced (t : Bare) : t.unplaced.fingerprint = t.fingerprint :=
  keepsLooks_unplaced.fingerprint_translate id t

/-- The text of a tree does not show positions. -/
theorem Tree.render_unplaced (t : Bare) : t.unplaced.render = t.render :=
  keepsLooks_unplaced.render_translate id t

/-- The outline of a tree does not show positions. -/
theorem Tree.outline_unplaced (t : Bare) : t.unplaced.outline = t.outline :=
  t.outline_translate Token.unplaced id

namespace Row

theorem leaves_unplaced (ts : List Token) :
    recast Token.unplaced (leaves ts) = leaves (ts.map Token.unplaced) := by
  simp [recast, leaves, Tree.recast, Tree.translate_mk, Function.comp_def, Node.mapTokens, Node.map]

/-- A row of leaves is parsed as it is at any other places, with as many sweeps. -/
theorem parses_within_unplaced {limit : Nat} {ts : List Token} {row : Row} :
    (∃ row', (Parses (leaves ts) row' ∧ row'.Within limit) ∧ recast Token.unplaced row' = row) ↔
      Parses (leaves (ts.map Token.unplaced)) row ∧ row.Within limit := by
  have light (us : List Token) : (leaves us).weight < us.length + 1 := by
    rw [Folding.weight_leaves]
    exact Nat.lt_succ_self _
  have length : (ts.map Token.unplaced).length = ts.length := List.length_map ..
  have sound : ∀ t ∈ leaves ts, t.Sound fun _ => True := by
    intro t mem
    obtain ⟨token, _, rfl⟩ := List.mem_map.mp mem
    exact .leaf trivial
  have lock := settle_lockstep recast_unplaced (.standard limit) false (ts.length + 1) sound
  rw [leaves_unplaced] at lock
  have parses (us : List Token) (same : us.length = ts.length) {row : Row} :
      settle (.standard limit) false (ts.length + 1) (leaves us) = .ok () row ↔
        Parses (leaves us) row ∧ row.Within limit :=
    settle_ok_iff_within (leaf_of_mem_leaves us) (same ▸ light us)
  simp only [← parses ts rfl, ← parses _ length]
  generalize settle _ false _ (leaves ts) = r at lock
  generalize settle _ false _ (leaves (ts.map _)) = r' at lock
  cases lock with
  | ok =>
    constructor
    · rintro ⟨_, ⟨⟩, rfl⟩
      rfl
    · rintro ⟨⟩
      exact ⟨_, rfl, rfl⟩
  | objected =>
    constructor
    · rintro ⟨_, ⟨⟩, _⟩
    · rintro ⟨⟩
  | exhausted =>
    constructor
    · rintro ⟨_, ⟨⟩, _⟩
    · rintro ⟨⟩

/-- Rows of leaves that agree but for their places are parsed alike, with as many sweeps. -/
theorem Parses.unplaced_within {limit : Nat} {ts us : List Token} {row : Row} (parses : Parses (leaves ts) row)
    (within : row.Within limit) (same : ts.map Token.unplaced = us.map Token.unplaced) :
    ∃ row', Parses (leaves us) row' ∧ row'.Within limit ∧ row'.map Tree.unplaced = row.map Tree.unplaced := by
  have moved := parses_within_unplaced.mp ⟨row, ⟨parses, within⟩, rfl⟩
  rw [same] at moved
  obtain ⟨row', ⟨parses', within'⟩, agree⟩ := parses_within_unplaced.mpr moved
  exact ⟨row', parses', within', agree⟩

/-- Rows of leaves that agree but for their places are parsed alike. -/
theorem Parses.unplaced {ts us : List Token} {row : Row} (parses : Parses (leaves ts) row)
    (same : ts.map Token.unplaced = us.map Token.unplaced) :
    ∃ row', Parses (leaves us) row' ∧ row'.map Tree.unplaced = row.map Tree.unplaced := by
  have within := parses.within (leaf_of_mem_leaves ts) (Nat.lt_succ_self _)
  obtain ⟨row', parses', _, agree⟩ := parses.unplaced_within within same
  exact ⟨row', parses', agree⟩

end Row

end SqlFold
