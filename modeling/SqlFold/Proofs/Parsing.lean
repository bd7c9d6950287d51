import SqlFold.Dialect
import SqlFold.Proofs.Conservation
import SqlFold.Proofs.Rows.Quiet
import SqlFold.Proofs.Scanning
import SqlFold.Proofs.Statements

/-!
# Parsed texts

`Dialect.Parsed` says what is known of a text that was parsed with all rules: its tokens, the row of
trees that they were folded into, and the store that shows this row below its root
(`Dialect.exists_parsed`). A text whose tokens can be folded is parsed (`Dialect.parse_of_parses`).

`Tree.All C` says of every layer of a tree that it is as `C` says; what is said so of the row is said
of every node that is reached (`Forest.Coherent.all_reached`).
-/

namespace SqlFold

open Forest

/-! ## Layer by layer -/

/-- Every layer of a tree is as `C` says. -/
inductive Tree.All (C : Node Bare → Prop) : Bare → Prop
  | mk {n : Node Bare} : C n → (∀ c ∈ n.children, All C c) → All C (.mk () n)

namespace Tree.All

variable {C D : Node Bare → Prop} {t : Bare}

theorem node (all : t.All C) : C t.node := by
  cases all with
  | mk here _ => exact here

theorem children (all : t.All C) : ∀ c ∈ t.node.children, c.All C := by
  cases all with
  | mk _ below => exact below

theorem of_node (here : C t.node) (below : ∀ c ∈ t.node.children, c.All C) : t.All C := by
  obtain ⟨⟨⟩, n⟩ := t
  exact .mk here below

theorem imp (weaker : ∀ n, C n → D n) (all : t.All C) : t.All D := by
  induction all with
  | mk here _ ih => exact .mk (weaker _ here) ih

theorem and (all : t.All C) (all' : t.All D) : t.All fun n => C n ∧ D n := by
  induction all with
  | mk here _ ih => exact .mk ⟨here, all'.node⟩ fun c mem => ih c mem (all'.children c mem)

/-- A tree without sub-trees. -/
theorem of_children_nil (here : C t.node) (none : t.node.children = []) : t.All C :=
  of_node here (by simp [none])

end Tree.All

/-- In a sound tree there is no root, and every layer has in its slots what belongs there. -/
theorem Tree.Sound.all {P : Token → Prop} {t : Bare} (sound : t.Sound P) :
    t.All fun n => n.kind ≠ .root ∧ n.Slots (Rule.glance Tree.node) := by
  induction sound with
  | mk noRoot slots _ _ ih => exact .mk ⟨noRoot, slots⟩ ih

/-- What is said of every layer of the row is said of every node that is reached below the root. -/
theorem Forest.Coherent.all_reached {f : Forest} {row : Row} {C : Node Bare → Prop} (h : f.Coherent)
    (shown : f.bare Forest.root = .mk () (.root row)) (all : ∀ t ∈ row, t.All C) {r : NodeRef} (reached : f.Reached r) :
    r = Forest.root ∨ (f.bare r).All C := by
  obtain ⟨path, walk⟩ := reached
  induction walk with
  | root => exact .inl rfl
  | @step path i q c _ listed ih =>
    have stands : f.bare c ∈ (f.bare q).node.children := by
      rw [h.node_bare, Node.children_map]
      exact List.mem_map_of_mem (List.mem_of_getElem? listed)
    rcases ih with rfl | inner
    · rw [shown, Tree.node, Node.children_root] at stands
      exact .inr (all _ stands)
    · exact .inr (inner.children _ stands)

/-! ## Texts -/

namespace Dialect

variable {vocabulary : Vocabulary} {limit : Nat} {source : String} {f : Forest}

/-- What is known of a text that was parsed with all rules. -/
structure Parsed (vocabulary : Vocabulary) (limit : Nat) (source : String) (f : Forest) (script : Script)
    (row : Row) : Prop where
  scanned : Script.ofText? vocabulary source = .ok script
  parses : Row.Parses (Row.leaves script.significant) row
  within : row.Within limit
  bare : f.bare root = .mk () (.root row)
  sound : f.Sound

/-- What parsing a text gives. -/
theorem parse_eq (dialect : Dialect) (source : String) :
    dialect.parse source =
      match Script.ofText? dialect.vocabulary source with
      | .error e => .error (scanError source e)
      | .ok script =>
        let run := dialect.folding.runWith false root (.ofScript script)
        run.result.map fun () => run.forest := by
  unfold parse trace scan
  cases Script.ofText? dialect.vocabulary source <;> rfl

/-- A text that was parsed. -/
theorem exists_parsed (ok : (Dialect.mk vocabulary (.standard limit)).parse source = .ok f) :
    ∃ script row, Parsed vocabulary limit source f script row := by
  rw [parse_eq] at ok
  cases scanned : Script.ofText? vocabulary source with
  | error e =>
    rw [scanned] at ok
    cases ok
  | ok script =>
    rw [scanned] at ok
    dsimp only at ok
    cases result : ((Folding.standard limit).runWith false root (.ofScript script)).result with
    | error e =>
      rw [result] at ok
      cases ok
    | ok =>
      rw [result] at ok
      cases ok
      obtain ⟨row, parses, within, bare⟩ := Folding.exists_parses false result
      refine ⟨script, row, scanned, parses, within, bare, ?_⟩
      refine (Forest.Sound.ofScript script).run (.standard limit) false .root ?_
      rw [(leafRow_ofScript script).root]
      rfl

/-- A text is parsed if its tokens can be folded within the limit on sweeps. -/
theorem parse_of_parses {script : Script} {row : Row} (scanned : Script.ofText? vocabulary source = .ok script)
    (parses : Row.Parses (Row.leaves script.significant) row) (within : row.Within limit) :
    ∃ g, (Dialect.mk vocabulary (.standard limit)).parse source = .ok g ∧
      Parsed vocabulary limit source g script row := by
  obtain ⟨result, bare⟩ := (Folding.runWith_ok_iff_within false row).mpr ⟨parses, within⟩
  refine ⟨((Folding.standard limit).runWith false root (.ofScript script)).forest, ?_, scanned, parses, within,
    bare, ?_⟩
  · rw [parse_eq, scanned]
    dsimp only
    rw [result]
    rfl
  · refine (Forest.Sound.ofScript script).run (.standard limit) false .root ?_
    rw [(leafRow_ofScript script).root]
    rfl

/-- A text is parsed if its leaves are settled. -/
theorem parse_of_settle {script : Script} {row : Row} (scanned : Script.ofText? vocabulary source = .ok script)
    (settled : Row.settle (.standard limit) false (script.significant.length + 1)
      (Row.leaves script.significant) = .ok () row) :
    ∃ g, (Dialect.mk vocabulary (.standard limit)).parse source = .ok g ∧
      Parsed vocabulary limit source g script row := by
  have deep : (Row.leaves script.significant).weight < script.significant.length + 1 :=
    Folding.weight_leaves _ ▸ Nat.lt_succ_self _
  obtain ⟨parses, within⟩ := (Row.settle_ok_iff_within (Row.leaf_of_mem_leaves _) deep).mp settled
  exact parse_of_parses scanned parses within

namespace Parsed

variable {script : Script} {row : Row} (h : Parsed vocabulary limit source f script row)

include h

/-- The trees of the row are sound. -/
theorem sound_row : Row.AllSound row := h.parses.sound (Row.allSound_leaves _)

/-- The trees of the row are those of the children of the root. -/
theorem children_root : (f.children root).map f.bare = row := by
  rw [children, ← Node.children_map, ← h.sound.coherent.node_bare, h.bare, Tree.node, Node.children_root]

/-- The tree spells the tokens of the script that the grammar sees. -/
theorem spells : (f.bare root).Spells script.significant := by
  obtain ⟨_, bare⟩ := (Folding.runWith_ok_iff_within false row).mpr ⟨h.parses, h.within⟩
  rw [h.bare, ← bare]
  exact Folding.runWith_spells (.standard limit) false script

/-- The tokens that the grammar sees stand one behind the other. -/
theorem increasing : script.significant.Pairwise fun t u => t.position.Before u.position := by
  obtain ⟨_, _, taken⟩ := Script.scanned_of_ok h.scanned
  exact (List.pairwise_map.mp taken.increasing.1).sublist List.filter_sublist

theorem all_reached {C : Node Bare → Prop} (all : ∀ t ∈ row, t.All C) {r : NodeRef} (reached : f.Reached r) :
    r = root ∨ (f.bare r).All C := h.sound.coherent.all_reached h.bare all reached

end Parsed

end Dialect

end SqlFold
