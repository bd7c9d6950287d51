import SqlFold.Proofs.Drawings
import SqlFold.Proofs.Store.Copying

/-!
# Outlines tell shapes apart

An outline is a flat list of rows, and the rows of a forest follow one another without a mark between two trees.
The depths make up for it: below the row of a node all rows are deeper until the next node of its level, so a list
of rows falls into trees in one way only (`Tree.flatMap_levels_inj`). Rows that agree then come from nodes of one
shape (`Grounded.levels_eq_iff`), and texts that agree from rows that agree (`Tree.outline_eq_iff`).
`Forest.outlines_tell_shapes` says so for two nodes and for the statements of two stores.
-/

namespace SqlFold

/-! ## Rows of a text -/

namespace Text

/-- Rows that are put together with newlines between them are the lines of the text. -/
theorem linesOf_intercalate {rows : List String} (some : rows ≠ []) (plain : ∀ row ∈ rows, '\n' ∉ row.toList) :
    linesOf ("\n".intercalate rows) = rows := by
  obtain ⟨row, later, rfl⟩ := List.exists_cons_of_ne_nil some
  have inner : ∀ cs ∈ row.toList :: later.map String.toList, '\n' ∉ cs := by
    rw [← List.map_cons]
    exact List.forall_mem_map.mpr plain
  have newline : "\n".toList = ['\n'] := rfl
  rw [linesOf, String.toList_intercalate, newline, List.map_cons, splitLines_intercalate inner]
  simp [Function.comp_def]

/-- Texts of rows that are not empty are equal if the rows are. -/
theorem intercalate_eq_iff {rows rows' : List String} (plain : ∀ row ∈ rows, '\n' ∉ row.toList ∧ row ≠ "")
    (plain' : ∀ row ∈ rows', '\n' ∉ row.toList ∧ row ≠ "") :
    "\n".intercalate rows = "\n".intercalate rows' ↔ rows = rows' := by
  -- No rows make the text of one empty row, which is why rows must not be empty.
  have lines {rows : List String} (plain : ∀ row ∈ rows, '\n' ∉ row.toList ∧ row ≠ "") :
      (linesOf ("\n".intercalate rows)).filter (· != "") = rows := by
    cases rows with
    | nil => rfl
    | cons row rows =>
      rw [linesOf_intercalate (List.cons_ne_nil _ _) fun row mem => (plain row mem).1, List.filter_eq_self]
      exact fun row mem => bne_iff_ne.mpr (plain row mem).2
  constructor
  · intro same
    rw [← lines plain, same, lines plain']
  · exact congrArg _

/-- Texts of rows, put together once more, are the text of all the rows. -/
theorem intercalate_flatMap {α : Type} {rows : α → List String} {as : List α} (some : ∀ a ∈ as, rows a ≠ []) :
    "\n".intercalate (as.map fun a => "\n".intercalate (rows a)) = "\n".intercalate (as.flatMap rows) := by
  induction as with
  | nil => rfl
  | cons a as ih =>
    obtain ⟨here, later⟩ := List.forall_mem_cons.mp some
    cases as with
    | nil => simp
    | cons b bs =>
      have more : (b :: bs).flatMap rows ≠ [] := by
        rw [List.flatMap_cons]
        exact List.append_ne_nil_of_left_ne_nil (later b List.mem_cons_self) _
      rw [List.flatMap_cons, String.intercalate_append_of_ne_nil here more, ← ih later]
      exact String.intercalate_cons_cons

end Text

/-! ## Rows of an outline -/

theorem NodeKind.name_injective : Function.Injective NodeKind.name := by
  intro k l same
  have found : ofName? k.name = ofName? l.name := congrArg ofName? same
  simpa using found

/-- The name of a kind has no dash, and it is one row. -/
theorem NodeKind.name_plain (k : NodeKind) : '-' ∉ k.name.toList ∧ '\n' ∉ k.name.toList ∧ k.name.toList ≠ [] := by
  cases k <;> decide

namespace Tree

variable {ι κ : Type} {d e : Nat} {k l : NodeKind}

theorem toList_outlineLine : (outlineLine d k).toList = List.replicate d '-' ++ k.name.toList := by
  rw [outlineLine, String.toList_append, String.toList_ofList]

/-- A row tells the depth and the kind of its node. -/
theorem outlineLine_injective : Function.Injective fun row : Nat × NodeKind => outlineLine row.1 row.2 := by
  rintro ⟨d, k⟩ ⟨e, l⟩ same
  have texts : List.replicate d '-' ++ k.name.toList = List.replicate e '-' ++ l.name.toList := by
    rw [← toList_outlineLine, ← toList_outlineLine]
    exact congrArg String.toList same
  have dashes : d = e := by
    have counted := congrArg (List.count '-') texts
    have none (k : NodeKind) : List.count '-' k.name.toList = 0 := List.count_eq_zero_of_not_mem k.name_plain.1
    simpa [List.count_append, none] using counted
  subst dashes
  have names : k.name.toList = l.name.toList := List.append_cancel_left texts
  rw [NodeKind.name_injective (String.toList_inj.mp names)]

theorem outlineLine_plain : '\n' ∉ (outlineLine d k).toList ∧ outlineLine d k ≠ "" := by
  obtain ⟨-, row, some⟩ := k.name_plain
  constructor
  · rw [toList_outlineLine, List.mem_append, not_or]
    refine ⟨fun mem => ?_, row⟩
    cases List.eq_of_mem_replicate mem
  · intro empty
    have none : (outlineLine d k).toList = [] := congrArg String.toList empty
    rw [toList_outlineLine] at none
    exact some (List.append_eq_nil_iff.mp none).2

/-- The text of the rows with the given depths and kinds. -/
def outlineOf (levels : List (Nat × NodeKind)) : String :=
  "\n".intercalate (levels.map fun (depth, kind) => outlineLine depth kind)

theorem outline_eq_outlineOf (t : Tree ι) : t.outline = outlineOf t.levels := rfl

/-- The text tells the depths and the kinds of all rows. -/
theorem outlineOf_injective : Function.Injective outlineOf := by
  intro levels levels' same
  have plain (levels : List (Nat × NodeKind)) :
      ∀ row ∈ levels.map fun (depth, kind) => outlineLine depth kind, '\n' ∉ row.toList ∧ row ≠ "" :=
    List.forall_mem_map.mpr fun _ _ => outlineLine_plain
  exact outlineLine_injective.list_map ((Text.intercalate_eq_iff (plain levels) (plain levels')).mp same)

/-! ## Depths -/

/-- One level further down. -/
def deepen : Nat × NodeKind → Nat × NodeKind
  | (depth, kind) => (depth + 1, kind)

theorem deepen_injective : Function.Injective deepen := by
  rintro ⟨d, k⟩ ⟨e, l⟩ same
  simpa [deepen] using same

/-- The top comes first, and all that is below it one level further down. -/
theorem levels_eq (t : Tree ι) : t.levels = (0, t.kind) :: (t.children.flatMap levels).map deepen := by
  obtain ⟨tag, n⟩ := t
  rw [levels_mk, List.map_flatMap]
  rfl

/-- What stands deeper comes before the next tree. -/
theorem takeWhile_levels (below : List (Nat × NodeKind)) (ts : List (Tree ι)) :
    (below.map deepen ++ ts.flatMap levels).takeWhile (0 < ·.1) = below.map deepen := by
  have deep : ∀ row ∈ below.map deepen, decide (0 < row.1) = true :=
    List.forall_mem_map.mpr fun row _ => decide_eq_true (Nat.succ_pos row.1)
  rw [List.takeWhile_append_of_pos deep]
  cases ts with
  | nil => simp
  | cons t ts => simp [List.flatMap_cons, t.levels_eq]

theorem flatMap_levels_congr {ts : List (Tree ι)} {us : List (Tree κ)}
    (same : List.Forall₂ (fun t u => t.levels = u.levels) ts us) : ts.flatMap levels = us.flatMap levels := by
  induction same with
  | nil => rfl
  | cons here _ ih => rw [List.flatMap_cons, List.flatMap_cons, here, ih]

/-- Rows fall into trees in one way. -/
theorem flatMap_levels_inj {ts : List (Tree ι)} {us : List (Tree κ)} (same : ts.flatMap levels = us.flatMap levels) :
    List.Forall₂ (fun t u => t.levels = u.levels) ts us := by
  induction ts generalizing us with
  | nil =>
    cases us with
    | nil => exact .nil
    | cons u us => simp [List.flatMap_cons, u.levels_eq] at same
  | cons t ts ih =>
    cases us with
    | nil => simp [List.flatMap_cons, t.levels_eq] at same
    | cons u us =>
      rw [List.flatMap_cons, List.flatMap_cons, t.levels_eq, u.levels_eq, List.cons_append, List.cons_append] at same
      obtain ⟨top, rest⟩ := List.cons.inj same
      have below := congrArg (List.takeWhile (0 < ·.1)) rest
      rw [takeWhile_levels, takeWhile_levels] at below
      rw [below] at rest
      refine .cons ?_ (ih (List.append_cancel_left rest))
      rw [t.levels_eq, u.levels_eq, top, below]

/-- Trees agree in depths and kinds exactly when their tops are of one kind and their sub-trees agree. -/
theorem levels_eq_iff {t : Tree ι} {u : Tree κ} :
    t.levels = u.levels ↔ t.kind = u.kind ∧ List.Forall₂ (fun t u => t.levels = u.levels) t.children u.children := by
  rw [t.levels_eq, u.levels_eq]
  constructor
  · intro same
    obtain ⟨top, rest⟩ := List.cons.inj same
    exact ⟨congrArg Prod.snd top, flatMap_levels_inj (deepen_injective.list_map rest)⟩
  · rintro ⟨top, subs⟩
    rw [top, flatMap_levels_congr subs]

end Tree

namespace Forest

variable {f g : Forest} {r s : NodeRef}

/-! ## Shapes in stores -/

/-- Relations that agree for the members of two lists agree for the lists. -/
theorem forall₂_congr_of_mem {α β : Type} {R S : α → β → Prop} {as : List α} {bs : List β}
    (each : ∀ a ∈ as, ∀ b ∈ bs, (R a b ↔ S a b)) : List.Forall₂ R as bs ↔ List.Forall₂ S as bs := by
  rw [List.forall₂_iff_zip, List.forall₂_iff_zip]
  refine and_congr_right fun _ => forall₂_congr fun a b => imp_congr_right fun mem => ?_
  exact each a (List.of_mem_zip mem).1 b (List.of_mem_zip mem).2

/-- The nodes `r` of the store `f` and `s` of the store `g` are the tops of equal trees, if every node is labelled
with its kind and sub-nodes are taken in order. -/
inductive SameShape (f g : Forest) : NodeRef → NodeRef → Prop
  | mk {r s : NodeRef} : f.kind r = g.kind s →
      List.Forall₂ (SameShape f g) (f.children r) (g.children s) → SameShape f g r s

theorem SameShape.kind (same : SameShape f g r s) : f.kind r = g.kind s := by
  cases same with
  | mk kinds _ => exact kinds

theorem SameShape.children (same : SameShape f g r s) :
    List.Forall₂ (SameShape f g) (f.children r) (g.children s) := by
  cases same with
  | mk _ subs => exact subs

theorem Grounded.kind_tree (h : f.Grounded r) : (f.tree r).kind = f.kind r := by
  rw [h.tree_eq]
  exact Node.kind_map _ _

theorem Grounded.children_tree (h : f.Grounded r) : (f.tree r).children = (f.children r).map f.tree := by
  rw [h.tree_eq]
  exact Node.children_map _ _

/-- Depths and kinds agree exactly for nodes of one shape. -/
theorem Grounded.levels_eq_iff (h : f.Grounded r) (h' : g.Grounded s) :
    (f.tree r).levels = (g.tree s).levels ↔ SameShape f g r s := by
  induction h generalizing s with
  | @mk r closed ends ih =>
    have here : f.Grounded r := .mk closed ends
    have subs := forall₂_congr_of_mem fun c listed d listed' => @ih c listed d (h'.children d listed')
    rw [Tree.levels_eq_iff, here.kind_tree, h'.kind_tree, here.children_tree, h'.children_tree,
      List.forall₂_map_left_iff, List.forall₂_map_right_iff, subs]
    exact ⟨fun ⟨kinds, subs⟩ => .mk kinds subs, fun same => ⟨same.kind, same.children⟩⟩

/-- The statements of a store, one after the other, are the text of all their rows. -/
theorem outlineStatements_eq_outlineOf (f : Forest) :
    f.outlineStatements = Tree.outlineOf ((f.statements.map f.tree).flatMap Tree.levels) := by
  rw [Tree.outlineOf, List.flatMap_map, List.map_flatMap, ← Text.intercalate_flatMap]
  · rfl
  · intro r _
    rw [Tree.levels_eq]
    exact List.cons_ne_nil _ _

/-- Two nodes of acyclic stores have one outline exactly when they have one shape. Two acyclic stores have one
outline of their statements exactly when these have one shape in turn. -/
theorem outlines_tell_shapes (hf : f.Acyclic) (hg : g.Acyclic) :
    (∀ r s, f.outline r = g.outline s ↔ SameShape f g r s) ∧
      (f.outlineStatements = g.outlineStatements ↔ List.Forall₂ (SameShape f g) f.statements g.statements) := by
  have levels (r s : NodeRef) : (f.tree r).levels = (g.tree s).levels ↔ SameShape f g r s :=
    (hf.grounded r).levels_eq_iff (hg.grounded s)
  constructor
  · intro r s
    rw [outline, outline, Tree.outline_eq_outlineOf, Tree.outline_eq_outlineOf, ← levels]
    exact Tree.outlineOf_injective.eq_iff
  · have statements : List.Forall₂ (fun t u => t.levels = u.levels) (f.statements.map f.tree)
        (g.statements.map g.tree) ↔ List.Forall₂ (SameShape f g) f.statements g.statements := by
      rw [List.forall₂_map_left_iff, List.forall₂_map_right_iff]
      exact forall₂_congr_of_mem fun r _ s _ => levels r s
    rw [outlineStatements_eq_outlineOf, outlineStatements_eq_outlineOf, Tree.outlineOf_injective.eq_iff, ← statements]
    exact ⟨Tree.flatMap_levels_inj, Tree.flatMap_levels_congr⟩

/-- One equation has a column on both sides, the other has two columns and a semicolon behind it. Their statements
have one outline and the roots have not. -/
theorem outlines_tell_shapes_shared :
    let column : Record := ⟨.column ⟨none, none, ⟨.symbol, "x", ⟨0, 0⟩⟩⟩, none, none⟩
    let equation (left right : NodeRef) : Record := ⟨.operation ⟨left, [⟨.operator, "=", ⟨0, 2⟩⟩], right⟩, none, none⟩
    let f : Forest := ⟨#[⟨.root [⟨2⟩], none, none⟩, column, equation ⟨1⟩ ⟨1⟩], "x = x", .parsing⟩
    let g : Forest := ⟨#[⟨.root [⟨3⟩, ⟨4⟩], none, none⟩, column, column, equation ⟨1⟩ ⟨2⟩,
      ⟨.leaf ⟨.semicolon, ";", ⟨0, 5⟩⟩, none, none⟩], "x = x;", .parsing⟩
    f.Acyclic ∧ g.Acyclic ∧ f.outlineStatements = g.outlineStatements ∧
      List.Forall₂ (SameShape f g) f.statements g.statements ∧
      f.outline root ≠ g.outline root ∧ ¬SameShape f g root root := by
  intro column equation f g
  have hf : f.Acyclic := .of_rank ([2, 0, 1].getD ·.index 0) fun q c listed => by
    match q with
    | ⟨0⟩ => revert c; decide
    | ⟨1⟩ => revert c; decide
    | ⟨2⟩ => revert c; decide
    | ⟨n + 3⟩ => cases listed
  have hg : g.Acyclic := .of_rank ([2, 0, 0, 1, 0].getD ·.index 0) fun q c listed => by
    match q with
    | ⟨0⟩ => revert c; decide
    | ⟨1⟩ => revert c; decide
    | ⟨2⟩ => revert c; decide
    | ⟨3⟩ => revert c; decide
    | ⟨4⟩ => revert c; decide
    | ⟨n + 5⟩ => cases listed
  obtain ⟨nodes, statements⟩ := outlines_tell_shapes hf hg
  have same : f.outlineStatements = g.outlineStatements := by decide
  have other : f.outline root ≠ g.outline root := by decide
  exact ⟨hf, hg, same, statements.mp same, other, fun same => other ((nodes root root).mpr same)⟩

end Forest

end SqlFold
