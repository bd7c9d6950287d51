import SqlFold.Forest.Columns
import SqlFold.Proofs.Entailment

/-!
# Whose column it is

`Tree.ownSubtrees` walks down from the top of a tree and enters no statement below it. A store looks the other way: it
reads everything below a statement and keeps the columns whose nearest statement on the way up is this one
(`Forest.ownedColumns`).

* On the way down the nearest statement above changes where a statement is passed and nowhere else
  (`Forest.Coherent.owner?_child`), so both find the same columns (`Forest.Coherent.ownedColumns_eq`).
* The columns of a statement of a parsed text stand in the order of the text, and every column below a statement is one
  of exactly one statement (`Dialect.parse_ownedColumns`).
-/

namespace SqlFold

open Forest

variable {ι : Type}

/-! ## The walk down -/

namespace Tree

/-- The tree and what is below it, without the statements below its top and what is in them. Parents stand before
children. -/
def ownSubtrees : Tree ι → List (Tree ι) :=
  fold fun tag n => mk tag (n.map Prod.fst) :: n.children.flatMap fun c => if c.1.kind.isStatement then [] else c.2

/-- The columns that the walk finds. -/
def ownColumns (t : Tree ι) : List (Tree ι) := t.ownSubtrees.filter (·.kind == .column)

/-- The equation of the walk: it goes on below the sub-trees that are no statements. -/
theorem ownSubtrees_eq (t : Tree ι) :
    t.ownSubtrees = t :: t.children.flatMap fun c => if c.kind.isStatement then [] else c.ownSubtrees := by
  obtain ⟨tag, n⟩ := t
  simp [ownSubtrees, fold_mk, Node.map_map, Function.comp_def, children, node, List.flatMap_map]

theorem ownColumns_eq (t : Tree ι) :
    t.ownColumns = (if t.kind = .column then [t] else []) ++
      t.children.flatMap fun c => if c.kind.isStatement then [] else c.ownColumns := by
  have below : (t.children.flatMap fun c => if c.kind.isStatement then [] else c.ownSubtrees).filter (·.kind == .column) =
      t.children.flatMap fun c => if c.kind.isStatement then [] else c.ownColumns := by
    rw [List.filter_flatMap]
    refine List.flatMap_congr fun c _ => ?_
    split <;> rfl
  rw [ownColumns, ownSubtrees_eq, List.filter_cons, below]
  by_cases column : t.kind = .column <;> simp [column]

/-- What the walk finds does not depend on the tags. -/
theorem ownColumns_bare (t : Tree ι) : t.bare.ownColumns = t.ownColumns.map bare := by
  induction t using Tree.induction with
  | step tag n ih =>
    rw [ownColumns_eq, ownColumns_eq, kind_bare, children, node_bare, Node.children_map, List.flatMap_map,
      List.map_append, List.map_flatMap]
    congr 1
    · split <;> rfl
    · refine List.flatMap_congr fun c mem => ?_
      rw [kind_bare]
      split
      · rfl
      · exact ih c mem

/-- A column has no sub-trees. -/
theorem children_of_column {t : Tree ι} (column : t.kind = .column) : t.children = [] := by
  obtain ⟨tag, n⟩ := t
  cases n with
  | column c => exact Node.children_column c
  | _ => cases column

/-- What the walk finds are columns. -/
theorem kind_of_mem_ownColumns {t c : Tree ι} (mem : c ∈ t.ownColumns) : c.kind = .column :=
  beq_iff_eq.mp (List.mem_filter.mp mem).2

/-- A column has a first token. -/
theorem leading_of_column {t : Tree ι} (column : t.kind = .column) : ∃ k, t.leadingToken? = some k := by
  obtain ⟨tag, n⟩ := t
  cases n with
  | column c =>
    obtain ⟨_ | _, _ | _, _⟩ := c <;> simp [leadingToken?_mk, Node.leadingToken?, Node.parts, Part.ofToken?]
  | _ => cases column

/-- The tokens of the columns are tokens of the tree, in the same order. -/
theorem tokens_ownColumns_sublist (t : Tree ι) : (t.ownColumns.flatMap tokens).Sublist t.tokens := by
  induction t using Tree.induction with
  | step tag n ih =>
    rw [ownColumns_eq]
    by_cases column : (mk tag n).kind = .column
    · rw [if_pos column, children_of_column column]
      simp
    · rw [if_neg column, List.nil_append, List.flatMap_assoc]
      refine List.Sublist.trans (.flatMap_right _ fun c mem => ?_) (tokens_children_sublist (mk tag n))
      split
      · exact List.nil_sublist _
      · exact ih c mem

end Tree

/-! ## The way up -/

namespace Forest

variable {f : Forest} {q c r s : NodeRef}

/-- The statement that a node is or belongs to. -/
def holder? (f : Forest) (r : NodeRef) : Option NodeRef := if (f.kind r).isStatement then some r else f.owner? r

/-- Columns are no statements. -/
theorem holder?_of_column (column : f.kind r = .column) : f.holder? r = f.owner? r := by
  rw [holder?, column]
  rfl

namespace Coherent

variable (h : f.Coherent)

include h

/-- A way up is no longer than the path down. -/
theorem length_ancestorsWithin_le {p : List Nat} (path : f.Path p r) (n : Nat) :
    (f.ancestorsWithin n r).length ≤ p.length := by
  induction path generalizing n with
  | root =>
    cases n with
    | zero => exact Nat.le_refl 0
    | succ n =>
      rw [ancestorsWithin, h.root]
      exact Nat.le_refl 0
  | @step p i q c above hi ih =>
    cases n with
    | zero => exact Nat.zero_le _
    | succ n =>
      rw [ancestorsWithin, h.link ⟨_, above⟩ (List.mem_of_getElem? hi), List.length_append]
      exact Nat.succ_le_succ (ih n)

/-- The way up from a sub-node leads to the node and then goes on from there. -/
theorem ancestors_child (reached : f.Reached q) (hc : c ∈ f.children q) : f.ancestors c = q :: f.ancestors q := by
  have link := h.link reached hc
  obtain ⟨p, path⟩ := reached
  obtain ⟨i, hi⟩ := List.getElem?_of_mem hc
  have deep := h.path_length_lt (path.step hi)
  rw [List.length_append, List.length_singleton] at deep
  obtain ⟨n, size⟩ := Nat.exists_eq_succ_of_ne_zero (Nat.ne_of_gt h.nonempty)
  -- The way up from the node ends before the step that is one less than from its sub-node.
  have short : (f.ancestorsWithin n q).length < n := by
    have := h.length_ancestorsWithin_le path n
    omega
  rw [ancestors, ancestors, size, ancestorsWithin, link]
  dsimp only
  rw [ancestorsWithin_of_short short (Nat.le_succ n)]

/-- A sub-node belongs to the node if it is a statement, and else to the statement that the node belongs to. -/
theorem owner?_child (reached : f.Reached q) (hc : c ∈ f.children q) : f.owner? c = f.holder? q := by
  rw [owner?, h.ancestors_child reached hc, List.find?_cons, holder?]
  cases (f.kind q).isStatement <;> rfl

/-- A node stands below the statement that it is or belongs to. -/
theorem below_of_holder? (reached : f.Reached r) (held : f.holder? r = some s) :
    f.Below s r ∧ (f.kind s).isStatement = true := by
  rw [holder?] at held
  split at held
  · next statement =>
    cases held
    exact ⟨.refl, statement⟩
  · rw [owner?] at held
    have statement := List.find?_some held
    exact ⟨h.below_of_mem_ancestorsWithin reached (List.mem_of_find?_eq_some held), statement⟩

/-- What stands below a statement belongs to this one or to one below it. -/
theorem holder?_of_below (reached : f.Reached q) (statement : (f.kind q).isStatement = true) (below : f.Below q r) :
    ∃ s, f.holder? r = some s ∧ f.Below q s := by
  induction below with
  | refl => exact ⟨q, if_pos statement, .refl⟩
  | @tail m c above hc ih =>
    by_cases own : (f.kind c).isStatement = true
    · exact ⟨c, if_pos own, above.tail hc⟩
    · obtain ⟨s, held, inside⟩ := ih
      exact ⟨s, by rw [holder?, if_neg own, h.owner?_child (reached.below above) hc, held], inside⟩

/-! ## Both ways -/

/-- The trees in the tree under a node are those under the nodes below it. -/
theorem mem_subtrees_tree {t : Tree NodeRef} : t ∈ (f.tree r).subtrees ↔ ∃ k, f.Below r k ∧ f.tree k = t := by
  induction r using h.grounded.induction with
  | _ r ih =>
    rw [Tree.subtrees_eq, h.children_tree, List.flatMap_map, List.mem_cons, List.mem_flatMap]
    constructor
    · rintro (rfl | ⟨c, hc, mem⟩)
      · exact ⟨r, .refl, rfl⟩
      · obtain ⟨k, below, shown⟩ := (ih c hc).mp mem
        exact ⟨k, .head hc below, shown⟩
    · rintro ⟨k, below, rfl⟩
      rcases Relation.ReflTransGen.cases_head below with rfl | ⟨c, hc, below⟩
      · exact .inl rfl
      · exact .inr ⟨c, hc, (ih c hc).mpr ⟨k, below, rfl⟩⟩

/-- Below a node the columns of its statement are those that the walk down from the node finds. -/
theorem filter_subtrees (reached : f.Reached r) (held : f.holder? r = some s) :
    ((f.tree r).subtrees.filter fun t => t.kind == .column && f.owner? t.tag == some s) = (f.tree r).ownColumns := by
  induction r using h.grounded.induction with
  | _ r ih =>
    have below : ((f.tree r).children.flatMap Tree.subtrees).filter (fun t => t.kind == .column && f.owner? t.tag == some s) =
        (f.tree r).children.flatMap fun c => if c.kind.isStatement then [] else c.ownColumns := by
      rw [h.children_tree, List.filter_flatMap, List.flatMap_map, List.flatMap_map]
      refine List.flatMap_congr fun c hc => ?_
      have owned : f.owner? c = some s := (h.owner?_child reached hc).trans held
      rw [h.kind_tree]
      by_cases statement : (f.kind c).isStatement = true
      · -- Everything below belongs to this statement or to one below it, and none of these is above.
        rw [if_pos statement, List.filter_eq_nil_iff]
        intro t mem kept
        obtain ⟨k, inside, rfl⟩ := h.mem_subtrees_tree.mp mem
        rw [h.kind_tree, h.tag_tree, Bool.and_eq_true, beq_iff_eq, beq_iff_eq] at kept
        obtain ⟨s', holds, above⟩ := h.holder?_of_below (reached.child hc) statement inside
        rw [holder?_of_column kept.1, kept.2] at holds
        cases holds
        have around := (h.below_of_holder? reached held).1
        exact not_below_of_mem_children h.grounded hc (above.trans around)
      · rw [if_neg statement]
        refine ih c hc (reached.child hc) ?_
        rw [holder?, if_neg statement, owned]
    rw [Tree.subtrees_eq, List.filter_cons, below, Tree.ownColumns_eq, h.kind_tree, h.tag_tree]
    by_cases column : f.kind r = .column
    · rw [holder?_of_column column] at held
      simp [column, held]
    · simp [column]

/-- The columns of a statement are those that the walk down from it finds. -/
theorem ownedColumns_eq (reached : f.Reached s) (statement : (f.kind s).isStatement = true) :
    f.ownedColumns s = (f.tree s).ownColumns := h.filter_subtrees reached (if_pos statement)

/-- A column below a statement is one of exactly one statement. -/
theorem existsUnique_owner (reached : f.Reached q) (statement : (f.kind q).isStatement = true) (below : f.Below q c)
    (column : f.kind c = .column) :
    ∃! s, f.Reached s ∧ (f.kind s).isStatement = true ∧ f.tree c ∈ f.ownedColumns s := by
  have owned {s : NodeRef} (mem : f.tree c ∈ f.ownedColumns s) : f.owner? c = some s := by
    have kept := (List.mem_filter.mp mem).2
    rw [h.tag_tree, Bool.and_eq_true, beq_iff_eq, beq_iff_eq] at kept
    exact kept.2
  obtain ⟨s, held, inside⟩ := h.holder?_of_below reached statement below
  obtain ⟨above, isStatement⟩ := h.below_of_holder? (reached.below below) held
  rw [holder?_of_column column] at held
  refine ⟨s, ⟨reached.below inside, isStatement, ?_⟩, ?_⟩
  · refine List.mem_filter.mpr ⟨h.mem_subtrees_tree.mpr ⟨c, above, rfl⟩, ?_⟩
    rw [h.kind_tree, h.tag_tree, column, held]
    simp
  · rintro s' ⟨_, _, mem⟩
    exact Option.some.inj ((owned mem).symm.trans held)

end Coherent

/-- The columns of a statement are those of the walk down from it, in the order of the text and each of them once. -/
structure ListsColumns (f : Forest) (s : NodeRef) : Prop where
  walk : f.ownedColumns s = (f.tree s).ownColumns
  ordered : (f.ownedColumns s).Pairwise fun t t' => t.position.Before t'.position
  once : ((f.ownedColumns s).map Tree.tag).Nodup

end Forest

namespace Dialect

variable {vocabulary : Vocabulary} {limit : Nat} {source : String} {f : Forest}

/-- Every statement of a parsed text lists its columns, and every column below a statement is one of exactly one
statement. -/
theorem parse_ownedColumns (ok : (Dialect.mk vocabulary (.standard limit)).parse source = .ok f) :
    (∀ s, f.Reached s → (f.kind s).isStatement = true → f.ListsColumns s) ∧
    ∀ c, f.kind c = .column → (∃ q, f.Reached q ∧ (f.kind q).isStatement = true ∧ f.Below q c) →
      ∃! s, f.Reached s ∧ (f.kind s).isStatement = true ∧ f.tree c ∈ f.ownedColumns s := by
  obtain ⟨script, row, h⟩ := exists_parsed ok
  have coherent := h.sound.coherent
  constructor
  · intro s reached statement
    have walk := coherent.ownedColumns_eq reached statement
    have ordered : (f.ownedColumns s).Pairwise fun t t' => t.position.Before t'.position := by
      rw [walk]
      refine Tree.ordered_of_sublist (h.tokens_increasing reached) (f.tree s).tokens_ownColumns_sublist ?_
      intro t mem
      exact Tree.leading_of_column (Tree.kind_of_mem_ownColumns mem)
    refine ⟨walk, ordered, List.pairwise_map.mpr (ordered.imp_of_mem ?_)⟩
    intro t t' mem mem' before same
    obtain ⟨k, -, rfl⟩ := coherent.mem_subtrees_tree.mp (List.mem_filter.mp mem).1
    obtain ⟨k', -, rfl⟩ := coherent.mem_subtrees_tree.mp (List.mem_filter.mp mem').1
    -- One node stands at one place, so it is not listed twice.
    rw [coherent.tag_tree, coherent.tag_tree] at same
    rw [same] at before
    exact Text.Position.Before.irrefl _ before
  · rintro c column ⟨q, reached, statement, below⟩
    exact coherent.existsUnique_owner reached statement below column

/-- In `SELECT a FROM (SELECT b)` each of the statements lists its own column, and `b` is a column of one of them. -/
theorem parse_ownedColumns_nested :
    let name (letter : String) (column : Nat) : Bare := .mk () (.column ⟨none, none, ⟨.symbol, letter, ⟨0, column⟩⟩⟩)
    ∃ f s q c, Dialect.standard.parse "SELECT a FROM (SELECT b)" = .ok f ∧
      f.Reached s ∧ (f.kind s).isStatement = true ∧ f.Reached q ∧ (f.kind q).isStatement = true ∧ f.Below s q ∧
        f.ListsColumns s ∧ (f.ownedColumns s).map Tree.bare = [name "a" 7] ∧
        f.ListsColumns q ∧ (f.ownedColumns q).map Tree.bare = [name "b" 22] ∧
        f.kind c = .column ∧ f.Below q c ∧
          ∃! p, f.Reached p ∧ (f.kind p).isStatement = true ∧ f.tree c ∈ f.ownedColumns p := by
  intro name
  have scanned : Script.ofText? .standard "SELECT a FROM (SELECT b)" = .ok ⟨"SELECT a FROM (SELECT b)",
      [⟨.selectKw, "SELECT", ⟨0, 0⟩⟩, ⟨.whitespace, " ", ⟨0, 6⟩⟩, ⟨.symbol, "a", ⟨0, 7⟩⟩, ⟨.whitespace, " ", ⟨0, 8⟩⟩,
        ⟨.fromKw, "FROM", ⟨0, 9⟩⟩, ⟨.whitespace, " ", ⟨0, 13⟩⟩, ⟨.bracketOpen, "(", ⟨0, 14⟩⟩,
        ⟨.selectKw, "SELECT", ⟨0, 15⟩⟩, ⟨.whitespace, " ", ⟨0, 21⟩⟩, ⟨.symbol, "b", ⟨0, 22⟩⟩,
        ⟨.bracketClose, ")", ⟨0, 23⟩⟩]⟩ := Script.ofText?_standard (by decide +kernel)
  let inner : Bare := .mk () (.select ⟨⟨.selectKw, "SELECT", ⟨0, 15⟩⟩, none, [⟨name "b" 22, none⟩], none, [], none, none,
    none, none⟩)
  let brackets : Bare := Row.span ⟨.bracketOpen, "(", ⟨0, 14⟩⟩ ⟨.bracketClose, ")", ⟨0, 23⟩⟩ [inner]
  let clause : Bare := .mk () (.fromClause ⟨⟨.fromKw, "FROM", ⟨0, 9⟩⟩, brackets, none⟩)
  let outer : Bare := .mk () (.select ⟨⟨.selectKw, "SELECT", ⟨0, 0⟩⟩, none, [⟨name "a" 7, none⟩], some clause, [], none,
    none, none, none⟩)
  have settled : Row.settle (.standard Folding.standardLimit) false 8 (Row.leaves
      [⟨.selectKw, "SELECT", ⟨0, 0⟩⟩, ⟨.symbol, "a", ⟨0, 7⟩⟩, ⟨.fromKw, "FROM", ⟨0, 9⟩⟩, ⟨.bracketOpen, "(", ⟨0, 14⟩⟩,
        ⟨.selectKw, "SELECT", ⟨0, 15⟩⟩, ⟨.symbol, "b", ⟨0, 22⟩⟩, ⟨.bracketClose, ")", ⟨0, 23⟩⟩]) = .ok () [outer] := by cbv
  obtain ⟨f, ok, parsed⟩ := parse_of_settle scanned settled
  have h := parsed.sound.coherent
  have kindOf {r : NodeRef} {t : Bare} (shown : f.bare r = t) : f.kind r = t.kind := shown ▸ (h.kind_bare r).symm
  -- The way down: the outer statement, its `FROM`, the brackets, the inner statement and its column.
  obtain ⟨s, listed, shown⟩ := List.map_eq_singleton_iff.mp parsed.children_root
  have reached : f.Reached s := .child .root (listed ▸ List.mem_singleton_self s)
  obtain ⟨m, first, shownM⟩ := h.exists_child shown (u := clause) (by simp [outer, Tree.node])
  obtain ⟨b, second, shownB⟩ := h.exists_child shownM (u := brackets) (by simp [clause, Tree.node])
  obtain ⟨q, third, shownQ⟩ := h.exists_child shownB (u := inner) List.mem_cons_self
  obtain ⟨c, fourth, shownC⟩ := h.exists_child shownQ (u := name "b" 22) List.mem_cons_self
  have below : f.Below s q := .head first (.head second (.single third))
  have column : f.kind c = .column := kindOf shownC
  have outerStatement : (f.kind s).isStatement = true := by rw [kindOf shown]; rfl
  have innerStatement : (f.kind q).isStatement = true := by rw [kindOf shownQ]; rfl
  obtain ⟨lists, owned⟩ := parse_ownedColumns ok
  have columns {r : NodeRef} {t : Bare} (reached : f.Reached r) (statement : (f.kind r).isStatement = true)
      (shown : f.bare r = t) : (f.ownedColumns r).map Tree.bare = t.ownColumns := by
    rw [(lists r reached statement).walk, ← Tree.ownColumns_bare, ← shown, bare]
  refine ⟨f, s, q, c, ok, reached, outerStatement, reached.below below, innerStatement, below,
    lists s reached outerStatement, ?_, lists q (reached.below below) innerStatement, ?_, column, .single fourth,
    owned c column ⟨q, reached.below below, innerStatement, .single fourth⟩⟩
  · rw [columns reached outerStatement shown]
    cbv
  · rw [columns (reached.below below) innerStatement shownQ]
    cbv

end Dialect

end SqlFold
