import Mathlib
import SqlFold.Proofs.Parsing
import SqlFold.Scope

/-!
# Which table an unqualified column belongs to

A statement names tables in its `FROM` clause and its joins, and after `UPDATE` (`Tree.tableUses`). Each of them is
known by a reference, its alias or else its name. A scope keeps one table for each reference, so a table is hidden
by a later one with the same reference (`TableUse.visible`), be it an alias that is given twice or tables of one
name in two schemas. An unqualified column belongs to the only visible table that owns a column of its name
(`Dialect.parse_resolves`). Where no two references are the same nothing is hidden.
-/

namespace SqlFold

open Forest

/-! ## Directories of lists -/

namespace Directory

variable {β : Type}

/-- The entries under whose name none stands behind them. -/
def lastEntries : List (String × β) → List (String × β)
  | [] => []
  | entry :: rest => if entry.1 ∈ rest.map Prod.fst then lastEntries rest else entry :: lastEntries rest

theorem lastEntries_snoc (entries : List (String × β)) (last : String × β) :
    lastEntries (entries ++ [last]) = (lastEntries entries).filter (·.1 ≠ last.1) ++ [last] := by
  induction entries with
  | nil => rfl
  | cons first rest ih =>
    rw [List.cons_append, lastEntries, ih, lastEntries]
    by_cases behind : first.1 ∈ rest.map Prod.fst
    · rw [if_pos behind, if_pos (by simp [behind])]
    · by_cases same : first.1 = last.1
      · rw [if_neg behind, if_pos (by simp [same]), List.filter_cons_of_neg (by simp [same])]
      · rw [if_neg behind, if_neg (by simpa [same] using behind), List.filter_cons_of_pos (by simp [same]), List.cons_append]

/-- What is inserted takes the place of what was there under its name. -/
theorem insertEntry_perm (name : String) (value : β) {entries : List (String × β)}
    (sorted : entries.Pairwise (·.1 < ·.1)) :
    (insertEntry name value entries).Perm ((name, value) :: entries.filter (·.1 ≠ name)) := by
  induction entries with
  | nil => exact .refl _
  | cons first rest ih =>
    obtain ⟨below, tail⟩ := List.pairwise_cons.mp sorted
    have kept (others : ∀ e ∈ rest, e.1 ≠ name) : rest.filter (·.1 ≠ name) = rest :=
      List.filter_eq_self.mpr fun e mem => by simpa using others e mem
    rw [insertEntry]
    split
    · next same =>
      rw [List.filter_cons_of_neg (by simp [same]), kept fun e mem eq => ?_]
      have := below e mem
      rw [eq, same] at this
      exact String.lt_irrefl _ this
    · next other =>
      rw [List.filter_cons_of_pos (by simpa using Ne.symm other)]
      split
      · next smaller =>
        rw [kept fun e mem eq => ?_]
        have := String.lt_trans smaller (below e mem)
        rw [eq] at this
        exact String.lt_irrefl _ this
      · exact ((ih tail).cons first).trans (.swap ..)

/-- Of several entries under one name a directory has the last one. -/
theorem entries_ofList (entries : List (String × β)) : (ofList entries).entries.Perm (lastEntries entries) := by
  induction entries using List.reverseRecOn with
  | nil => exact .refl _
  | append_singleton entries last ih =>
    obtain ⟨name, value⟩ := last
    have whole : ofList (entries ++ [(name, value)]) = (ofList entries).insert name value := by
      rw [ofList, List.foldl_append]
      rfl
    rw [whole, lastEntries_snoc]
    refine (insertEntry_perm name value (ofList entries).sorted).trans ?_
    exact ((ih.filter _).cons _).trans (List.perm_append_singleton ..).symm

end Directory

/-! ## The tables of a statement -/

variable {ι : Type}

/-- A table that a statement names. -/
structure TableUse where
  schema : Option String
  name : String
  /-- The alias, or else the name. -/
  reference : String

namespace TableUse

/-- The table that a source names. A bracketed subquery names none. -/
def of? (source : Tree ι) (aliasName : Option String) : Option TableUse :=
  match source.node with
  | .table t => some ⟨t.schemaText?, t.unquoted, aliasName.getD t.unquoted⟩
  | _ => none

/-- The table that a `FROM` clause or join names. -/
def ofClause? (clause : Tree ι) : Option TableUse :=
  match clause.node with
  | .fromClause c => of? c.source (c.aliasName.map (·.unquoted))
  | .join j => of? j.source (j.aliasName.map (·.unquoted))
  | _ => none

/-- The column of a name in the table that is named, where there are such a table and such a column. -/
def owner? (catalog : Catalog) (column : String) (u : TableUse) : Option Resolution :=
  (catalog.table? u.schema u.name).bind fun table => (table.column? column).map (⟨u.reference, table, ·⟩)

/-- The tables behind which there is none with the same reference. -/
def visible : List TableUse → List TableUse
  | [] => []
  | u :: us => if u.reference ∈ us.map reference then visible us else u :: visible us

/-- Where the references differ every table is visible. -/
theorem visible_of_nodup {uses : List TableUse} (nodup : (uses.map reference).Nodup) : visible uses = uses := by
  induction uses with
  | nil => rfl
  | cons u us ih =>
    obtain ⟨fresh, nodup⟩ := List.nodup_cons.mp nodup
    rw [visible, if_neg fresh, ih nodup]

/-- The table that is named in the catalog, under its reference. -/
def entry? (catalog : Catalog) (u : TableUse) : Option (String × Catalog.Table) :=
  (catalog.table? u.schema u.name).map (u.reference, ·)

/-- What is taken into a scope for a table. -/
def inclusion? (catalog : Catalog) (u : TableUse) : Option Inclusion :=
  (catalog.table? u.schema u.name).map (⟨u.name, u.reference, ·⟩)

end TableUse

/-- The tables that a statement names, each as often as it is named: after `UPDATE`, after `FROM` and in joins. -/
def Tree.tableUses (statement : Tree ι) : List TableUse :=
  (match statement.node with
    | .update u => TableUse.of? u.table (u.aliasName.map Token.unquoted)
    | _ => none).toList ++ statement.children.filterMap TableUse.ofClause?

theorem TableUse.of?_of_kind {source : Tree ι} {aliasName : Option String} (other : source.kind ≠ .table) :
    of? source aliasName = none := by
  unfold of?
  split
  · next node => exact absurd (congrArg Node.kind node) other
  · rfl

/-- Only `FROM` clauses and joins name tables. -/
theorem TableUse.ofClause?_of_kind {clause : Tree ι} (other : clause.kind ≠ .fromClause ∧ clause.kind ≠ .join) :
    ofClause? clause = none := by
  unfold ofClause?
  split
  · next node => exact absurd (congrArg Node.kind node) other.1
  · next node => exact absurd (congrArg Node.kind node) other.2
  · rfl

/-- A clause names the table that is its source. -/
theorem TableUse.ofClause?_eq (clause : Tree ι) :
    ofClause? clause = (Scope.sourceOf? clause).bind fun source => of? source.1 source.2 := by
  unfold ofClause? Scope.sourceOf?
  cases clause.node <;> rfl

/-- Among the sub-nodes of a statement the tables are named by the clauses that a scope takes them from. -/
theorem Tree.tableUses_eq {statement : Tree ι} (isStatement : statement.kind.isStatement = true)
    (slots : statement.bare.node.Slots (Rule.glance Tree.node)) :
    statement.tableUses = (Scope.sources statement).filterMap fun source => TableUse.of? source.1 source.2 := by
  rw [node_bare, Node.slots_map] at slots
  have kind (c : Tree ι) : ((Rule.glance Tree.node ∘ bare) c).kind = c.kind := kind_bare c
  -- All other sub-nodes are of other kinds.
  have nothing {cs : List (Tree ι)} (kinds : ∀ c ∈ cs, c.kind ≠ .fromClause ∧ c.kind ≠ .join) :
      cs.filterMap TableUse.ofClause? = [] :=
    List.filterMap_eq_nil_iff.mpr fun c mem => TableUse.ofClause?_of_kind (kinds c mem)
  have optional {c : Option (Tree ι)} {k : NodeKind} (kinds : ∀ t ∈ c, ((Rule.glance Tree.node ∘ bare) t).kind = k)
      (other : k ≠ .fromClause ∧ k ≠ .join) : c.toList.filterMap TableUse.ofClause? = [] :=
    nothing fun t mem => by
      rw [← kind, kinds t (Option.mem_toList.mp mem)]
      exact other
  obtain ⟨tag, n⟩ := statement
  cases n with
  | select s =>
    obtain ⟨-, -, items, source, joins, filter, grouping, having, ordering⟩ := slots
    have items : (s.items.map (·.expression)).filterMap TableUse.ofClause? = [] := nothing fun c mem => by
      obtain ⟨i, listed, rfl⟩ := List.mem_map.mp mem
      have expression := (items i listed).1
      rw [kind] at expression
      constructor <;> intro eq <;> simp [eq, NodeKind.isExpression] at expression
    show (Node.select s).children.filterMap _ = ((s.source.toList ++ s.joins).filterMap Scope.sourceOf?).filterMap _
    rw [Node.children_select, List.filterMap_filterMap]
    simp only [List.filterMap_append, items, optional filter (by decide), optional grouping (by decide),
      optional having (by decide), optional ordering (by decide), List.nil_append, List.append_nil]
    simp only [funext TableUse.ofClause?_eq]
  | update u =>
    obtain ⟨-, table, -, joins, -, assignments, filter, ordering⟩ := slots
    have assignments : u.assignments.filterMap TableUse.ofClause? = [] := nothing fun c mem => by
      have operation : c.bare.kind = .operation := Rule.kind_of_assigns (assignments c mem)
      rw [kind_bare] at operation
      rw [operation]
      decide
    have update : TableUse.ofClause? u.table = none := by
      rw [kind] at table
      exact TableUse.ofClause?_of_kind (by rw [table]; decide)
    have named : u.joins.filterMap TableUse.ofClause? =
        (u.joins.filterMap Scope.joinSource?).filterMap fun source => TableUse.of? source.1 source.2 := by
      rw [List.filterMap_filterMap]
      refine List.filterMap_congr fun c mem => ?_
      have join := joins c mem
      rw [kind] at join
      unfold Tree.kind at join
      unfold TableUse.ofClause? Scope.joinSource?
      cases node : c.node <;> first | rfl | (rw [node] at join; cases join)
    show (TableUse.of? u.table _).toList ++ (Node.update u).children.filterMap _ =
      ((u.table, _) :: u.joins.filterMap Scope.joinSource?).filterMap _
    rw [Node.children_update, List.filterMap_cons, ← named]
    simp only [List.filterMap_append, List.filterMap_cons, assignments, update, optional filter (by decide),
      optional ordering (by decide), List.append_nil]
    cases TableUse.of? u.table (u.aliasName.map (·.unquoted)) <;> rfl
  | _ => cases isStatement

/-- The tables that a statement names do not depend on the tags of its tree. -/
theorem Tree.tableUses_bare (t : Tree ι) : t.bare.tableUses = t.tableUses := by
  have source (c : Tree ι) (aliasName : Option String) :
      TableUse.of? c.bare aliasName = TableUse.of? c aliasName := by
    rw [TableUse.of?, TableUse.of?, node_bare]
    cases c.node <;> rfl
  have clause : TableUse.ofClause? ∘ bare = (TableUse.ofClause? : Tree ι → Option TableUse) := by
    funext c
    rw [Function.comp, TableUse.ofClause?, TableUse.ofClause?, node_bare]
    cases c.node with
    | fromClause => exact source ..
    | join => exact source ..
    | _ => rfl
  rw [tableUses, tableUses, children, children, node_bare, Node.children_map, List.filterMap_map, clause]
  cases t.node with
  | update => exact congrArg (·.toList ++ _) (source ..)
  | _ => rfl

/-- A column looks the same without tags. -/
theorem Tree.node_of_bare_column {t : Tree ι} {c : ColumnName} (shown : t.bare = .mk () (.column c)) :
    t.node = .column c := by
  have nodes := congrArg node shown
  rw [node_bare] at nodes
  cases whole : t.node <;> rw [whole] at nodes <;> cases nodes
  rfl

/-! ## The scope of a statement -/

namespace Scope

/-- A table that is taken in is in the catalog. -/
theorem takeTable_ok {s s' : Scope} {source : Tree ι} {aliasName : Option String}
    (taken : s.takeTable source aliasName = .ok s') :
    ∃ u i, TableUse.of? source aliasName = some u ∧ u.inclusion? s.catalog = some i ∧
      s' = { s with inclusions := s.inclusions ++ [i] } := by
  unfold takeTable at taken
  cases node : source.node with
  | table name =>
    rw [node] at taken
    cases found : s.catalog.table? name.schemaText? name.unquoted with
    | none => simp [take?, found] at taken
    | some table =>
      simp only [take?, found, Option.map_some, Except.ok.injEq] at taken
      refine ⟨_, ⟨name.unquoted, aliasName.getD name.unquoted, table⟩, by rw [TableUse.of?, node], ?_, taken.symm⟩
      rw [TableUse.inclusion?, found]
      rfl
  | _ =>
    rw [node] at taken
    cases taken

/-- What is taken in are the tables that are named, all of which are in the catalog. -/
theorem takeSources_ok {s s' : Scope} {sources : List (Tree ι × Option String)}
    (taken : s.takeSources sources = (s', .ok ())) :
    s'.catalog = s.catalog ∧
      ∃ added, s'.inclusions = s.inclusions ++ added ∧
        List.Forall₂ (fun u i => u.inclusion? s.catalog = some i)
          (sources.filterMap fun source => TableUse.of? source.1 source.2) added := by
  induction sources generalizing s with
  | nil =>
    cases taken
    exact ⟨rfl, [], (List.append_nil _).symm, .nil⟩
  | cons first rest ih =>
    obtain ⟨source, aliasName⟩ := first
    rw [takeSources] at taken
    split at taken
    · next isTable =>
      cases found : s.takeTable source aliasName with
      | error e =>
        rw [found] at taken
        cases taken
      | ok between =>
        rw [found] at taken
        obtain ⟨u, i, named, included, rfl⟩ := takeTable_ok found
        obtain ⟨catalog, added, inclusions, each⟩ := ih taken
        refine ⟨catalog, i :: added, by rw [inclusions, List.append_assoc]; rfl, ?_⟩
        rw [List.filterMap_cons]
        dsimp only
        rw [named]
        exact .cons included each
    · next other =>
      obtain ⟨catalog, added, inclusions, each⟩ := ih taken
      refine ⟨catalog, added, inclusions, ?_⟩
      rw [List.filterMap_cons]
      dsimp only
      rwa [TableUse.of?_of_kind other]

/-- The scope has been made by taking in these tables, all of which are in the catalog. -/
def Includes (s : Scope) (uses : List TableUse) : Prop :=
  List.Forall₂ (fun u i => u.inclusion? s.catalog = some i) uses s.inclusions

/-- The scope of a statement has the tables that are named. -/
theorem ofStatement_ok {catalog : Catalog} {statement : Tree ι} {scope : Scope}
    (taken : ofStatement catalog statement = .ok scope) :
    scope.catalog = catalog ∧
      scope.Includes ((sources statement).filterMap fun source => TableUse.of? source.1 source.2) := by
  unfold ofStatement at taken
  rcases gathered : gather catalog statement with ⟨s, _ | ⟨⟩⟩
  · rw [gathered] at taken
    cases taken
  · rw [gathered] at taken
    cases taken
    obtain ⟨same, added, inclusions, each⟩ := takeSources_ok gathered
    rw [empty, List.nil_append] at inclusions
    refine ⟨same, ?_⟩
    rw [Includes, same, inclusions]
    exact each

/-- A scope has the visible tables under their references. -/
theorem tables_perm {s : Scope} {uses : List TableUse}
    (taken : s.Includes uses) :
    s.tables.entries.Perm ((TableUse.visible uses).filterMap (TableUse.entry? s.catalog)) := by
  refine (Directory.entries_ofList _).trans (.of_eq ?_)
  unfold Includes at taken
  generalize s.inclusions = inclusions at taken
  have parts {u : TableUse} {i : Inclusion} (found : u.inclusion? s.catalog = some i) :
      i.reference = u.reference ∧ s.catalog.table? u.schema u.name = some i.table := by
    obtain ⟨table, entry, rfl⟩ := Option.map_eq_some_iff.mp found
    exact ⟨rfl, entry⟩
  have references {us : List TableUse} {is : List Inclusion}
      (taken : List.Forall₂ (fun u i => u.inclusion? s.catalog = some i) us is) :
      (is.map fun i => (i.reference, i.table)).map Prod.fst = us.map (·.reference) := by
    induction taken with
    | nil => rfl
    | cons found _ ih => exact congrArg₂ List.cons (parts found).1 ih
  induction taken with
  | nil => rfl
  | @cons u i us is found taken ih =>
    obtain ⟨reference, table⟩ := parts found
    have entry : u.entry? s.catalog = some (i.reference, i.table) := by rw [TableUse.entry?, table, reference]; rfl
    rw [List.map_cons, Directory.lastEntries, TableUse.visible, references taken]
    dsimp only
    rw [reference]
    split
    · exact ih
    · rw [List.filterMap_cons, entry, ih, reference]

/-- The columns of a name are those of the visible tables that own one. -/
theorem candidates_perm {s : Scope} {uses : List TableUse}
    (taken : s.Includes uses) (column : String) :
    (s.candidates column).Perm ((TableUse.visible uses).filterMap (TableUse.owner? s.catalog column)) := by
  refine ((tables_perm taken).filterMap _).trans (.of_eq ?_)
  rw [List.filterMap_filterMap]
  refine List.filterMap_congr fun u _ => ?_
  rw [TableUse.entry?, TableUse.owner?]
  cases s.catalog.table? u.schema u.name <;> rfl

/-- The table with a reference is the visible one of this reference. -/
theorem table?_eq_some {s : Scope} {uses : List TableUse}
    (taken : s.Includes uses) {reference : String}
    {table : Catalog.Table} :
    s.table? reference = some table ↔
      ∃ u ∈ TableUse.visible uses, u.reference = reference ∧ s.catalog.table? u.schema u.name = some table := by
  rw [table?, Directory.find?_eq_some, (tables_perm taken).mem_iff, List.mem_filterMap]
  refine exists_congr fun u => and_congr_right fun _ => ?_
  rw [TableUse.entry?, Option.map_eq_some_iff]
  constructor
  · rintro ⟨_, found, same⟩
    obtain ⟨rfl, rfl⟩ := Prod.mk.inj same
    exact ⟨rfl, found⟩
  · rintro ⟨rfl, found⟩
    exact ⟨table, found, rfl⟩

/-! ### Trees without references -/

theorem sources_bare (t : Tree ι) : sources t.bare = (sources t).map fun source => (source.1.bare, source.2) := by
  have clause : sourceOf? ∘ Tree.bare = fun c : Tree ι => (sourceOf? c).map fun source => (source.1.bare, source.2) := by
    funext c
    rw [Function.comp, sourceOf?, sourceOf?, Tree.node_bare]
    cases c.node <;> rfl
  have join : joinSource? ∘ Tree.bare = fun c : Tree ι => (joinSource? c).map fun source => (source.1.bare, source.2) := by
    funext c
    rw [Function.comp, joinSource?, joinSource?, Tree.node_bare]
    cases c.node <;> rfl
  rw [sources, sources, Tree.node_bare]
  cases t.node with
  | select s =>
    show ((s.source.map Tree.bare).toList ++ s.joins.map Tree.bare).filterMap sourceOf? = _
    rw [Option.toList_map, ← List.map_append, List.filterMap_map, clause, List.map_filterMap]
  | update u =>
    show _ :: (u.joins.map Tree.bare).filterMap joinSource? = _
    rw [List.filterMap_map, join, List.map_cons, List.map_filterMap]
  | _ => rfl

theorem takeSources_bare (s : Scope) (sources : List (Tree ι × Option String)) :
    s.takeSources (sources.map fun source => (source.1.bare, source.2)) = s.takeSources sources := by
  have table (s : Scope) (t : Tree ι) (aliasName : Option String) :
      s.takeTable t.bare aliasName = s.takeTable t aliasName := by
    rw [takeTable, takeTable, Tree.node_bare]
    cases t.node <;> simp [Node.map, Tree.misfit, Tree.position_bare, Node.kind]
  induction sources generalizing s with
  | nil => rfl
  | cons first rest ih =>
    obtain ⟨source, aliasName⟩ := first
    rw [List.map_cons, takeSources, takeSources, table, Tree.kind_bare]
    simp only [ih]

/-- The scope of a statement does not depend on the tags of its tree. -/
theorem ofStatement_bare (catalog : Catalog) (t : Tree ι) : ofStatement catalog t.bare = ofStatement catalog t := by
  rw [ofStatement, ofStatement, gather, gather, sources_bare, takeSources_bare]

/-- A name without a qualifier is resolved by the visible tables that own a column of this name. -/
theorem resolve_unqualified {s : Scope} {uses : List TableUse}
    (taken : s.Includes uses) {t : Tree ι} {c : ColumnName}
    (column : t.node = .column c) (unqualified : c.table = none) :
    s.resolve t =
      match (TableUse.visible uses).filterMap (TableUse.owner? s.catalog c.name) with
      | [] => .error (t.misfit (.unknownColumn none c.name))
      | [x] => .ok x
      | _ => .error (t.misfit (.ambiguousColumn c.name)) := by
  have perm := candidates_perm taken c.name
  have noTable : c.tableText? = none := by rw [ColumnName.tableText?, unqualified]; rfl
  rw [resolve, column]
  dsimp only
  rw [resolveName, noTable]
  dsimp only
  generalize (TableUse.visible uses).filterMap (TableUse.owner? s.catalog c.name) = owners at perm ⊢
  match owners, perm with
  | [], perm => rw [List.perm_nil.mp perm]; rfl
  | [x], perm => rw [List.perm_singleton.mp perm]; rfl
  | x :: y :: rest, perm =>
    have length := perm.length_eq
    match s.candidates c.name, length with
    | _ :: _ :: _, _ => rfl

end Scope

namespace Dialect

variable {vocabulary : Vocabulary} {limit : Nat} {source : String} {f : Forest}

/-- The scope of a statement of a parsed text has the tables that the statement names. -/
theorem parse_inclusions (ok : (Dialect.mk vocabulary (.standard limit)).parse source = .ok f) {r : NodeRef}
    (reached : f.Reached r) (statement : (f.kind r).isStatement = true) {catalog : Catalog} {scope : Scope}
    (taken : Scope.ofStatement catalog (f.tree r) = .ok scope) :
    scope.catalog = catalog ∧ scope.Includes (f.tree r).tableUses := by
  obtain ⟨script, row, h⟩ := exists_parsed ok
  have kind : (f.tree r).kind = f.kind r := h.sound.coherent.kind_tree r
  have slots : (f.tree r).bare.node.Slots (Rule.glance Tree.node) := by
    rcases h.all_reached (fun t mem => (h.sound_row t mem).all) reached with rfl | layers
    · have isRoot := h.sound.root
      cases node : f.node root <;> simp_all [Forest.kind, NodeKind.isStatement, Node.kind]
    · exact layers.node.2
  rw [Tree.tableUses_eq (kind ▸ statement) slots]
  exact Scope.ofStatement_ok taken

/-- In a statement whose tables are all known a column without a qualifier is resolved if one visible table owns a
column of its name. It is unknown if none does, and ambiguous if several do. Every table is visible where their
references differ. -/
theorem parse_resolves (ok : (Dialect.mk vocabulary (.standard limit)).parse source = .ok f) {r : NodeRef}
    (reached : f.Reached r) (statement : (f.kind r).isStatement = true) {catalog : Catalog} {scope : Scope}
    (taken : Scope.ofStatement catalog (f.tree r) = .ok scope) {t : Tree NodeRef} {c : ColumnName}
    (column : t.node = .column c) (unqualified : c.table = none) :
    let uses := (f.tree r).tableUses
    let owners := (TableUse.visible uses).filterMap (TableUse.owner? catalog c.name)
    (∀ x, scope.resolve t = .ok x ↔ owners = [x]) ∧
      (scope.resolve t = .error (t.misfit (.unknownColumn none c.name)) ↔ owners = []) ∧
      (scope.resolve t = .error (t.misfit (.ambiguousColumn c.name)) ↔ 2 ≤ owners.length) ∧
      ((uses.map (·.reference)).Nodup → owners = uses.filterMap (TableUse.owner? catalog c.name)) := by
  obtain ⟨rfl, included⟩ := parse_inclusions ok reached statement taken
  have resolved := Scope.resolve_unqualified included column unqualified
  have nothingHidden (nodup : ((f.tree r).tableUses.map (·.reference)).Nodup) :=
    congrArg (List.filterMap (TableUse.owner? scope.catalog c.name)) (TableUse.visible_of_nodup nodup)
  have unlike : t.misfit (.unknownColumn none c.name) ≠ t.misfit (.ambiguousColumn c.name) := by
    intro eq
    cases congrArg Misfit.fault eq
  -- No owner, one, or several: the three answers exclude each other.
  dsimp only
  rw [resolved]
  generalize (TableUse.visible (f.tree r).tableUses).filterMap _ = owners at nothingHidden ⊢
  rcases owners with _ | ⟨x, _ | ⟨y, rest⟩⟩
  · simpa [unlike] using nothingHidden
  · simpa using nothingHidden
  · simpa [unlike.symm] using nothingHidden

/-! ## A table that is hidden by another schema's -/

/-- Two schemas that have a table of the same name. -/
def twoUsers : Catalog :=
  (Catalog.empty.withSchema "a" (.withTable .empty ⟨"users", [⟨"id", false, true⟩]⟩)).withSchema "b"
    (.withTable .empty ⟨"users", [⟨"id", true, false⟩]⟩)

/-- The statement that selects from both of them. -/
def selectTwoUsers : Bare :=
  .mk () (.select ⟨⟨.selectKw, "SELECT", ⟨0, 0⟩⟩, none,
    [⟨.mk () (.column ⟨none, none, ⟨.symbol, "id", ⟨0, 7⟩⟩⟩), none⟩],
    some (.mk () (.fromClause ⟨⟨.fromKw, "FROM", ⟨0, 10⟩⟩,
      .mk () (.table ⟨some ⟨.symbol, "a", ⟨0, 15⟩⟩, ⟨.symbol, "users", ⟨0, 17⟩⟩⟩), none⟩)),
    [.mk () (.join ⟨[⟨.joinKw, "JOIN", ⟨0, 23⟩⟩],
      .mk () (.table ⟨some ⟨.symbol, "b", ⟨0, 28⟩⟩, ⟨.symbol, "users", ⟨0, 30⟩⟩⟩), none, none⟩)],
    none, none, none, none⟩)

/-- The scope of the statement has both tables, under one reference. -/
def scopeTwoUsers : Scope where
  catalog := twoUsers
  inclusions := [⟨"users", "users", ⟨"users", [⟨"id", false, true⟩]⟩⟩,
    ⟨"users", "users", ⟨"users", [⟨"id", true, false⟩]⟩⟩]

theorem parse_selectTwoUsers : ∃ f r k, Dialect.standard.parse "SELECT id FROM a.users JOIN b.users" = .ok f ∧
    f.Reached r ∧ (f.kind r).isStatement = true ∧ (f.tree r).bare = selectTwoUsers ∧
      Scope.ofStatement twoUsers (f.tree r) = .ok scopeTwoUsers ∧
        f.Reached k ∧ (f.tree k).node = .column ⟨none, none, ⟨.symbol, "id", ⟨0, 7⟩⟩⟩ := by
  have scanned : Script.ofText? .standard "SELECT id FROM a.users JOIN b.users" =
      .ok ⟨"SELECT id FROM a.users JOIN b.users",
        [⟨.selectKw, "SELECT", ⟨0, 0⟩⟩, ⟨.whitespace, " ", ⟨0, 6⟩⟩, ⟨.symbol, "id", ⟨0, 7⟩⟩,
          ⟨.whitespace, " ", ⟨0, 9⟩⟩, ⟨.fromKw, "FROM", ⟨0, 10⟩⟩, ⟨.whitespace, " ", ⟨0, 14⟩⟩,
          ⟨.symbol, "a", ⟨0, 15⟩⟩, ⟨.dot, ".", ⟨0, 16⟩⟩, ⟨.symbol, "users", ⟨0, 17⟩⟩,
          ⟨.whitespace, " ", ⟨0, 22⟩⟩, ⟨.joinKw, "JOIN", ⟨0, 23⟩⟩, ⟨.whitespace, " ", ⟨0, 27⟩⟩,
          ⟨.symbol, "b", ⟨0, 28⟩⟩, ⟨.dot, ".", ⟨0, 29⟩⟩, ⟨.symbol, "users", ⟨0, 30⟩⟩]⟩ :=
    Script.ofText?_standard (by decide +kernel)
  have settled : Row.settle (.standard Folding.standardLimit) false 11 (Row.leaves
      [⟨.selectKw, "SELECT", ⟨0, 0⟩⟩, ⟨.symbol, "id", ⟨0, 7⟩⟩, ⟨.fromKw, "FROM", ⟨0, 10⟩⟩,
          ⟨.symbol, "a", ⟨0, 15⟩⟩, ⟨.dot, ".", ⟨0, 16⟩⟩, ⟨.symbol, "users", ⟨0, 17⟩⟩,
          ⟨.joinKw, "JOIN", ⟨0, 23⟩⟩, ⟨.symbol, "b", ⟨0, 28⟩⟩, ⟨.dot, ".", ⟨0, 29⟩⟩,
          ⟨.symbol, "users", ⟨0, 30⟩⟩]) = .ok () [selectTwoUsers] := by
    cbv
  obtain ⟨f, ok, h⟩ := parse_of_settle scanned settled
  obtain ⟨r, listed, bare⟩ := List.map_eq_singleton_iff.mp h.children_root
  have stands : .mk () (.column ⟨none, none, ⟨.symbol, "id", ⟨0, 7⟩⟩⟩) ∈ selectTwoUsers.node.children := by
    rw [selectTwoUsers, Tree.node, Node.children_select]
    exact List.mem_cons_self
  obtain ⟨k, child, shown⟩ := h.sound.coherent.exists_child bare stands
  have reached : f.Reached r := Reached.root.child (by rw [listed]; exact List.mem_cons_self)
  have statement : (f.kind r).isStatement = true := by
    rw [← h.sound.coherent.kind_bare, bare]
    rfl
  have taken : Scope.ofStatement twoUsers (f.tree r) = .ok scopeTwoUsers := by
    rw [← Scope.ofStatement_bare, show (f.tree r).bare = selectTwoUsers from bare]
    cbv
  exact ⟨f, r, k, ok, reached, statement, bare, taken, reached.child child, Tree.node_of_bare_column shown⟩

/-- In `SELECT id FROM a.users JOIN b.users` there are two tables that own a column of the name `id`, and yet it is
resolved. -/
theorem parse_resolves_hidden : ∃ f r k c scope x,
    Dialect.standard.parse "SELECT id FROM a.users JOIN b.users" = .ok f ∧ f.Reached r ∧
      (f.kind r).isStatement = true ∧ Scope.ofStatement twoUsers (f.tree r) = .ok scope ∧ f.Reached k ∧
        (f.tree k).node = .column c ∧ c.table = none ∧
          ((f.tree r).tableUses.filterMap (TableUse.owner? twoUsers c.name)).length = 2 ∧
            scope.resolve (f.tree k) = .ok x := by
  obtain ⟨f, r, k, ok, reached, statement, bare, taken, reached', column⟩ := parse_selectTwoUsers
  have two : ((f.tree r).tableUses.filterMap (TableUse.owner? twoUsers "id")).length = 2 := by
    rw [← Tree.tableUses_bare, bare]
    cbv
  have resolved : scopeTwoUsers.resolve (f.tree k) =
      .ok ⟨"users", ⟨"users", [⟨"id", true, false⟩]⟩, ⟨"id", true, false⟩⟩ := by
    rw [Scope.resolve, column]
    rfl
  exact ⟨f, r, k, _, _, _, ok, reached, statement, taken, reached', column, rfl, two, resolved⟩

/-- What is said of all statements, said of this one. -/
theorem parse_resolves_twoUsers : ∃ f r k, Dialect.standard.parse "SELECT id FROM a.users JOIN b.users" = .ok f ∧
    f.Reached r ∧ (f.kind r).isStatement = true ∧
      Scope.ofStatement twoUsers (f.tree r) = .ok scopeTwoUsers ∧
        (f.tree k).node = .column ⟨none, none, ⟨.symbol, "id", ⟨0, 7⟩⟩⟩ ∧
          ∀ x, scopeTwoUsers.resolve (f.tree k) = .ok x ↔
            (TableUse.visible (f.tree r).tableUses).filterMap (TableUse.owner? twoUsers "id") = [x] := by
  obtain ⟨f, r, k, ok, reached, statement, -, taken, -, column⟩ := parse_selectTwoUsers
  exact ⟨f, r, k, ok, reached, statement, taken, column, (parse_resolves ok reached statement taken column rfl).1⟩

end Dialect

end SqlFold
