import SqlFold.Proofs.Resolution

/-!
# Which table a qualified column belongs to

A column can be written behind the reference of its table, and this behind a schema. A scope holds its tables by their
references and does not know their schemas, so a qualified column belongs to the visible table with its reference,
whatever schema it names (`Dialect.parse_resolves_qualified`). The table is one of that schema if the statement takes it
from there. If it takes it from elsewhere, the column is resolved all the same.
-/

namespace SqlFold

open Forest

variable {ι : Type}

/-! ## The schema of a table -/

namespace Catalog

/-- The name of the schema that is asked for: the given one, or else the default, or else that of the only schema. -/
def schemaName? (c : Catalog) (name : Option String) : Option String :=
  match name.or c.defaultSchema with
  | some name => some name
  | none =>
    match c.schemas.names with
    | [only] => some only
    | _ => none

/-- The schema that is found is the one of this name. -/
theorem schema?_eq (c : Catalog) (name : Option String) :
    c.schema? name = (c.schemaName? name).bind c.schemas.find? := by
  rw [schema?, schemaName?]
  cases name.or c.defaultSchema with
  | some name => rfl
  | none =>
    rw [Directory.values, Directory.names]
    rcases entries : c.schemas.entries with _ | ⟨⟨only, found⟩, _ | ⟨_, _⟩⟩
    · rfl
    · -- A schema that is the only one is found by its name.
      have listed : (only, found) ∈ c.schemas.entries := entries ▸ List.mem_singleton_self _
      exact (c.schemas.find?_eq_some.mpr listed).symm
    · rfl

end Catalog

namespace TableUse

/-- The table is the one of the name that is written, in the schema of this name. -/
def Takes (catalog : Catalog) (u : TableUse) (schema : String) (table : Catalog.Table) : Prop :=
  catalog.schemaName? u.schema = some schema ∧
    ∃ group, catalog.schemas.find? schema = some group ∧ group.table? u.name = some table

/-- What the catalog knows of a table is taken from the schema that is asked for. -/
theorem takes_of_table? {catalog : Catalog} {u : TableUse} {schema : String} {table : Catalog.Table}
    (named : catalog.schemaName? u.schema = some schema) (known : catalog.table? u.schema u.name = some table) :
    u.Takes catalog schema table := by
  rw [Catalog.table?, Catalog.schema?_eq, named, Option.bind_some, Option.bind_eq_some_iff] at known
  exact ⟨named, known⟩

/-- The visible tables are some of those that are named. -/
theorem visible_sublist (uses : List TableUse) : (visible uses).Sublist uses := by
  induction uses with
  | nil => exact .slnil
  | cons first rest ih =>
    rw [visible]
    split
    · exact ih.cons first
    · exact ih.cons_cons first

/-- No two visible tables have the same reference. -/
theorem nodup_visible (uses : List TableUse) : ((visible uses).map reference).Nodup := by
  induction uses with
  | nil => exact .nil
  | cons first rest ih =>
    rw [visible]
    split
    · exact ih
    · next fresh =>
      -- A table is kept where its reference does not come again, and nothing visible is new.
      refine List.nodup_cons.mpr ⟨fun later => fresh ?_, ih⟩
      exact ((visible_sublist rest).map reference).mem later

/-- A table in whose place another one is visible has the reference of that one. -/
theorem exists_visible {uses : List TableUse} {u : TableUse} (mem : u ∈ uses) :
    ∃ v ∈ visible uses, v.reference = u.reference := by
  induction uses generalizing u with
  | nil => cases mem
  | cons first rest ih =>
    rw [visible]
    split
    · next hidden =>
      rcases List.mem_cons.mp mem with rfl | mem
      · -- It is hidden by one further behind, and for this one the same is known.
        obtain ⟨v, behind, same⟩ := List.mem_map.mp hidden
        rw [← same]
        exact ih behind
      · exact ih mem
    · rcases List.mem_cons.mp mem with rfl | mem
      · exact ⟨u, List.mem_cons_self, rfl⟩
      · obtain ⟨v, seen, same⟩ := ih mem
        exact ⟨v, List.mem_cons_of_mem _ seen, same⟩

/-- The table of a column that a table owns is this one. -/
theorem table?_of_owner? {catalog : Catalog} {column : String} {u : TableUse} {x : Resolution}
    (owned : u.owner? catalog column = some x) : catalog.table? u.schema u.name = some x.table := by
  obtain ⟨table, known, found⟩ := Option.bind_eq_some_iff.mp owned
  obtain ⟨_, _, rfl⟩ := Option.map_eq_some_iff.mp found
  exact known

end TableUse

/-! ## Qualified columns -/

namespace Scope

variable {s : Scope} {uses : List TableUse} {u : TableUse} {reference : String}
  (taken : s.Includes uses)

include taken

/-- The tables that were taken in are in the catalog. -/
theorem exists_table (mem : u ∈ uses) : ∃ table, s.catalog.table? u.schema u.name = some table := by
  unfold Includes at taken
  generalize s.inclusions = inclusions at taken
  induction taken with
  | nil => cases mem
  | cons found _ ih =>
    rcases List.mem_cons.mp mem with rfl | mem
    · obtain ⟨table, known, -⟩ := Option.map_eq_some_iff.mp found
      exact ⟨table, known⟩
    · exact ih mem

/-- A visible table is found by its reference. -/
theorem table?_of_visible (mem : u ∈ TableUse.visible uses) :
    s.table? u.reference = s.catalog.table? u.schema u.name := by
  obtain ⟨table, known⟩ := exists_table taken ((TableUse.visible_sublist uses).mem mem)
  rw [known]
  exact (table?_eq_some taken).mpr ⟨u, mem, rfl, known⟩

/-- No table is found by a reference that the statement does not have. -/
theorem table?_eq_none : s.table? reference = none ↔ ∀ u ∈ uses, u.reference ≠ reference := by
  constructor
  · rintro none u mem rfl
    -- The table may be hidden, but then the one in its place has the reference too.
    obtain ⟨v, seen, same⟩ := TableUse.exists_visible mem
    obtain ⟨table, known⟩ := exists_table taken ((TableUse.visible_sublist uses).mem seen)
    rw [← same, table?_of_visible taken seen, known] at none
    cases none
  · intro other
    refine Option.eq_none_iff_forall_ne_some.mpr fun table found => ?_
    obtain ⟨u, seen, same, -⟩ := (table?_eq_some taken).mp found
    exact other u ((TableUse.visible_sublist uses).mem seen) same

variable {t : Tree ι} {c : ColumnName} (column : t.node = .column c)

include column

/-- A table is unknown if the statement does not have its reference. -/
theorem resolve_of_unknown (qualified : c.tableText? = some reference) (unknown : ∀ u ∈ uses, u.reference ≠ reference) :
    s.resolve t = .error (t.misfit (.unknownTable reference)) := by
  rw [resolve, column]
  dsimp only
  rw [resolveName, qualified]
  dsimp only
  rw [(table?_eq_none taken).mpr unknown]
  rfl

/-- A qualified column is one of the visible table with the reference, or it is unknown. -/
theorem resolve_of_visible (mem : u ∈ TableUse.visible uses) (qualified : c.tableText? = some u.reference) :
    s.resolve t =
      match u.owner? s.catalog c.name with
      | some x => .ok x
      | none => .error (t.misfit (.unknownColumn (some u.reference) c.name)) := by
  obtain ⟨table, known⟩ := exists_table taken ((TableUse.visible_sublist uses).mem mem)
  have owned : u.owner? s.catalog c.name = columnOf? u.reference table c.name := by
    rw [TableUse.owner?, known, columnOf?]
    rfl
  rw [resolve, column, owned]
  dsimp only
  rw [resolveName, qualified]
  dsimp only
  rw [table?_of_visible taken mem, known]
  dsimp only
  cases columnOf? u.reference table c.name <;> rfl

/-- What is found for a qualified column, and which of its names is unknown if nothing is. -/
theorem resolve_qualified (qualified : c.tableText? = some reference) :
    (∀ x, s.resolve t = .ok x ↔
      ∃ u ∈ TableUse.visible uses, u.reference = reference ∧ u.owner? s.catalog c.name = some x) ∧
    (s.resolve t = .error (t.misfit (.unknownTable reference)) ↔ ∀ u ∈ uses, u.reference ≠ reference) ∧
    (s.resolve t = .error (t.misfit (.unknownColumn (some reference) c.name)) ↔
      ∃ u ∈ TableUse.visible uses, u.reference = reference ∧ u.owner? s.catalog c.name = none) := by
  have within {u : TableUse} (seen : u ∈ TableUse.visible uses) : u ∈ uses := (TableUse.visible_sublist uses).mem seen
  have unlike : t.misfit (.unknownTable reference) ≠ t.misfit (.unknownColumn (some reference) c.name) := by
    intro same
    cases congrArg Misfit.fault same
  by_cases known : ∃ u ∈ uses, u.reference = reference
  · obtain ⟨v, mem, rfl⟩ := known
    obtain ⟨w, seen, same⟩ := TableUse.exists_visible mem
    rw [← same] at qualified unlike ⊢
    have nodup := TableUse.nodup_visible uses
    -- Among the visible tables the reference stands for this one.
    have alone (p : TableUse → Prop) : (∃ u ∈ TableUse.visible uses, u.reference = w.reference ∧ p u) ↔ p w := by
      constructor
      · rintro ⟨u, seen', alike, holds⟩
        exact List.inj_on_of_nodup_map nodup seen' seen alike ▸ holds
      · exact fun holds => ⟨w, seen, rfl, holds⟩
    have present : ¬∀ u ∈ uses, u.reference ≠ w.reference := fun unknown => unknown w (within seen) rfl
    rw [resolve_of_visible taken column seen qualified]
    simp only [alone]
    cases w.owner? s.catalog c.name with
    | none => simp [present, unlike.symm]
    | some x => simp [present]
  · have unknown : ∀ u ∈ uses, u.reference ≠ reference := fun u mem same => known ⟨u, mem, same⟩
    have answer := resolve_of_unknown taken column qualified unknown
    rw [answer]
    refine ⟨fun x => iff_of_false nofun ?_, iff_of_true rfl unknown, iff_of_false ?_ ?_⟩
    · rintro ⟨u, seen, same, -⟩
      exact unknown u (within seen) same
    · intro same
      exact unlike (Except.error.inj same)
    · rintro ⟨u, seen, same, -⟩
      exact unknown u (within seen) same

end Scope

namespace Dialect

variable {vocabulary : Vocabulary} {limit : Nat} {source : String} {f : Forest}

/-- In a statement whose tables are all known a qualified column is resolved if the visible table with its reference has
a column of its name. The table is unknown if the statement has no such reference, and the column if the table does not
have it. Where the table is taken from the schema that is written before it, the column is one of this schema. -/
theorem parse_resolves_qualified (ok : (Dialect.mk vocabulary (.standard limit)).parse source = .ok f) {r : NodeRef}
    (reached : f.Reached r) (statement : (f.kind r).isStatement = true) {catalog : Catalog} {scope : Scope}
    (taken : Scope.ofStatement catalog (f.tree r) = .ok scope) {t : Tree NodeRef} {c : ColumnName}
    (column : t.node = .column c) {reference : String} (qualified : c.tableText? = some reference) :
    let uses := (f.tree r).tableUses
    (∀ x, scope.resolve t = .ok x ↔
      ∃ u ∈ TableUse.visible uses, u.reference = reference ∧ u.owner? catalog c.name = some x) ∧
    (scope.resolve t = .error (t.misfit (.unknownTable reference)) ↔ ∀ u ∈ uses, u.reference ≠ reference) ∧
    (scope.resolve t = .error (t.misfit (.unknownColumn (some reference) c.name)) ↔
      ∃ u ∈ TableUse.visible uses, u.reference = reference ∧ u.owner? catalog c.name = none) ∧
    ∀ schema x, c.schemaText? = some schema → scope.resolve t = .ok x →
      (∀ u ∈ TableUse.visible uses, u.reference = reference → catalog.schemaName? u.schema = some schema) →
        ∃ u ∈ uses, u.Takes catalog schema x.table := by
  obtain ⟨rfl, included⟩ := parse_inclusions ok reached statement taken
  obtain ⟨found, unknownTable, unknownColumn⟩ := Scope.resolve_qualified included column qualified
  refine ⟨found, unknownTable, unknownColumn, ?_⟩
  intro schema x _ resolved meant
  obtain ⟨u, seen, same, owned⟩ := (found x).mp resolved
  have takes := TableUse.takes_of_table? (meant u seen same) (TableUse.table?_of_owner? owned)
  exact ⟨u, (TableUse.visible_sublist _).mem seen, takes⟩

/-! ## A column of a schema from which no table is taken -/

/-- The column `id` of the table `users` in the schema of this letter, written at a column of the first line. -/
def usersId (schema : String) (column : Nat) : ColumnName :=
  ⟨some ⟨.symbol, schema, ⟨0, column⟩⟩, some ⟨.symbol, "users", ⟨0, column + 2⟩⟩, ⟨.symbol, "id", ⟨0, column + 8⟩⟩⟩

/-- The statement that takes its table from one schema and names columns of two. -/
def selectUsersId : Bare :=
  .mk () (.select ⟨⟨.selectKw, "SELECT", ⟨0, 0⟩⟩, none,
    [⟨.mk () (.column (usersId "a" 7)), none⟩, ⟨.mk () (.column (usersId "b" 19)), none⟩],
    some (.mk () (.fromClause ⟨⟨.fromKw, "FROM", ⟨0, 30⟩⟩,
      .mk () (.table ⟨some ⟨.symbol, "b", ⟨0, 35⟩⟩, ⟨.symbol, "users", ⟨0, 37⟩⟩⟩), none⟩)),
    [], none, none, none, none⟩)

/-- The scope of the statement has the table of the second schema alone. -/
def scopeUsersId : Scope := ⟨twoUsers, [⟨"users", "users", ⟨"users", [⟨"id", true, false⟩]⟩⟩]⟩

theorem parse_selectUsersId : ∃ f r, Dialect.standard.parse "SELECT a.users.id, b.users.id FROM b.users" = .ok f ∧
    f.Reached r ∧ (f.kind r).isStatement = true ∧ Scope.ofStatement twoUsers (f.tree r) = .ok scopeUsersId ∧
      (f.tree r).tableUses = [⟨some "b", "users", "users"⟩] ∧
        ∀ c ∈ [usersId "a" 7, usersId "b" 19], ∃ k, f.Reached k ∧ (f.tree k).node = .column c := by
  have scanned : Script.ofText? .standard "SELECT a.users.id, b.users.id FROM b.users" =
      .ok ⟨"SELECT a.users.id, b.users.id FROM b.users",
        [⟨.selectKw, "SELECT", ⟨0, 0⟩⟩, ⟨.whitespace, " ", ⟨0, 6⟩⟩, ⟨.symbol, "a", ⟨0, 7⟩⟩, ⟨.dot, ".", ⟨0, 8⟩⟩,
          ⟨.symbol, "users", ⟨0, 9⟩⟩, ⟨.dot, ".", ⟨0, 14⟩⟩, ⟨.symbol, "id", ⟨0, 15⟩⟩, ⟨.comma, ",", ⟨0, 17⟩⟩,
          ⟨.whitespace, " ", ⟨0, 18⟩⟩, ⟨.symbol, "b", ⟨0, 19⟩⟩, ⟨.dot, ".", ⟨0, 20⟩⟩, ⟨.symbol, "users", ⟨0, 21⟩⟩,
          ⟨.dot, ".", ⟨0, 26⟩⟩, ⟨.symbol, "id", ⟨0, 27⟩⟩, ⟨.whitespace, " ", ⟨0, 29⟩⟩, ⟨.fromKw, "FROM", ⟨0, 30⟩⟩,
          ⟨.whitespace, " ", ⟨0, 34⟩⟩, ⟨.symbol, "b", ⟨0, 35⟩⟩, ⟨.dot, ".", ⟨0, 36⟩⟩,
          ⟨.symbol, "users", ⟨0, 37⟩⟩]⟩ := Script.ofText?_standard (by decide +kernel)
  have settled : Row.settle (.standard Folding.standardLimit) false 17 (Row.leaves
      [⟨.selectKw, "SELECT", ⟨0, 0⟩⟩, ⟨.symbol, "a", ⟨0, 7⟩⟩, ⟨.dot, ".", ⟨0, 8⟩⟩, ⟨.symbol, "users", ⟨0, 9⟩⟩,
        ⟨.dot, ".", ⟨0, 14⟩⟩, ⟨.symbol, "id", ⟨0, 15⟩⟩, ⟨.comma, ",", ⟨0, 17⟩⟩, ⟨.symbol, "b", ⟨0, 19⟩⟩,
        ⟨.dot, ".", ⟨0, 20⟩⟩, ⟨.symbol, "users", ⟨0, 21⟩⟩, ⟨.dot, ".", ⟨0, 26⟩⟩, ⟨.symbol, "id", ⟨0, 27⟩⟩,
        ⟨.fromKw, "FROM", ⟨0, 30⟩⟩, ⟨.symbol, "b", ⟨0, 35⟩⟩, ⟨.dot, ".", ⟨0, 36⟩⟩,
        ⟨.symbol, "users", ⟨0, 37⟩⟩]) = .ok () [selectUsersId] := by cbv
  obtain ⟨f, ok, parsed⟩ := parse_of_settle scanned settled
  have h := parsed.sound.coherent
  obtain ⟨r, listed, shown⟩ := List.map_eq_singleton_iff.mp parsed.children_root
  have reached : f.Reached r := .child .root (listed ▸ List.mem_singleton_self r)
  have bare : (f.tree r).bare = selectUsersId := shown
  have statement : (f.kind r).isStatement = true := by
    rw [← h.kind_bare, shown]
    rfl
  refine ⟨f, r, ok, reached, statement, ?_, ?_, ?_⟩
  · rw [← Scope.ofStatement_bare, bare]
    cbv
  · rw [← Tree.tableUses_bare, bare]
    cbv
  · intro c named
    have stands : .mk () (.column c) ∈ selectUsersId.node.children := by
      rw [selectUsersId, Tree.node, Node.children_select]
      rcases List.mem_pair.mp named with rfl | rfl
      · exact List.mem_cons_self
      · exact .tail _ List.mem_cons_self
    obtain ⟨k, child, column⟩ := h.exists_child shown stands
    exact ⟨k, reached.child child, Tree.node_of_bare_column column⟩

/-- In `SELECT a.users.id, b.users.id FROM b.users` no table is taken from the schema `a`, and yet the first column is
resolved. -/
theorem parse_resolves_misnamed : ∃ f r k c scope x,
    Dialect.standard.parse "SELECT a.users.id, b.users.id FROM b.users" = .ok f ∧ f.Reached r ∧
      (f.kind r).isStatement = true ∧ Scope.ofStatement twoUsers (f.tree r) = .ok scope ∧ f.Reached k ∧
        (f.tree k).node = .column c ∧ c.schemaText? = some "a" ∧ c.tableText? = some "users" ∧
          scope.resolve (f.tree k) = .ok x ∧
            ∀ u ∈ (f.tree r).tableUses, ∀ table, ¬u.Takes twoUsers "a" table := by
  obtain ⟨f, r, ok, reached, statement, taken, uses, columns⟩ := parse_selectUsersId
  obtain ⟨k, reached', column⟩ := columns (usersId "a" 7) List.mem_cons_self
  have resolved : scopeUsersId.resolve (f.tree k) =
      .ok ⟨"users", ⟨"users", [⟨"id", true, false⟩]⟩, ⟨"id", true, false⟩⟩ := by
    rw [Scope.resolve, column]
    rfl
  refine ⟨f, r, k, _, _, _, ok, reached, statement, taken, reached', column, rfl, rfl, resolved, ?_⟩
  -- The only table is taken from the other schema.
  rw [uses]
  intro u mem table takes
  cases List.mem_singleton.mp mem
  exact absurd takes.1 (by decide)

/-- What is said of all statements, said of the second column of this one, whose schema is the table's. -/
theorem parse_resolves_usersId : ∃ f r k x,
    Dialect.standard.parse "SELECT a.users.id, b.users.id FROM b.users" = .ok f ∧ f.Reached r ∧
      (f.kind r).isStatement = true ∧ Scope.ofStatement twoUsers (f.tree r) = .ok scopeUsersId ∧
        (f.tree k).node = .column (usersId "b" 19) ∧ scopeUsersId.resolve (f.tree k) = .ok x ∧
          ∃ u ∈ (f.tree r).tableUses, u.Takes twoUsers "b" x.table := by
  obtain ⟨f, r, ok, reached, statement, taken, uses, columns⟩ := parse_selectUsersId
  obtain ⟨k, -, column⟩ := columns (usersId "b" 19) (.tail _ List.mem_cons_self)
  obtain ⟨found, -, -, honoured⟩ := parse_resolves_qualified ok reached statement taken column rfl
  have resolved := (found ⟨"users", ⟨"users", [⟨"id", true, false⟩]⟩, ⟨"id", true, false⟩⟩).mpr (by
    rw [uses]
    exact ⟨_, List.mem_singleton_self _, rfl, rfl⟩)
  refine ⟨f, r, k, _, ok, reached, statement, taken, column, resolved, honoured "b" _ rfl resolved ?_⟩
  intro u seen _
  rw [uses] at seen
  cases List.mem_singleton.mp seen
  rfl

end Dialect

end SqlFold
