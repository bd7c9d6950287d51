import SqlFold.Directory

/-!
# Catalogs

A `Catalog` tells which tables a database has and which columns they have. Tables are grouped into
schemas. A table name without a schema is looked up in the default schema, or in the only schema
where there is just one.
-/

namespace SqlFold.Catalog

/-- A column of a table. -/
structure Column where
  name : String
  /-- Whether the column accepts `NULL`. -/
  nullable : Bool
  /-- Whether no two rows have the same value. -/
  unique : Bool
  deriving DecidableEq, Inhabited

/-- Whether every row holds a distinct value that is not `NULL`. -/
def Column.isKey (c : Column) : Bool := c.unique && !c.nullable

/-- A table with its columns in order of declaration. -/
structure Table where
  name : String
  columns : List Column
  deriving DecidableEq, Inhabited

/-- The first column of the given name. -/
def Table.column? (t : Table) (name : String) : Option Column :=
  t.columns.find? fun c => c.name == name

/-- A group of tables, each under a key that need not be its name. -/
structure Schema where
  tables : Directory Table
  deriving Inhabited

namespace Schema

/-- The schema without tables. -/
def empty : Schema := ⟨.empty⟩

/-- Puts a table under its own name. -/
def withTable (s : Schema) (t : Table) : Schema := ⟨s.tables.insert t.name t⟩

/-- The table under a key. -/
def table? (s : Schema) (name : String) : Option Table := s.tables.find? name

end Schema

end Catalog

/-- The schemas of a database. -/
structure Catalog where
  /-- Where tables without a schema are looked up. -/
  defaultSchema : Option String
  schemas : Directory Catalog.Schema
  deriving Inhabited

namespace Catalog

/-- The catalog without schemas. -/
def empty : Catalog := ⟨none, .empty⟩

/-- Puts a schema under a name. -/
def withSchema (c : Catalog) (name : String) (s : Schema) : Catalog :=
  { c with schemas := c.schemas.insert name s }

/-- The schema of the given name, or the one for names without a schema. -/
def schema? (c : Catalog) (name : Option String) : Option Schema :=
  match name.or c.defaultSchema with
  | some name => c.schemas.find? name
  | none =>
    match c.schemas.values with
    | [only] => some only
    | _ => none

/-- The table of the given name in a schema, or in the one for names without a schema. -/
def table? (c : Catalog) (schema : Option String) (name : String) : Option Table :=
  (c.schema? schema).bind (·.table? name)

end Catalog

end SqlFold
