import SqlFold.Catalog.Basic
import SqlFold.Fault
import SqlFold.Tree.Basic

/-!
# Resolving names

A `Scope` holds the tables that a statement can see, each under the name by which the statement
refers to it: its alias, or else its own name.

* `Scope.ofStatement` takes the tables of the `FROM`, the joins and the `UPDATE` of a statement into
  the scope; bracketed subqueries are left out;
* `Scope.resolve` finds the table and column that a column name stands for. With a qualifier the
  name must be one of that table's, without one it must be a name of exactly one table;
* `Scope.isOneToOne` tells whether an equation pairs each row with at most one other.
-/

namespace SqlFold

open Text

variable {ι : Type}

/-- A fault with its place in the text. -/
structure Misfit where
  fault : Fault
  position : Position
  deriving DecidableEq

/-- A fault at the top of a tree. -/
def Tree.misfit (t : Tree ι) (fault : Fault) : Misfit := ⟨fault, t.position⟩

/-- A table taken into a scope. -/
structure Inclusion where
  /-- The name by which the catalog was asked. -/
  name : String
  /-- The name by which the statement refers to the table. -/
  reference : String
  table : Catalog.Table
  deriving DecidableEq

/-- The tables that a statement can see. -/
structure Scope where
  catalog : Catalog
  /-- The tables in the order in which they were taken in. Of several with one reference the last
  one counts. -/
  inclusions : List Inclusion

/-- The column that a name stands for. -/
structure Resolution where
  /-- The name by which the statement refers to the table. -/
  reference : String
  table : Catalog.Table
  column : Catalog.Column
  deriving DecidableEq

namespace Scope

/-- The scope without tables. -/
def empty (catalog : Catalog) : Scope := ⟨catalog, []⟩

/-- The tables under their references. -/
def tables (s : Scope) : Directory Catalog.Table :=
  .ofList (s.inclusions.map fun i => (i.reference, i.table))

/-- The references in order. -/
def references (s : Scope) : List String := s.tables.names

/-- The table with the given reference. -/
def table? (s : Scope) (reference : String) : Option Catalog.Table := s.tables.find? reference

/-! ## Taking tables in -/

/-- Takes a table of the catalog in, if there is one of this name. -/
def take? (s : Scope) (schema : Option String) (name : String) (aliasName : Option String) :
    Option Scope :=
  (s.catalog.table? schema name).map fun table =>
    { s with inclusions := s.inclusions ++ [⟨name, aliasName.getD name, table⟩] }

/-- Takes in the table that a table node names. -/
def takeTable (s : Scope) (t : Tree ι) (aliasName : Option String) : Except Misfit Scope :=
  match t.node with
  | .table name =>
    match s.take? name.schemaText? name.unquoted aliasName with
    | some s => .ok s
    | none => .error (t.misfit (.unknownTable name.unquoted))
  | n => .error (t.misfit (.notATable n.kind))

/-- The source of a `FROM` clause or join, with its alias. -/
def sourceOf? (t : Tree ι) : Option (Tree ι × Option String) :=
  match t.node with
  | .fromClause c => some (c.source, c.aliasName.map (·.unquoted))
  | .join j => some (j.source, j.aliasName.map (·.unquoted))
  | _ => none

/-- The source of a join, with its alias. -/
def joinSource? (t : Tree ι) : Option (Tree ι × Option String) :=
  match t.node with
  | .join j => some (j.source, j.aliasName.map (·.unquoted))
  | _ => none

/-- The sources of a statement in source order, with their aliases. -/
def sources (statement : Tree ι) : List (Tree ι × Option String) :=
  match statement.node with
  | .select s => (s.source.toList ++ s.joins).filterMap sourceOf?
  | .update u => (u.table, u.aliasName.map (·.unquoted)) :: u.joins.filterMap joinSource?
  | _ => []

/-- Takes in the tables among the given sources. Where one is unknown the scope before it is given
as well. -/
def takeSources (s : Scope) : List (Tree ι × Option String) → Scope × Except Misfit Unit
  | [] => (s, .ok ())
  | (source, aliasName) :: rest =>
    if source.kind = .table then
      match s.takeTable source aliasName with
      | .ok s => takeSources s rest
      | .error e => (s, .error e)
    else takeSources s rest

/-- The scope of a statement, as far as its tables are known, and whether all are. -/
def gather (catalog : Catalog) (statement : Tree ι) : Scope × Except Misfit Unit :=
  (empty catalog).takeSources (sources statement)

/-- The scope of a statement. -/
def ofStatement (catalog : Catalog) (statement : Tree ι) : Except Misfit Scope :=
  let (scope, result) := gather catalog statement
  result.map fun () => scope

/-! ## Finding columns -/

/-- The column of the given name in the table with the given reference. -/
def columnOf? (reference : String) (table : Catalog.Table) (name : String) : Option Resolution :=
  (table.column? name).map (⟨reference, table, ·⟩)

/-- Every column of the given name, one for each table at most. -/
def candidates (s : Scope) (name : String) : List Resolution :=
  s.tables.entries.filterMap fun (reference, table) => columnOf? reference table name

/-- The column that a name stands for. -/
def resolveName (s : Scope) (c : ColumnName) : Except Fault Resolution :=
  match c.tableText? with
  | some reference =>
    match s.table? reference with
    | none => .error (.unknownTable reference)
    | some table =>
      match columnOf? reference table c.name with
      | some r => .ok r
      | none => .error (.unknownColumn (some reference) c.name)
  | none =>
    match s.candidates c.name with
    | [] => .error (.unknownColumn none c.name)
    | [r] => .ok r
    | _ => .error (.ambiguousColumn c.name)

/-- The column that a column node stands for. -/
def resolve (s : Scope) (t : Tree ι) : Except Misfit Resolution :=
  match t.node with
  | .column c => (s.resolveName c).mapError t.misfit
  | n => .error (t.misfit (.notAColumn n.kind))

/-! ## One-to-one equations -/

/-- Whether a column, given by reference and name, tells the rows of its table apart. -/
def isKey (s : Scope) (reference column : String) : Bool :=
  ((s.table? reference).bind (·.column? column)).any (·.isKey)

/-- Whether both columns tell the rows of their tables apart. -/
def relatesKeys (s : Scope) (leftTable leftColumn rightTable rightColumn : String) : Bool :=
  s.isKey leftTable leftColumn && s.isKey rightTable rightColumn

/-- Whether an equation between two columns pairs each row with at most one other. -/
def isOneToOne (s : Scope) (t : Tree ι) : Except Misfit Bool :=
  match t.node with
  | .operation o =>
    if o.isEquals && o.left.kind == .column && o.right.kind == .column then do
      let left ← s.resolve o.left
      let right ← s.resolve o.right
      return s.relatesKeys left.reference left.column.name right.reference right.column.name
    else .ok false
  | _ => .ok false

end Scope

end SqlFold
