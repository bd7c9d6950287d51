import SqlFold.Catalog.Basic
import SqlFold.Json.Basic

/-!
# Catalogs as JSON

A catalog is a record with the optional fields `default_schema`, a name or null, and `schemas`, an
object from names to schemas. A schema is a record that holds `tables`, an object from keys to
tables. A table has a `name` and optional `columns`, a column a `name` and the optional flags
`nullable`, which is true where it is not given, and `unique`, which is false.
-/

namespace SqlFold.Catalog

/-- The column that a JSON value describes. -/
def Column.ofJson? (j : Json) : Option Column := do
  let fields ← j.record? ["name", "nullable", "unique"]
  let name ← (Json.lookup "name" fields).bind Json.string?
  let nullable ← Json.optional fields "nullable" true Json.bool?
  let unique ← Json.optional fields "unique" false Json.bool?
  return ⟨name, nullable, unique⟩

/-- The column with every field written out. -/
def Column.toJson (c : Column) : Json :=
  .object [("name", .string c.name), ("nullable", .bool c.nullable), ("unique", .bool c.unique)]

/-- The table that a JSON value describes. -/
def Table.ofJson? (j : Json) : Option Table := do
  let fields ← j.record? ["name", "columns"]
  let name ← (Json.lookup "name" fields).bind Json.string?
  let columns ← Json.optional fields "columns" [] fun j => do (← j.array?).mapM Column.ofJson?
  return ⟨name, columns⟩

/-- The table with every field written out. -/
def Table.toJson (t : Table) : Json :=
  .object [("name", .string t.name), ("columns", .array (t.columns.map Column.toJson))]

/-- A directory of the values that the fields of an object describe. -/
def directoryOfJson? {β : Type} (read? : Json → Option β) (j : Json) : Option (Directory β) := do
  let fields ← j.object?
  let entries ← fields.mapM fun (name, value) => return (name, ← read? value)
  return .ofList entries

/-- A directory as an object. -/
def directoryToJson {β : Type} (write : β → Json) (d : Directory β) : Json :=
  .object (d.entries.map fun (name, value) => (name, write value))

/-- The schema that a JSON value describes. -/
def Schema.ofJson? (j : Json) : Option Schema := do
  let fields ← j.record? ["tables"]
  let tables ← Json.optional fields "tables" .empty (directoryOfJson? Table.ofJson?)
  return ⟨tables⟩

/-- The schema with every field written out. -/
def Schema.toJson (s : Schema) : Json :=
  .object [("tables", directoryToJson Table.toJson s.tables)]

/-- A name or null. -/
def nameOfJson? : Json → Option (Option String)
  | .null => some none
  | .string s => some (some s)
  | _ => none

/-- The catalog that a JSON value describes. -/
def ofJson? (j : Json) : Option Catalog := do
  let fields ← j.record? ["default_schema", "schemas"]
  let defaultSchema ← Json.optional fields "default_schema" none nameOfJson?
  let schemas ← Json.optional fields "schemas" .empty (directoryOfJson? Schema.ofJson?)
  return ⟨defaultSchema, schemas⟩

/-- The catalog with every field written out. -/
def toJson (c : Catalog) : Json :=
  .object [("default_schema", (c.defaultSchema.map Json.string).getD .null),
    ("schemas", directoryToJson Schema.toJson c.schemas)]

end SqlFold.Catalog
