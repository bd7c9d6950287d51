import SqlFold.Settings
import SqlFold.Json.Basic

/-!
# Settings as JSON

Settings are a record with the optional fields `keywords`, an object from words to token kinds, and
`max_passes`, a number of 64 bits. A token kind is given by its name or by an object whose only
field has that name and the value null.
-/

namespace SqlFold.Settings

/-- The first number that is too large for 64 bits. -/
def wordLimit : Nat := 0x10000000000000000

/-- A number of 64 bits. -/
def wordOfJson? (j : Json) : Option Nat := j.nat?.filter (· < wordLimit)

/-- The token kind that a JSON value names. -/
def kindOfJson? : Json → Option TokenKind
  | .string name | .object [(name, .null)] => TokenKind.ofName? name
  | _ => none

/-- Words with their kinds. -/
def keywordsOfJson? (j : Json) : Option (Directory TokenKind) := do
  let fields ← j.object?
  let entries ← fields.mapM fun (word, kind) => return (word, ← kindOfJson? kind)
  return .ofList entries

/-- The settings that a JSON value describes. -/
def ofJson? (j : Json) : Option Settings := do
  let fields ← j.record? ["keywords", "max_passes"]
  let keywords ← Json.optional fields "keywords" .empty keywordsOfJson?
  let sweepLimit ← Json.optional fields "max_passes" standard.sweepLimit wordOfJson?
  return ⟨keywords, sweepLimit⟩

/-- The settings with every field written out. -/
def toJson (s : Settings) : Json :=
  let words := s.keywords.entries.map fun (word, kind) => (word, Json.string kind.name)
  .object [("keywords", .object words), ("max_passes", .nat s.sweepLimit)]

end SqlFold.Settings
