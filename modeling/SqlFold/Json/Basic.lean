/-!
# JSON values

Natural numbers are told apart from all other numbers, which are kept as they are written. The
fields of an object are kept in the order in which they are written.

`Json.record?` reads the fields of a record with known names, `Json.optional` one of them.
-/

namespace SqlFold

/-- A JSON value. -/
inductive Json where
  | null
  | bool (value : Bool)
  | nat (value : Nat)
  /-- A number with a sign, a fraction or an exponent. -/
  | numeral (text : String)
  | string (value : String)
  | array (items : List Json)
  | object (fields : List (String × Json))
  /-- A string that holds half of a surrogate pair, or an object with such a name. It is well formed
  and can be passed over, but nothing can be read from it. -/
  | garbled
  deriving Inhabited

namespace Json

/-- The truth value. -/
def bool? : Json → Option Bool
  | bool b => some b
  | _ => none

/-- The natural number. -/
def nat? : Json → Option Nat
  | nat n => some n
  | _ => none

/-- The text. -/
def string? : Json → Option String
  | string s => some s
  | _ => none

/-- The items of an array. -/
def array? : Json → Option (List Json)
  | array items => some items
  | _ => none

/-- The fields of an object. -/
def object? : Json → Option (List (String × Json))
  | object fields => some fields
  | _ => none

/-- The value of the last field of the given name. -/
def lookup (name : String) (fields : List (String × Json)) : Option Json :=
  fields.reverse.lookup name

/-- The value of a field of an object. -/
def field? (j : Json) (name : String) : Option Json := j.object?.bind (lookup name)

/-- The fields of a record with the given names. A record is an object, whose other fields do not
matter and where none of the names comes twice, or an array of its first fields in order. -/
def record? (names : List String) : Json → Option (List (String × Json))
  | array items => if items.length ≤ names.length then some (names.zip items) else none
  | object fields =>
    let known := fields.filter (·.1 ∈ names)
    if (known.map Prod.fst).Nodup then some known else none
  | _ => none

/-- A field that may be missing, read by `read?`; nothing where it is there and cannot be read. -/
def optional {β : Type} (fields : List (String × Json)) (name : String) (absent : β)
    (read? : Json → Option β) : Option β :=
  match lookup name fields with
  | some j => read? j
  | none => some absent

end Json

end SqlFold
