import SqlFold.Folding.Event
import SqlFold.Error
import SqlFold.Text.Shown

/-!
# What a command prints

A command writes results and notices to its output and, when it fails, the reason to its
error output. Notices of the first level are always shown, those of the second only on demand.
-/

namespace SqlFold.Command

/-- A failure that ends a command. -/
inductive Failure where
  /-- A file is missing. -/
  | unreadable (path : String)
  /-- A file does not hold what it should. -/
  | malformed (path : String)
  /-- The SQL is at fault, or the limits set for it. -/
  | error (error : Error)

namespace Failure

/-- The cause behind a failure, where there is one that its wording does not tell alone. -/
def cause? : Failure → Option String
  | unreadable _ => some "No such file or directory (os error 2)"
  | malformed _ => some "invalid JSON"
  | error (.violation v) => some v.message
  | error _ => none

/-- The wording of a failure. -/
def message : Failure → String
  | unreadable path => "reading " ++ path
  | malformed path => "parsing " ++ path
  | error e => e.message

/-- The drawing of the place of a failure. -/
def drawing? : Failure → Option String
  | error e => e.drawing?
  | _ => none

/-- What is written about a failure. -/
def text (f : Failure) : String :=
  let drawn := (f.drawing?.map (· ++ "\n")).getD ""
  let cause := (f.cause?.map fun c => "\n\nCaused by:\n    " ++ c).getD ""
  drawn ++ "Error: " ++ f.message ++ cause ++ "\n"

end Failure

/-- A value in a notice. -/
inductive NoticeValue where
  | nat (n : Nat)
  | text (s : String)

/-- A value as it is shown: a number as it is, a text between quotes. -/
def NoticeValue.render : NoticeValue → String
  | nat n => toString n
  | text s => Text.Shown.enclose s

/-- Something that a command tells about its work. -/
structure Notice where
  text : String
  values : List (String × NoticeValue)

namespace Notice

/-- The number of rules of the dialect. -/
def dialectReady (rules : Nat) : Notice := ⟨"Parser ready", [("rules", .nat rules)]⟩

/-- The number of tokens of a text. -/
def tokenized (tokens : Nat) : Notice := ⟨"Tokenized SQL", [("tokens", .nat tokens)]⟩

/-- The number of statements of a text. -/
def parsed (statements : Nat) : Notice := ⟨"Parsed SQL", [("statements", .nat statements)]⟩

/-- A table taken into a scope. -/
def included (table reference : String) : Notice :=
  ⟨"Included table", [("table", .text table), ("reference", .text reference)]⟩

/-- A fixpoint that a rule reached; calls are not shown. -/
def ofEvent? : Event → Option Notice
  | .called _ => none
  | .stabilized rule sweeps children =>
    some ⟨"Mutator reached fixpoint",
      [("mutator", .text rule.name), ("passes", .nat sweeps), ("children", .nat children)]⟩

/-- The line of a notice at the given level. -/
def line (level : String) (n : Notice) : String :=
  " ".intercalate (level :: n.text :: n.values.map fun (name, value) => name ++ "=" ++ value.render)

end Notice

/-- What was printed so far. -/
structure Console where
  verbose : Bool
  output : String

/-- A part of a command. What it printed before a failure stays. -/
abbrev Act (α : Type) : Type := EStateM Failure Console α

namespace Act

/-- Prints a line. -/
def print (line : String) : Act Unit :=
  modify fun c => { c with output := c.output ++ line ++ "\n" }

/-- Prints a notice of the first level. -/
def inform (text : String) : Act Unit := print (Notice.line " INFO" ⟨text, []⟩)

/-- Prints a notice of the second level on demand. -/
def debug (n : Notice) : Act Unit := do if (← get).verbose then print (n.line "DEBUG")

/-- Goes on with a result or fails with its error. -/
def orFail {α : Type} : Except Error α → Act α
  | .ok a => return a
  | .error e => throw (.error e)

end Act

end SqlFold.Command
