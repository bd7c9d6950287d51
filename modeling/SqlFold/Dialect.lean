import SqlFold.Folding.Basic
import SqlFold.Forest.Edit
import SqlFold.Token.Script

/-!
# Dialects

A `Dialect` is a vocabulary with a folding: `Dialect.parse` cuts a text into tokens, makes a store
of leaves of them and runs the folding on its root. Spans that no rule knows stay as they are.

`Dialect.trace` gives also what happened on the way, for a text that fails as well.
-/

namespace SqlFold

/-- A vocabulary with a folding. -/
structure Dialect where
  vocabulary : Vocabulary
  folding : Folding

/-- What happened while a text was parsed. -/
structure ParseTrace where
  result : Except Error Forest
  /-- The number of tokens, if the text could be cut into tokens. -/
  tokenCount : Option Nat
  /-- The fixpoints that the folding reached. -/
  events : List Event

namespace Dialect

/-- The dialect with the vocabulary of SQL, all rules and the standard limit. -/
def standard : Dialect := ⟨.standard, .standard Folding.standardLimit⟩

variable (dialect : Dialect)

/-- A failure of the scanner as an error. -/
def scanError (source : String) : ScanFailure → Error
  | .unmatched p => .lexing ⟨source, p⟩
  | .standstill p => .standstill ⟨source, p⟩

/-- The tokens of a text. -/
def scan (source : String) : Except Error Script :=
  (Script.ofText? dialect.vocabulary source).mapError (scanError source)

/-- Parses a text and tells what happened. -/
def trace (source : String) : ParseTrace :=
  match dialect.scan source with
  | .error e => ⟨.error e, none, []⟩
  | .ok script =>
    let run := dialect.folding.run Forest.root (.ofScript script)
    ⟨run.result.map fun () => run.forest, some script.tokens.length, run.events⟩

/-- Parses a text. -/
def parse (source : String) : Except Error Forest := (dialect.trace source).result

/-- Parses a text whose statements must all be of the kinds that are wanted. -/
def parseOnly (source : String) (wanted : List NodeKind) : Except Error Forest := do
  let f ← dialect.parse source
  match f.statements.find? fun r => f.kind r ∉ wanted with
  | some r => .error (f.locate r (.unexpectedStatement (f.kind r) wanted))
  | none => .ok f

end Dialect

end SqlFold
