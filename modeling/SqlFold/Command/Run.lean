import SqlFold.Catalog.Json
import SqlFold.Command.Console
import SqlFold.Command.Invocation
import SqlFold.Settings.Json
import SqlFold.Forest.Columns
import SqlFold.Forest.Equations
import SqlFold.Forest.Text
import SqlFold.Json.Parser
import SqlFold.Scope

/-!
# Running a command

`Invocation.run` carries a command line out on the files given to it. Files are read when they are
needed: first the settings, then the catalog, then the SQL.
-/

namespace SqlFold.Command

/-- What a command leaves behind. -/
structure Finished where
  code : Nat
  output : String
  errorOutput : String
  deriving DecidableEq

/-- The content of the files that a command can read. -/
abbrev Files : Type := String → Option String

variable (files : Files)

/-- The content of a file. -/
def readFile (path : String) : Act String :=
  match files path with
  | some content => return content
  | none => throw (.unreadable path)

/-- The value that a JSON file describes. -/
def readJson {β : Type} (ofJson? : Json → Option β) (path : String) : Act β := do
  match (Json.parse? (← readFile files path)).bind ofJson? with
  | some value => return value
  | none => throw (.malformed path)

/-- The SQL to work on. -/
def SqlSource.read : SqlSource → Act String
  | text sql => return sql
  | file path => readFile files path

/-- Parses a text and shows the steps. -/
def parse (dialect : Dialect) (sql : String) : Act Forest := do
  let trace := dialect.trace sql
  trace.tokenCount.forM fun count => Act.debug (.tokenized count)
  trace.events.forM fun event => (Notice.ofEvent? event).forM Act.debug
  let f ← Act.orFail trace.result
  Act.debug (.parsed f.statements.length)
  return f

/-- Prints the tokens of a text. -/
def printTokens (dialect : Dialect) (sql : String) : Act Unit := do
  let script ← Act.orFail (dialect.scan sql)
  Act.debug (.tokenized script.tokens.length)
  Act.print script.listing

/-- Prints the equations of a statement. -/
def printEquations (f : Forest) (statement : NodeRef) : Act Unit := do
  let equations := f.equations statement
  if equations.isEmpty then Act.inform ("No equations in " ++ (f.kind statement).name)
  equations.forM fun equation => Act.print equation.render

/-- A result of name resolution, with a failure as an error at its place. -/
def resolved {α : Type} (f : Forest) (result : Except Misfit α) : Act α :=
  Act.orFail (result.mapError fun m => .parsing m.fault ⟨f.source, m.position⟩)

/-- Prints the columns of a statement with the tables that they belong to. -/
def printColumns (catalog : Catalog) (f : Forest) (statement : NodeRef) : Act Unit := do
  if (f.kind statement).isStatement then
    let (scope, complete) := Scope.gather catalog (f.tree statement)
    scope.inclusions.forM fun i => Act.debug (.included i.name i.reference)
    resolved f complete
    (f.ownedColumns statement).forM fun column => do
      let resolution ← resolved f (scope.resolve column)
      Act.print
        (column.render ++ " -> " ++ resolution.table.name ++ "." ++ resolution.column.name)
  else Act.inform ("Skipping " ++ (f.kind statement).name)

/-- Carries a task out. -/
def Task.run (dialect : Dialect) (source : SqlSource) : Task → Act Unit
  | tokens => do printTokens dialect (← source.read files)
  | outline => do
    let f ← parse dialect (← source.read files)
    Act.print f.outlineStatements
  | format => do
    let f ← parse dialect (← source.read files)
    f.statements.forM fun statement => Act.print (f.render statement ++ ";")
  | equations => do
    let f ← parse dialect (← source.read files)
    f.statements.forM (printEquations f)
  | resolve path => do
    let catalog ← readJson files Catalog.ofJson? path
    let f ← parse dialect (← source.read files)
    f.statements.forM (printColumns catalog f)

/-- The settings to use. -/
def loadSettings : Option String → Act Settings
  | some path => readJson files Settings.ofJson? path
  | none => return .standard

namespace Invocation

/-- Carries a command line out. -/
def act (i : Invocation) : Act Unit := do
  let dialect := (← loadSettings files i.config).dialect
  Act.debug (.dialectReady dialect.folding.rules.length)
  i.task.run files dialect i.source

/-- Carries a command line out and tells what is left. -/
def run (i : Invocation) : Finished :=
  match i.act files ⟨i.verbose, ""⟩ with
  | .ok () console => ⟨0, console.output, ""⟩
  | .error failure console => ⟨1, console.output, failure.text⟩

/-- The files that a command line names. -/
def paths (i : Invocation) : List String :=
  let catalog :=
    match i.task with
    | .resolve path => [path]
    | _ => []
  let source :=
    match i.source with
    | .file path => [path]
    | .text _ => []
  i.config.toList ++ catalog ++ source

end Invocation

end SqlFold.Command
