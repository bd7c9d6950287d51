/-!
# Command lines

`Invocation.ofArgs?` reads the arguments of the command: options of the command itself, the task,
and the options and words of the task.

* A long option takes its value from behind `=` or from the next argument.
* Letters can share one hyphen. The first one that takes a value takes it from the letters behind
  it, where one `=` in between does not count, or from the next argument.
* An option stands once at most, and a value in an argument of its own starts with no hyphen unless
  it is only that.
* All arguments behind `--` are words.
-/

namespace SqlFold.Command

/-- Where the SQL comes from. -/
inductive SqlSource where
  | text (sql : String)
  | file (path : String)
  deriving DecidableEq

/-- What is to be done. -/
inductive Task where
  /-- Print the tokens. -/
  | tokens
  /-- Print the outline of every statement. -/
  | outline
  /-- Print every statement as SQL. -/
  | format
  /-- Print the equations that must hold in every statement. -/
  | equations
  /-- Print the columns of every statement with the tables of a catalog that they belong to. -/
  | resolve (catalog : String)
  deriving DecidableEq

/-- A command line. -/
structure Invocation where
  /-- The file with the settings. -/
  config : Option String
  /-- Whether the steps of the work are shown. -/
  verbose : Bool
  task : Task
  source : SqlSource
  deriving DecidableEq

namespace Invocation

/-! ## Options -/

/-- An option. -/
inductive Flag where
  /-- The file with the settings. -/
  | config
  /-- Show the steps of the work. -/
  | verbose
  /-- The file with the SQL. -/
  | file
  /-- The file with the catalog. -/
  | catalog
  deriving DecidableEq

namespace Flag

/-- The name behind two hyphens. -/
def name : Flag → String
  | config => "config"
  | verbose => "verbose"
  | file => "file"
  | catalog => "catalog"

/-- The letter behind one hyphen, if there is one. -/
def letter? : Flag → Option Char
  | config => some 'c'
  | verbose => some 'v'
  | file => some 'f'
  | catalog => none

/-- Whether the option takes a value, which is the path of a file. -/
def takesValue : Flag → Bool
  | verbose => false
  | _ => true

/-- The options that stand before the task. -/
def ofCommand : List Flag := [config, verbose]

/-- The options that stand behind the task. -/
def ofTask : List Flag := [file, catalog]

end Flag

/-- One argument. -/
inductive Argument where
  | word (text : String)
  | letters (letters : List Char)
  | long (name : String) (value : Option String)
  /-- Two hyphens alone. -/
  | separator

/-- The argument that a text is. -/
def Argument.ofString (text : String) : Argument :=
  match text.toList with
  | ['-', '-'] => .separator
  | '-' :: '-' :: rest =>
    let (name, behind) := rest.span (· != '=')
    .long (String.ofList name) (behind.tail?.map String.ofList)
  | '-' :: c :: rest => .letters (c :: rest)
  | _ => .word text

/-- The value among the letters behind an option. -/
def attachedValue? : List Char → Option String
  | [] => none
  | '=' :: value => some (String.ofList value)
  | value => some (String.ofList value)

/-- An option with the value that its argument holds for it. -/
abbrev Mention : Type := Flag × Option String

/-- The options that letters behind one hyphen name. -/
def mentionsOfLetters? (flags : List Flag) : List Char → Option (List Mention)
  | [] => some []
  | c :: rest => do
    let flag ← flags.find? (·.letter? == some c)
    if flag.takesValue then return [(flag, attachedValue? rest)]
    else return (flag, none) :: (← mentionsOfLetters? flags rest)

/-- The options that an argument names. -/
def Argument.mentions? (flags : List Flag) : Argument → Option (List Mention)
  | letters cs => mentionsOfLetters? flags cs
  | long name value => do
    let flag ← flags.find? (·.name == name)
    if value.isSome && !flag.takesValue then none else return [(flag, value)]
  | word _ | separator => none

/-! ## Reading arguments -/

/-- The options read so far, and the one that waits for its value. -/
structure Reading where
  given : List (Flag × String)
  waiting : Option Flag

namespace Reading

/-- Nothing is read yet. -/
def start : Reading := ⟨[], none⟩

/-- The value of an option; that of one without values is empty. -/
def value? (r : Reading) (flag : Flag) : Option String := r.given.lookup flag

/-- Whether an option was given. -/
def has (r : Reading) (flag : Flag) : Bool := (r.value? flag).isSome

/-- Notes an option with its value. No path is empty. -/
def give? (r : Reading) (flag : Flag) (value : String) : Option Reading :=
  if r.has flag || (flag.takesValue && value.isEmpty) then none
  else some ⟨(flag, value) :: r.given, none⟩

/-- Notes an option, which waits for its value if it takes one and has none. -/
def mention? (r : Reading) : Mention → Option Reading
  | (flag, some value) => r.give? flag value
  | (flag, none) => if flag.takesValue then some { r with waiting := flag } else r.give? flag ""

/-- Takes an argument that holds options or a value that is waited for. -/
def take? (flags : List Flag) (r : Reading) (argument : Argument) : Option Reading :=
  match r.waiting, argument with
  | some flag, .word value => r.give? flag value
  | some _, _ => none
  | none, argument => do (← argument.mentions? flags).foldlM mention? r

end Reading

/-- Reads the options up to the first word. Gives that word and the arguments behind it. -/
def readHead? (flags : List Flag) (r : Reading) :
    List String → Option (Reading × String × List String)
  | [] => none
  | arg :: rest =>
    match r.waiting, Argument.ofString arg with
    | none, .word text => some (r, text, rest)
    | _, argument => do readHead? flags (← r.take? flags argument) rest

/-- Reads options and words up to the end. -/
def readAll? (flags : List Flag) (r : Reading) : List String → Option (Reading × List String)
  | [] => if r.waiting.isSome then none else some (r, [])
  | arg :: rest =>
    match r.waiting, Argument.ofString arg with
    | none, .separator => some (r, rest)
    | none, .word text => do
      let (r, words) ← readAll? flags r rest
      return (r, text :: words)
    | _, argument => do readAll? flags (← r.take? flags argument) rest

/-! ## Command lines -/

/-- The task of the given name. Only one of them takes a catalog, and needs it. -/
def task? (name : String) (catalog : Option String) : Option Task :=
  match name, catalog with
  | "tokens", none => some .tokens
  | "ast", none => some .outline
  | "format", none => some .format
  | "equations", none => some .equations
  | "resolve", some catalog => some (.resolve catalog)
  | _, _ => none

/-- The source of the SQL: the only word or a file, but not both. -/
def source? (words : List String) (path : Option String) : Option SqlSource :=
  match words, path with
  | [sql], none => some (.text sql)
  | [], some path => some (.file path)
  | _, _ => none

/-- The command line that the arguments spell. -/
def ofArgs? (args : List String) : Option Invocation := do
  let (command, name, rest) ← readHead? Flag.ofCommand .start args
  let (options, words) ← readAll? Flag.ofTask .start rest
  let task ← task? name (options.value? .catalog)
  let source ← source? words (options.value? .file)
  return ⟨command.value? .config, command.has .verbose, task, source⟩

/-- A letter with a value ends a run of letters, and a value may look like a task. -/
example :
    ofArgs? ["-vc", "ast", "format", "a", "--"] = some ⟨some "ast", true, .format, .text "a"⟩ ∧
    ofArgs? ["-c==v", "ast", "-f=q"] = some ⟨some "=v", false, .outline, .file "q"⟩ := by
  decide +kernel

end Invocation

end SqlFold.Command
