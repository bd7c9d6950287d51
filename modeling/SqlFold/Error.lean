import SqlFold.Fault
import SqlFold.Rule.Kind
import SqlFold.Text.Drawing

/-!
# Errors

Four things can go wrong:

* **lexing**: no scanning rule takes the character at a place of the text;
* **standstill**: a word without characters keeps the scanner at a place of the text;
* **parsing**: the statement has a `Fault` at a place of the text;
* **violation**: a caller or a rule broke the terms of an operation, which is no fault of the text.

`Error.message` is the wording and `Error.drawing?` shows the place in the text.
-/

namespace SqlFold

open Text

/-- The life of a store of nodes: leaves are added first, children are spliced afterwards. -/
inductive Stage where
  | lexing
  | parsing
  deriving DecidableEq, Inhabited

/-- The name of a stage. -/
def Stage.name : Stage → String
  | lexing => "Lexing"
  | parsing => "Parsing"

/-- The operations that belong to one stage. -/
inductive StagedOperation where
  | pushLeaf
  | replace
  | substitute
  deriving DecidableEq

/-- The name of an operation in messages. -/
def StagedOperation.name : StagedOperation → String
  | pushLeaf => "add_token"
  | replace => "replace"
  | substitute => "substitute"

/-- The terms of an operation that were broken. -/
inductive Violation where
  | wrongStage (operation : StagedOperation) (actual : Stage)
  | outOfRange (offset length size : Nat)
  | notABranch (kind : NodeKind)
  | tooFewConjunctionParts (count : Nat)
  | notMergeable (left right : NodeKind)
  | detached (kind : NodeKind)
  | sweepLimitExceeded (rule : Rule) (sweeps : Nat)
  deriving DecidableEq

namespace Violation

/-- The wording of a violation. -/
def message : Violation → String
  | wrongStage operation actual =>
    s!"{operation.name} is not allowed in the {actual.name} phase"
  | outOfRange offset length size =>
    s!"cannot replace {length} children at offset {offset} of a branch with {size} children"
  | notABranch kind => s!"{kind.name} is not a branch"
  | tooFewConjunctionParts count => s!"a conjunction needs at least 2 parts, got {count}"
  | notMergeable left right => s!"cannot merge {left.name} with {right.name}"
  | detached kind => s!"{kind.name} is detached from the tree"
  | sweepLimitExceeded rule sweeps =>
    s!"mutator {rule.name} did not reach a fixpoint within {sweeps} passes"

end Violation

/-- A place of a text, together with the text. -/
structure Site where
  source : String
  position : Position
  deriving DecidableEq

/-- An error of the library. -/
inductive Error where
  | lexing (site : Site)
  | standstill (site : Site)
  | parsing (fault : Fault) (site : Site)
  | violation (violation : Violation)
  deriving DecidableEq

namespace Error

/-- The place of an error. -/
def site? : Error → Option Site
  | lexing site => some site
  | standstill site => some site
  | parsing _ site => some site
  | violation _ => none

/-- A text with the place that it is about. -/
def located (text : String) (p : Position) : String :=
  s!"{text} at line {p.line}, offset {p.column}"

/-- The wording of an error. -/
def message : Error → String
  | lexing site => located "unexpected character" site.position
  | standstill site => located "keyword without characters" site.position
  | parsing fault site => located fault.message site.position
  | violation v => "invariant violation: " ++ v.message

/-- The place of an error drawn in its text. -/
def drawing? (e : Error) : Option String := e.site?.map fun s => drawing s.source s.position

end Error

end SqlFold
