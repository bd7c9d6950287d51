import SqlFold.Node.Basic
import SqlFold.Rule.Kind

/-!
# Events

What a folding did, in order: the calls of rules and the fixpoints that they reached.
-/

namespace SqlFold

/-- One call of a rule. -/
structure RuleCall where
  rule : Rule
  /-- The number of siblings before the child that the rule was called for. -/
  offset : Nat
  /-- The token kind of the child, if it is a leaf. -/
  leaf : Option TokenKind
  /-- The kind of the child. -/
  kind : NodeKind
  /-- The kind of the branch. -/
  branch : NodeKind
  /-- The number of children of the branch before the call. -/
  before : Nat
  /-- The number of children after the call, if it did not fail. -/
  after : Option Nat
  deriving DecidableEq

/-- Something that a folding did. -/
inductive Event where
  | called (call : RuleCall)
  /-- A rule changes a branch no more, found out in its last sweep. -/
  | stabilized (rule : Rule) (sweeps children : Nat)
  deriving DecidableEq

/-- The call, if the event is one. -/
def Event.call? : Event → Option RuleCall
  | called call => some call
  | stabilized .. => none

end SqlFold
