import SqlFold.Fault
import SqlFold.Rule.Kind

/-!
# What a rule sees and what it answers

A grammar rule looks at one child of a branch between its siblings, a `Focus`. It answers with

* nothing, if its pattern does not stand there;
* a `Fold`: a new node in the place of a run of siblings around the focus;
* an `Objection`: a sibling and what is wrong with it.

Rules work on siblings of any type `α` that can be viewed as nodes, so the same rule runs on
references into a store and on trees.
-/

namespace SqlFold

/-- A child of a branch between its siblings. -/
structure Focus (α : Type) where
  /-- The siblings before, nearest first. -/
  left : List α
  here : α
  /-- The siblings after, nearest first. -/
  right : List α

/-- Where a sub-node of a folded node comes from. -/
inductive Origin (α : Type) where
  /-- One of the siblings that the fold takes. -/
  | sibling (child : α)
  /-- A table, which the fold makes from a column name. -/
  | newTable (name : TableName)

/-- A node that takes the place of a run of siblings. -/
structure Fold (α : Type) where
  /-- The siblings that stay before the node, nearest first. -/
  left : List α
  node : Node (Origin α)
  /-- The siblings that stay after the node, nearest first. -/
  right : List α

/-- A sibling with what is wrong with it. -/
structure Objection (α : Type) where
  culprit : α
  fault : Fault

/-- Values that are read from siblings unless one of them is objected to. -/
abbrev Checked (α : Type) : Type → Type := Except (Objection α)

namespace Rule

variable {α : Type} (view : α → Node α)

/-- The answer of a rule whose pattern does not stand at the focus. -/
def decline : Checked α (Option (Fold α)) := .ok none

/-- The answer that puts `node` in the place of the siblings between `left` and `right`. -/
def fold (left : List α) (node : Node (Origin α)) (right : List α) : Checked α (Option (Fold α)) :=
  .ok (some ⟨left, node, right⟩)

/-- The complaint about a sibling. -/
def object {β : Type} (culprit : α) (fault : Fault) : Checked α β :=
  .error ⟨culprit, fault⟩

/-- The complaint that something is missing after a sibling. -/
def missingAfter {β : Type} (culprit : α) (wanted : Wanted) : Checked α β :=
  object culprit (.expected wanted (some (view culprit).mention) none)

/-- The complaint that a sibling stands in the place of something else. -/
def misplaced {β : Type} (culprit : α) (wanted : Wanted) : Checked α β :=
  object culprit (.expected wanted none (some (view culprit).mention))

/-- Whether a sibling is a leaf of the given kind. -/
def leafIs (kind : TokenKind) (a : α) : Bool := (view a).tokenKind? == some kind

/-- The token of a leaf of the given kind. -/
def leaf? (kind : TokenKind) (a : α) : Option Token := (view a).token?.filter (·.kind == kind)

/-- The token of a leaf whose kind is of the given sort. -/
def leafOf? (sort : TokenKind → Bool) (a : α) : Option Token :=
  (view a).token?.filter fun t => sort t.kind

/-- Whether a sibling can be an operand. -/
def isOperand (a : α) : Bool := (view a).isExpression

/-- Whether a sibling is a node of the given kind. -/
def isNode (kind : NodeKind) (a : α) : Bool := (view a).kind == kind

/-- The token of a leading leaf of the given kind, and the siblings after it. -/
def takeLeaf? (kind : TokenKind) : List α → Option (Token × List α)
  | [] => none
  | a :: rest => (leaf? view kind a).map (·, rest)

/-- A leading node of the given kind, if there is one, and the siblings after it. -/
def takeNode (kind : NodeKind) : List α → Option α × List α
  | [] => (none, [])
  | a :: rest => if isNode view kind a then (some a, rest) else (none, a :: rest)

/-- The leading nodes of the given kind, and the siblings after them. -/
def takeNodes (kind : NodeKind) (siblings : List α) : List α × List α :=
  siblings.span (isNode view kind)

/-- Whether nothing but a semicolon may follow: at the end of the branch or before a semicolon. -/
def endsStatement : List α → Bool
  | [] => true
  | a :: _ => leafIs view .semicolon a

end Rule

end SqlFold
