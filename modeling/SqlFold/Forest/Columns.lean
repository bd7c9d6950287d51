import SqlFold.Forest.Basic

/-!
# The columns of a statement

A column belongs to the nearest statement above it, so the columns of a subquery are not those of
the statement around it.
-/

namespace SqlFold.Forest

variable (f : Forest)

/-- The nearest statement above a node. -/
def owner? (r : NodeRef) : Option NodeRef := (f.ancestors r).find? fun a => (f.kind a).isStatement

/-- The columns below a statement that belong to it, in source order. -/
def ownedColumns (statement : NodeRef) : List (Tree NodeRef) :=
  (f.tree statement).subtrees.filter fun t =>
    t.kind == .column && f.owner? t.tag == some statement

end SqlFold.Forest
