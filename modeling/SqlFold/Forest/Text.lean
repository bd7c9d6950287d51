import SqlFold.Forest.Basic
import SqlFold.Tree.Outline
import SqlFold.Tree.Render

/-!
# Reading a store as text

SQL and outlines of the trees in a store.
-/

namespace SqlFold.Forest

variable (f : Forest)

/-- The tree under a node as SQL. -/
def render (r : NodeRef) : String := (f.tree r).render

/-- The outline of the tree under a node. -/
def outline (r : NodeRef) : String := (f.tree r).outline

/-- The outlines of all statements. -/
def outlineStatements : String := "\n".intercalate (f.statements.map f.outline)

end SqlFold.Forest
