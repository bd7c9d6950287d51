import SqlFold.Forest.Basic
import SqlFold.Tree.Equations

/-!
# The equations of a node

`Forest.equations` are the equations of the tree under a node, as `equations_eq` says. It reads no
more of the tree than the equations and the way to them.
-/

namespace SqlFold.Forest

variable (f : Forest)

/-- The kind of the node, where at least one level is looked at. -/
def kindWithin : Nat → NodeRef → NodeKind
  | 0, _ => .root
  | _ + 1, r => f.kind r

/-- The equations in the uppermost `n` levels under a node. -/
def equationsWithin : Nat → NodeRef → List (Tree NodeRef)
  | 0, _ => []
  | n + 1, r =>
    if (f.node r).isEquation (f.kindWithin n) then [f.treeWithin (n + 1) r]
    else (f.node r).conditions.flatMap (equationsWithin n)

/-- The kind of a node is the kind of the tree under it. -/
theorem kindWithin_eq (n : Nat) (r : NodeRef) : f.kindWithin n r = (f.treeWithin n r).kind := by
  cases n with
  | zero => rfl
  | succ n => exact (Node.kind_map _ _).symm

/-- The equations under a node are those of the tree under it. -/
theorem equationsWithin_eq (n : Nat) (r : NodeRef) :
    f.equationsWithin n r = (f.treeWithin n r).equations := by
  induction n generalizing r with
  | zero => rfl
  | succ n ih =>
    rw [equationsWithin, treeWithin, Tree.equations_mk, Node.isEquation_map, Node.conditions_map,
      List.flatMap_map, funext ih, funext (f.kindWithin_eq n)]
    rfl

/-- The equations that must hold for the condition or statement at a node. -/
def equations (r : NodeRef) : List (Tree NodeRef) := f.equationsWithin f.size r

/-- The equations of a node are those of the tree under it. -/
theorem equations_eq (r : NodeRef) : f.equations r = (f.tree r).equations :=
  f.equationsWithin_eq f.size r

end SqlFold.Forest
