import SqlFold.Tree.Basic

/-!
# Outlines

The outline of a tree has one line per node, parents before children: the kind of the node behind
one `-` per level of depth.
-/

namespace SqlFold

variable {ι : Type}

namespace Tree

/-- The depth and kind of every node, parents before children. -/
def levels : Tree ι → List (Nat × NodeKind) :=
  fold fun _ n => (0, n.kind) :: n.children.flatMap fun c => c.2.map fun (d, k) => (d + 1, k)

/-- A line of an outline. -/
def outlineLine (depth : Nat) (kind : NodeKind) : String :=
  String.ofList (List.replicate depth '-') ++ kind.name

/-- The outline of a tree. -/
def outline (t : Tree ι) : String :=
  "\n".intercalate (t.levels.map fun (depth, kind) => outlineLine depth kind)

/-- The equation of `levels`. -/
theorem levels_mk (tag : ι) (n : Node (Tree ι)) :
    (mk tag n).levels =
      (0, n.kind) :: n.children.flatMap fun c => c.levels.map fun (d, k) => (d + 1, k) := by
  simp [levels, fold_mk, List.flatMap_map]

end Tree

end SqlFold
