import SqlFold.Node.Parts

/-!
# Trees

A `Tree ι` is a node whose sub-nodes are trees, every node with a tag of type `ι`. The tag tells
nodes apart that look alike: in a tree read from a store it is the reference of the node.

* `Tree.fold` computes a value from the bottom up, where each step sees the sub-trees beside the
  values computed for them; `Tree.fold_mk` is its equation;
* `Tree.subtrees` lists a tree and everything below it, parents before children;
* `Tree.tokens` reads the tokens in source order, `Tree.position` is the place of the first.
-/

namespace SqlFold

/-- A node whose sub-nodes are trees. -/
inductive Tree (ι : Type) where
  | mk (tag : ι) (node : Node (Tree ι))

variable {ι β : Type}

namespace Tree

/-- The tag of the top node. -/
def tag : Tree ι → ι
  | mk tag _ => tag

/-- The top node. -/
def node : Tree ι → Node (Tree ι)
  | mk _ node => node

/-- The kind of the top node. -/
def kind (t : Tree ι) : NodeKind := t.node.kind

/-- The sub-trees right below the top. -/
def children (t : Tree ι) : List (Tree ι) := t.node.children

/-! ## Folding -/

variable (alg : ι → Node (Tree ι × β) → β)

mutual

/-- The value of a tree, computed from the bottom up. -/
def fold : Tree ι → β
  | mk tag node => alg tag (foldNode node)

/-- A layer of trees with the values of the trees. -/
def foldNode : Node (Tree ι) → Node (Tree ι × β)
  | .leaf t => .leaf t
  | .column c => .column c
  | .literal l => .literal l
  | .operation ⟨l, op, r⟩ => .operation ⟨(l, fold l), op, (r, fold r)⟩
  | .membership ⟨l, neg, kw, r⟩ => .membership ⟨(l, fold l), neg, kw, (r, fold r)⟩
  | .conjunction ⟨⟨o₁, e₁⟩, ⟨o₂, e₂⟩, rest⟩ =>
    .conjunction ⟨⟨o₁, (e₁, fold e₁)⟩, ⟨o₂, (e₂, fold e₂)⟩, foldJuncts rest⟩
  | .bracket ⟨o, c, children⟩ => .bracket ⟨o, c, foldList children⟩
  | .call ⟨n, d, args⟩ => .call ⟨n, d, (args, fold args)⟩
  | .allColumns a => .allColumns a
  | .table t => .table t
  | .fromClause ⟨kw, s, a⟩ => .fromClause ⟨kw, (s, fold s), a⟩
  | .join ⟨kws, s, a, c⟩ => .join ⟨kws, (s, fold s), a, foldRestriction c⟩
  | .whereClause ⟨kw, e⟩ => .whereClause ⟨kw, (e, fold e)⟩
  | .havingClause ⟨kw, e⟩ => .havingClause ⟨kw, (e, fold e)⟩
  | .groupBy ⟨g, b, es⟩ => .groupBy ⟨g, b, foldList es⟩
  | .orderBy ⟨o, b, is⟩ => .orderBy ⟨o, b, foldSortKeys is⟩
  | .select ⟨kw, d, is, s, js, f, g, h, o⟩ =>
    .select ⟨kw, d, foldProjections is, foldOption s, foldList js, foldOption f, foldOption g,
      foldOption h, foldOption o⟩
  | .update ⟨kw, t, a, js, s, as, f, o⟩ =>
    .update ⟨kw, (t, fold t), a, foldList js, s, foldList as, foldOption f, foldOption o⟩
  | .root children => .root (foldList children)

/-- Trees with their values. -/
def foldList : List (Tree ι) → List (Tree ι × β)
  | [] => []
  | t :: ts => (t, fold t) :: foldList ts

/-- An optional tree with its value. -/
def foldOption : Option (Tree ι) → Option (Tree ι × β)
  | none => none
  | some t => some (t, fold t)

/-- Operands with their values. -/
def foldJuncts : List (Junct (Tree ι)) → List (Junct (Tree ι × β))
  | [] => []
  | ⟨o, e⟩ :: js => ⟨o, (e, fold e)⟩ :: foldJuncts js

/-- Sort keys with their values. -/
def foldSortKeys : List (SortKey (Tree ι)) → List (SortKey (Tree ι × β))
  | [] => []
  | ⟨e, d⟩ :: is => ⟨(e, fold e), d⟩ :: foldSortKeys is

/-- Selected expressions with their values. -/
def foldProjections : List (Projection (Tree ι)) → List (Projection (Tree ι × β))
  | [] => []
  | ⟨e, a⟩ :: is => ⟨(e, fold e), a⟩ :: foldProjections is

/-- An optional condition with its value. -/
def foldRestriction : Option (Restriction (Tree ι)) → Option (Restriction (Tree ι × β))
  | none => none
  | some ⟨kw, e⟩ => some ⟨kw, (e, fold e)⟩

end

theorem foldList_eq_map (ts : List (Tree ι)) :
    foldList alg ts = ts.map fun t => (t, fold alg t) := by
  induction ts with
  | nil => rfl
  | cons t ts ih => simp [foldList, ih]

theorem foldOption_eq_map (t : Option (Tree ι)) :
    foldOption alg t = t.map fun t => (t, fold alg t) := by
  cases t <;> rfl

theorem foldJuncts_eq_map (js : List (Junct (Tree ι))) :
    foldJuncts alg js = js.map (·.map fun t => (t, fold alg t)) := by
  induction js with
  | nil => rfl
  | cons j js ih => simp [foldJuncts, ih, Junct.map]

theorem foldSortKeys_eq_map (is : List (SortKey (Tree ι))) :
    foldSortKeys alg is = is.map (·.map fun t => (t, fold alg t)) := by
  induction is with
  | nil => rfl
  | cons i is ih => simp [foldSortKeys, ih, SortKey.map]

theorem foldProjections_eq_map (is : List (Projection (Tree ι))) :
    foldProjections alg is = is.map (·.map fun t => (t, fold alg t)) := by
  induction is with
  | nil => rfl
  | cons i is ih => simp [foldProjections, ih, Projection.map]

theorem foldRestriction_eq_map (c : Option (Restriction (Tree ι))) :
    foldRestriction alg c = c.map (·.map fun t => (t, fold alg t)) := by
  cases c <;> rfl

/-- A layer is folded by folding its sub-trees. -/
theorem foldNode_eq_map (n : Node (Tree ι)) :
    foldNode alg n = n.map fun t => (t, fold alg t) := by
  cases n <;>
    simp [foldNode, Node.map, Junct.map, Restriction.map, foldList_eq_map, foldOption_eq_map,
      foldJuncts_eq_map, foldSortKeys_eq_map, foldProjections_eq_map, foldRestriction_eq_map]

/-- The equation of a fold: one step, applied to the sub-trees and their values. -/
theorem fold_mk (tag : ι) (n : Node (Tree ι)) :
    fold alg (mk tag n) = alg tag (n.map fun t => (t, fold alg t)) := by
  rw [fold, foldNode_eq_map]

/-! ## Reading a tree -/

/-- A tree and everything below it, parents before children and in source order. -/
def subtrees : Tree ι → List (Tree ι) :=
  fold fun tag n => mk tag (n.map Prod.fst) :: n.children.flatMap Prod.snd

/-- The tokens of a tree in source order. -/
def tokens : Tree ι → List Token :=
  fold fun _ n => n.parts.flatMap fun
    | .token t => [t]
    | .child c => c.2
    | _ => []

/-- The first token of a tree. -/
def leadingToken? : Tree ι → Option Token := fold fun _ n => n.leadingToken? Prod.snd

/-- The place of the first token, and the start of the text where there is none. -/
def position (t : Tree ι) : Text.Position := (t.leadingToken?.map (·.position)).getD .start

/-- The first token of a tree is that of its layer. -/
theorem leadingToken?_mk (tag : ι) (n : Node (Tree ι)) :
    (mk tag n).leadingToken? = n.leadingToken? leadingToken? := by
  rw [leadingToken?, fold_mk, Node.leadingToken?_map]
  rfl

/-- The equation of `subtrees`. -/
theorem subtrees_eq (t : Tree ι) : t.subtrees = t :: t.children.flatMap subtrees := by
  obtain ⟨tag, n⟩ := t
  simp [subtrees, fold_mk, Node.map_map, Function.comp_def, children, node, List.flatMap_map]

end Tree

end SqlFold
