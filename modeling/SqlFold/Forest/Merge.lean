import SqlFold.Forest.Edit

/-!
# Copies and merged clauses

* `Forest.plant` puts a tree into new records; `Forest.copy` does so with the tree under a node;
* `Forest.merge` adds a clause to another of the same kind.

`WHERE a` merged with `WHERE b` is `WHERE a AND b`, and likewise for `HAVING`; either condition may
be a conjunction, which then is one operand of the new one. The lists of `GROUP BY` clauses are put
one after the other. The second clause is copied and stays as it is.
-/

namespace SqlFold.Forest

variable {ι : Type}

/-- Puts a tree into new records, sub-trees first. -/
def plant : Tree ι → Edit NodeRef :=
  Tree.fold fun _ n => do insert (← n.mapM (·.2))

/-- Copies the tree under a node into new records. -/
def copy (r : NodeRef) : Edit NodeRef := do
  plant ((← get).tree r)

/-- The condition `a AND b` under the keyword of `a`, where the condition of `b` is a copy. -/
def mergedCondition (a b : Restriction NodeRef) (other : NodeRef) : Edit (Restriction NodeRef) := do
  let second ← copy b.expression
  let word : Token := ⟨.andKw, "AND", (← get).position other⟩
  let both ← insert (.conjunction ⟨⟨none, a.expression⟩, ⟨some word, second⟩, []⟩)
  return ⟨a.keyword, both⟩

/-- The clause that joins two clauses of one kind. -/
def mergedClause (this other : NodeRef) : Edit (Node NodeRef) := do
  let f ← get
  match f.node this, f.node other with
  | .whereClause a, .whereClause b => return .whereClause (← mergedCondition a b other)
  | .havingClause a, .havingClause b => return .havingClause (← mergedCondition a b other)
  | .groupBy a, .groupBy b =>
    return .groupBy { a with expressions := a.expressions ++ (← b.expressions.mapM copy) }
  | a, b => throw (.notMergeable a.kind b.kind)

/-- Merges the clause `other` into `this`. The merged clause takes the place of `this`, if `this`
has one. -/
def merge (this other : NodeRef) : Edit NodeRef := do
  let merged ← insert (← mergedClause this other)
  if ((← get).parent? this).isSome then substitute this merged
  return merged

end SqlFold.Forest
