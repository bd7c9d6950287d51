import SqlFold.Tree.Basic

/-!
# Equations that must hold

`Tree.equations` collects, in source order, the `=` operations between columns and literals that
must all hold for a condition to be true. It descends through

* conjunctions all of whose operators are `AND`;
* brackets around a single node;
* `WHERE`, `HAVING` and `ON` conditions;
* the joins and the `WHERE` of a `SELECT`.

A conjunction with an `OR` contributes nothing. `Node.isEquation` and `Node.conditions` say this for
one layer.
-/

namespace SqlFold

variable {α β ι : Type}

/-- Whether a node of this kind can be a side of an equation. -/
def NodeKind.isTerm (kind : NodeKind) : Bool := kind == .column || kind == .literal

/-- Changing the sub-nodes does not change the joining operators. -/
theorem Conjunction.allAnd_map (f : α → β) (c : Conjunction α) :
    (Conjunction.mk (c.first.map f) (c.second.map f) (c.rest.map (·.map f))).allAnd = c.allAnd := by
  simp [allAnd, parts, Junct.map, Junct.wordKind?, Function.comp_def]

namespace Node

/-- Whether a layer is an equation between columns and literals, where `kindOf` gives the kinds of
its sub-nodes. -/
def isEquation (kindOf : α → NodeKind) : Node α → Bool
  | .operation o => o.isEquals && (kindOf o.left).isTerm && (kindOf o.right).isTerm
  | _ => false

/-- The sub-nodes that must all be true where a layer is. -/
def conditions : Node α → List α
  | .conjunction c => if c.allAnd then c.parts.map (·.expression) else []
  | .bracket ⟨_, _, [single]⟩ => [single]
  | .whereClause c | .havingClause c => [c.expression]
  | .join ⟨_, _, _, some c⟩ => if c.keyword.kind = .onKw then [c.expression] else []
  | .select s => s.joins ++ s.filter.toList
  | _ => []

/-- Changing the sub-nodes changes the kinds that are looked at. -/
theorem isEquation_map (kindOf : β → NodeKind) (f : α → β) (n : Node α) :
    (n.map f).isEquation kindOf = n.isEquation (kindOf ∘ f) := by
  cases n <;> rfl

/-- Changing the sub-nodes changes the conditions one by one. -/
theorem conditions_map (f : α → β) (n : Node α) : (n.map f).conditions = n.conditions.map f := by
  cases n with
  | conjunction c =>
    simp only [map, conditions, Conjunction.allAnd_map]
    split <;> simp [Conjunction.parts, Junct.map]
  | bracket p => rcases p with ⟨_, _, _ | ⟨_, _ | _⟩⟩ <;> rfl
  | join j =>
    rcases j with ⟨_, _, _, _ | c⟩
    · rfl
    · simp only [map, conditions, Option.map_some, Restriction.map]
      split <;> rfl
  | select s => rcases s with ⟨_, _, _, _, _, _ | _, _, _, _⟩ <;> simp [map, conditions]
  | _ => rfl

end Node

namespace Tree

/-- The equations that must hold for a condition or statement. -/
def equations : Tree ι → List (Tree ι) :=
  fold fun tag n =>
    if n.isEquation (·.1.kind) then [mk tag (n.map Prod.fst)] else n.conditions.flatMap Prod.snd

/-- A tree is an equation or passes the equations of its conditions on. -/
theorem equations_mk (tag : ι) (n : Node (Tree ι)) :
    (mk tag n).equations =
      if n.isEquation kind then [mk tag n] else n.conditions.flatMap equations := by
  simp [equations, fold_mk, Node.isEquation_map, Node.conditions_map, Node.map_map,
    Function.comp_def, List.flatMap_map]

end Tree

end SqlFold
