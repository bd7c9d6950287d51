import SqlFold.Node.Basic

/-!
# The parts of a node in source order

`Node.parts` lists the tokens and sub-nodes of a layer in the order in which they stand in a
statement. A missing optional part is listed as `Part.absent` and the places between two lists whose
border would be lost are marked, so that the parts and the kind determine the layer.

* `Node.children` are the sub-nodes, `Node.tokens` the tokens;
* `Node.leadingToken?` is the first token at or below a layer.
-/

namespace SqlFold

/-- A part of a layer. -/
inductive Part (α : Type) where
  | token (token : Token)
  | child (child : α)
  | absent
  | mark (flag : Bool)

variable {α β : Type}

namespace Part

/-- An optional token. -/
def ofToken? : Option Token → Part α
  | some t => .token t
  | none => .absent

/-- An optional sub-node. -/
def ofChild? : Option α → Part α
  | some c => .child c
  | none => .absent

/-- The sub-node of a part. -/
def child? : Part α → Option α
  | .child c => some c
  | _ => none

/-- The token of a part. -/
def token? : Part α → Option Token
  | .token t => some t
  | _ => none

/-- Changes the sub-node. -/
def map (f : α → β) : Part α → Part β
  | .token t => .token t
  | .child c => .child (f c)
  | .absent => .absent
  | .mark b => .mark b

@[simp] theorem map_token (f : α → β) (t : Token) : (Part.token t).map f = .token t := rfl

@[simp] theorem map_child (f : α → β) (c : α) : (Part.child c).map f = .child (f c) := rfl

@[simp] theorem map_absent (f : α → β) : (Part.absent : Part α).map f = .absent := rfl

@[simp] theorem map_mark (f : α → β) (b : Bool) : (Part.mark b : Part α).map f = .mark b := rfl

@[simp] theorem map_ofToken? (f : α → β) (t : Option Token) :
    (ofToken? t).map f = ofToken? t := by
  cases t <;> rfl

@[simp] theorem map_ofChild? (f : α → β) (c : Option α) :
    (ofChild? c).map f = ofChild? (c.map f) := by
  cases c <;> rfl

@[simp] theorem child?_map (f : α → β) (p : Part α) : (p.map f).child? = p.child?.map f := by
  cases p <;> rfl

end Part

namespace Node

/-- The parts of a layer in source order. -/
def parts : Node α → List (Part α)
  | .leaf t => [.token t]
  | .column c => [.ofToken? c.schema, .ofToken? c.table, .token c.column]
  | .literal l => [.ofToken? l.sign, .token l.value]
  | .operation o => .child o.left :: o.operator.map .token ++ [.child o.right]
  | .membership o => [.child o.left, .ofToken? o.negation, .token o.keyword, .child o.list]
  | .conjunction c => c.parts.flatMap fun j => [.ofToken? j.operator, .child j.expression]
  | .bracket p => .token p.opening :: p.children.map .child ++ [.token p.closing]
  | .call c => [.token c.name, .mark c.distinct, .child c.arguments]
  | .allColumns a => [.ofToken? a.schema, .ofToken? a.table, .token a.star]
  | .table t => [.ofToken? t.schema, .token t.name]
  | .fromClause c => [.token c.keyword, .child c.source, .ofToken? c.aliasName]
  | .join j =>
    j.keywords.map .token ++ [.child j.source, .ofToken? j.aliasName]
      ++ (match j.condition with
        | some c => [.token c.keyword, .child c.expression]
        | none => [.absent])
  | .whereClause c => [.token c.keyword, .child c.expression]
  | .havingClause c => [.token c.keyword, .child c.expression]
  | .groupBy g => .token g.group :: .token g.byKeyword :: g.expressions.map .child
  | .orderBy o =>
    .token o.order :: .token o.byKeyword
      :: o.items.flatMap fun i => [.child i.expression, .ofToken? i.direction]
  | .select s =>
    [.token s.keyword, .ofToken? s.distinct]
      ++ (s.items.flatMap fun i => [.child i.expression, .ofToken? i.aliasName])
      ++ [.mark false, .ofChild? s.source] ++ s.joins.map .child
      ++ [.mark true, .ofChild? s.filter, .ofChild? s.grouping, .ofChild? s.having,
        .ofChild? s.ordering]
  | .update u =>
    [.token u.keyword, .child u.table, .ofToken? u.aliasName] ++ u.joins.map .child
      ++ .token u.setKeyword :: u.assignments.map .child
      ++ [.mark false, .ofChild? u.filter, .ofChild? u.ordering]
  | .root children => children.map .child

/-- The sub-nodes in source order. -/
def children (n : Node α) : List α := n.parts.filterMap Part.child?

/-- The tokens of the layer itself in source order. -/
def tokens (n : Node α) : List Token := n.parts.filterMap Part.token?

/-- The first token at or below a layer, where `below` gives the first token below a sub-node. -/
def leadingToken? (below : α → Option Token) (n : Node α) : Option Token :=
  n.parts.findSome? fun
    | .token t => some t
    | .child c => below c
    | _ => none

/-- Changing the sub-nodes changes them in the list of parts. -/
theorem parts_map (f : α → β) (n : Node α) : (n.map f).parts = n.parts.map (Part.map f) := by
  cases n with
  | join j =>
    rcases j with ⟨ks, s, a, _ | c⟩ <;> simp [parts, map, Restriction.map, Function.comp_def]
  | _ =>
    simp [parts, map, Conjunction.parts, Junct.map, SortKey.map, Projection.map, Restriction.map,
      List.map_flatMap, List.flatMap_map, Function.comp_def]

/-- Changing the sub-nodes changes their list one by one. -/
@[simp] theorem children_map (f : α → β) (n : Node α) : (n.map f).children = n.children.map f := by
  rw [children, children, parts_map, List.filterMap_map, List.map_filterMap]
  exact congrArg (List.filterMap · n.parts) (funext (Part.child?_map f))

/-- The first token is found below the changed sub-nodes. -/
theorem leadingToken?_map (below : β → Option Token) (f : α → β) (n : Node α) :
    (n.map f).leadingToken? below = n.leadingToken? (below ∘ f) := by
  rw [leadingToken?, leadingToken?, parts_map, List.findSome?_map]
  congr 1
  funext p
  cases p <;> rfl

end Node

end SqlFold
