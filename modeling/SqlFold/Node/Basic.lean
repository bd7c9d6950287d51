import SqlFold.Node.Kind
import SqlFold.Token.Basic

/-!
# Nodes

A `Node α` is one layer of a statement: the tokens of the node and, in the places of its sub-nodes,
values of type `α`. With `α` a reference a node is what a store holds, with `α` a tree it is the top
of a tree.

* `Node.map` and `Node.mapM` change the sub-nodes in place;
* `Node.kind` is the kind of the layer;
* `Node.branch?` is the child list of the two kinds whose children can be spliced, brackets and the
  root.
-/

namespace SqlFold

/-- A column name with its qualifiers. -/
structure ColumnName where
  schema : Option Token
  table : Option Token
  column : Token
  deriving DecidableEq, Inhabited

/-- A string, number, `NULL` or prepared argument. -/
structure Literal where
  /-- A sign written before a number. -/
  sign : Option Token
  value : Token
  deriving DecidableEq, Inhabited

/-- `*` with its qualifiers. -/
structure AllColumns where
  schema : Option Token
  table : Option Token
  star : Token
  deriving DecidableEq, Inhabited

/-- A table name with its qualifier. -/
structure TableName where
  schema : Option Token
  name : Token
  deriving DecidableEq, Inhabited

/-- A binary operation. -/
structure Operation (α : Type) where
  left : α
  /-- One token, or two as in `IS NOT`. -/
  operator : List Token
  right : α

/-- `left [NOT] IN (list)`. -/
structure Membership (α : Type) where
  left : α
  negation : Option Token
  keyword : Token
  list : α

/-- An operand of a conjunction with the `AND` or `OR` before it. -/
structure Junct (α : Type) where
  operator : Option Token
  expression : α

/-- Two or more operands joined by `AND` and `OR`, which share one level. -/
structure Conjunction (α : Type) where
  first : Junct α
  second : Junct α
  rest : List (Junct α)

/-- A bracketed span. -/
structure Bracket (α : Type) where
  opening : Token
  closing : Token
  children : List α

/-- `name(arguments)`. -/
structure Call (α : Type) where
  name : Token
  /-- Whether the arguments start with `DISTINCT`. -/
  distinct : Bool
  arguments : α

/-- `FROM source [alias]`. -/
structure FromClause (α : Type) where
  keyword : Token
  /-- A table or a bracketed subquery. -/
  source : α
  aliasName : Option Token

/-- A keyword with the expression that it introduces. -/
structure Restriction (α : Type) where
  keyword : Token
  expression : α

/-- `[modifiers] JOIN source [alias] [ON expression | USING (columns)]`. -/
structure Join (α : Type) where
  /-- The modifiers and `JOIN` itself. -/
  keywords : List Token
  /-- A table or a bracketed subquery. -/
  source : α
  aliasName : Option Token
  condition : Option (Restriction α)

/-- `GROUP BY expression, ...`. -/
structure GroupBy (α : Type) where
  group : Token
  byKeyword : Token
  expressions : List α

/-- A sort key with its direction. -/
structure SortKey (α : Type) where
  expression : α
  direction : Option Token

/-- `ORDER BY item, ...`. -/
structure OrderBy (α : Type) where
  order : Token
  byKeyword : Token
  items : List (SortKey α)

/-- An entry of a select list with the name after `AS`. -/
structure Projection (α : Type) where
  expression : α
  aliasName : Option Token

/-- A whole `SELECT` statement. -/
structure Select (α : Type) where
  keyword : Token
  distinct : Option Token
  items : List (Projection α)
  source : Option α
  joins : List α
  filter : Option α
  grouping : Option α
  having : Option α
  ordering : Option α

/-- A whole `UPDATE` statement. -/
structure Update (α : Type) where
  keyword : Token
  table : α
  aliasName : Option Token
  joins : List α
  setKeyword : Token
  assignments : List α
  filter : Option α
  ordering : Option α

/-- One layer of a statement, with values of type `α` for the sub-nodes. -/
inductive Node (α : Type) where
  | leaf (token : Token)
  | column (name : ColumnName)
  | literal (value : Literal)
  | operation (operation : Operation α)
  | membership (operation : Membership α)
  | conjunction (conjunction : Conjunction α)
  | bracket (bracket : Bracket α)
  | call (call : Call α)
  | allColumns (selector : AllColumns)
  | table (name : TableName)
  | fromClause (clause : FromClause α)
  | join (join : Join α)
  | whereClause (condition : Restriction α)
  | havingClause (condition : Restriction α)
  | groupBy (clause : GroupBy α)
  | orderBy (clause : OrderBy α)
  | select (statement : Select α)
  | update (statement : Update α)
  | root (children : List α)

variable {α β γ : Type}

/-! ## Changing the sub-nodes -/

/-- Changes the operand. -/
def Junct.map (f : α → β) (j : Junct α) : Junct β := ⟨j.operator, f j.expression⟩

/-- Changes the sort key. -/
def SortKey.map (f : α → β) (i : SortKey α) : SortKey β := ⟨f i.expression, i.direction⟩

/-- Changes the selected expression. -/
def Projection.map (f : α → β) (i : Projection α) : Projection β := ⟨f i.expression, i.aliasName⟩

/-- Changes the expression. -/
def Restriction.map (f : α → β) (c : Restriction α) : Restriction β := ⟨c.keyword, f c.expression⟩

/-- Changes every sub-node. -/
def Node.map (f : α → β) : Node α → Node β
  | .leaf t => .leaf t
  | .column c => .column c
  | .literal l => .literal l
  | .operation o => .operation ⟨f o.left, o.operator, f o.right⟩
  | .membership o => .membership ⟨f o.left, o.negation, o.keyword, f o.list⟩
  | .conjunction c => .conjunction ⟨c.first.map f, c.second.map f, c.rest.map (·.map f)⟩
  | .bracket p => .bracket ⟨p.opening, p.closing, p.children.map f⟩
  | .call c => .call ⟨c.name, c.distinct, f c.arguments⟩
  | .allColumns a => .allColumns a
  | .table t => .table t
  | .fromClause c => .fromClause ⟨c.keyword, f c.source, c.aliasName⟩
  | .join j => .join ⟨j.keywords, f j.source, j.aliasName, j.condition.map (·.map f)⟩
  | .whereClause c => .whereClause (c.map f)
  | .havingClause c => .havingClause (c.map f)
  | .groupBy g => .groupBy ⟨g.group, g.byKeyword, g.expressions.map f⟩
  | .orderBy o => .orderBy ⟨o.order, o.byKeyword, o.items.map (·.map f)⟩
  | .select s =>
    .select ⟨s.keyword, s.distinct, s.items.map (·.map f), s.source.map f, s.joins.map f,
      s.filter.map f, s.grouping.map f, s.having.map f, s.ordering.map f⟩
  | .update u =>
    .update ⟨u.keyword, f u.table, u.aliasName, u.joins.map f, u.setKeyword, u.assignments.map f,
      u.filter.map f, u.ordering.map f⟩
  | .root children => .root (children.map f)

section Monadic

variable {m : Type → Type} [Monad m]

/-- Changes the operand with an effect. -/
def Junct.mapM (f : α → m β) (j : Junct α) : m (Junct β) :=
  return ⟨j.operator, ← f j.expression⟩

/-- Changes the sort key with an effect. -/
def SortKey.mapM (f : α → m β) (i : SortKey α) : m (SortKey β) :=
  return ⟨← f i.expression, i.direction⟩

/-- Changes the selected expression with an effect. -/
def Projection.mapM (f : α → m β) (i : Projection α) : m (Projection β) :=
  return ⟨← f i.expression, i.aliasName⟩

/-- Changes the expression with an effect. -/
def Restriction.mapM (f : α → m β) (c : Restriction α) : m (Restriction β) :=
  return ⟨c.keyword, ← f c.expression⟩

/-- Changes every sub-node with an effect, in source order. -/
def Node.mapM (f : α → m β) : Node α → m (Node β)
  | .leaf t => return .leaf t
  | .column c => return .column c
  | .literal l => return .literal l
  | .operation o => do
    let left ← f o.left
    return .operation ⟨left, o.operator, ← f o.right⟩
  | .membership o => do
    let left ← f o.left
    return .membership ⟨left, o.negation, o.keyword, ← f o.list⟩
  | .conjunction c => do
    let first ← c.first.mapM f
    let second ← c.second.mapM f
    return .conjunction ⟨first, second, ← c.rest.mapM (·.mapM f)⟩
  | .bracket p => return .bracket ⟨p.opening, p.closing, ← p.children.mapM f⟩
  | .call c => return .call ⟨c.name, c.distinct, ← f c.arguments⟩
  | .allColumns a => return .allColumns a
  | .table t => return .table t
  | .fromClause c => return .fromClause ⟨c.keyword, ← f c.source, c.aliasName⟩
  | .join j => do
    let source ← f j.source
    return .join ⟨j.keywords, source, j.aliasName, ← j.condition.mapM (·.mapM f)⟩
  | .whereClause c => return .whereClause (← c.mapM f)
  | .havingClause c => return .havingClause (← c.mapM f)
  | .groupBy g => return .groupBy ⟨g.group, g.byKeyword, ← g.expressions.mapM f⟩
  | .orderBy o => return .orderBy ⟨o.order, o.byKeyword, ← o.items.mapM (·.mapM f)⟩
  | .select s => do
    let items ← s.items.mapM (·.mapM f)
    let source ← s.source.mapM f
    let joins ← s.joins.mapM f
    let filter ← s.filter.mapM f
    let grouping ← s.grouping.mapM f
    let having ← s.having.mapM f
    let ordering ← s.ordering.mapM f
    return .select ⟨s.keyword, s.distinct, items, source, joins, filter, grouping, having, ordering⟩
  | .update u => do
    let table ← f u.table
    let joins ← u.joins.mapM f
    let assignments ← u.assignments.mapM f
    let filter ← u.filter.mapM f
    let ordering ← u.ordering.mapM f
    return .update
      ⟨u.keyword, table, u.aliasName, joins, u.setKeyword, assignments, filter, ordering⟩
  | .root children => return .root (← children.mapM f)

end Monadic

/-! ## Reading a layer -/

namespace Node

/-- The kind of the layer. -/
def kind : Node α → NodeKind
  | .leaf _ => .tokenLeaf
  | .column _ => .column
  | .literal _ => .literal
  | .operation _ => .operation
  | .membership _ => .membership
  | .conjunction _ => .conjunction
  | .bracket _ => .bracket
  | .call _ => .call
  | .allColumns _ => .allColumns
  | .table _ => .table
  | .fromClause _ => .fromClause
  | .join _ => .join
  | .whereClause _ => .whereClause
  | .havingClause _ => .havingClause
  | .groupBy _ => .groupBy
  | .orderBy _ => .orderBy
  | .select _ => .select
  | .update _ => .update
  | .root _ => .root

/-- The token of a leaf. -/
def token? : Node α → Option Token
  | .leaf t => some t
  | _ => none

/-- The token kind of a leaf. -/
def tokenKind? (n : Node α) : Option TokenKind := n.token?.map (·.kind)

/-- Whether the node can be an operand. -/
def isExpression (n : Node α) : Bool := n.kind.isExpression

/-- The children of a branch. -/
def branch? : Node α → Option (List α)
  | .bracket p => some p.children
  | .root children => some children
  | _ => none

/-- Whether the node is a branch. -/
def isBranch (n : Node α) : Bool := n.branch?.isSome

/-- A branch with other children; another node stays as it is. -/
def withBranch (children : List α) : Node α → Node α
  | .bracket p => .bracket { p with children }
  | .root _ => .root children
  | n => n

/-- Changing the sub-nodes keeps the kind. -/
@[simp] theorem kind_map (f : α → β) (n : Node α) : (n.map f).kind = n.kind := by cases n <;> rfl

/-- Changing the sub-nodes keeps the token of a leaf. -/
@[simp] theorem token?_map (f : α → β) (n : Node α) : (n.map f).token? = n.token? := by
  cases n <;> rfl

/-- Changing the sub-nodes changes the children of a branch one by one. -/
@[simp] theorem branch?_map (f : α → β) (n : Node α) :
    (n.map f).branch? = n.branch?.map (List.map f) := by
  cases n <;> rfl

/-- Changes compose. -/
theorem map_map (f : α → β) (g : β → γ) (n : Node α) : (n.map f).map g = n.map (g ∘ f) := by
  cases n <;>
    simp [map, Junct.map, SortKey.map, Projection.map, Restriction.map, Function.comp_def]

/-- Changing nothing changes nothing. -/
@[simp] theorem map_id' (n : Node α) : n.map (fun a => a) = n := by
  cases n <;> simp [map, Junct.map, SortKey.map, Projection.map, Restriction.map]

end Node

/-! ## Questions about single kinds -/

namespace ColumnName

/-- The column name without quotes. -/
def name (c : ColumnName) : String := c.column.unquoted

/-- The table qualifier without quotes. -/
def tableText? (c : ColumnName) : Option String := c.table.map (·.unquoted)

/-- The schema qualifier without quotes. -/
def schemaText? (c : ColumnName) : Option String := c.schema.map (·.unquoted)

end ColumnName

namespace TableName

/-- The table name without quotes. -/
def unquoted (t : TableName) : String := t.name.unquoted

/-- The schema qualifier without quotes. -/
def schemaText? (t : TableName) : Option String := t.schema.map (·.unquoted)

end TableName

namespace Literal

/-- Whether the literal is `NULL`. -/
def isNull (l : Literal) : Bool := l.value.kind == .nullKw

/-- Whether the literal is a placeholder. -/
def isPlaceholder (l : Literal) : Bool := l.value.kind == .preparedArgument

end Literal

namespace Operation

/-- The operator in upper case, its words separated by a space. -/
def operatorText (o : Operation α) : String := " ".intercalate (o.operator.map (·.word))

/-- Whether the operator is `=`. -/
def isEquals (o : Operation α) : Bool :=
  match o.operator with
  | [op] => op.lexeme == "="
  | _ => false

end Operation

/-- Whether the operation is `NOT IN`. -/
def Membership.negated (o : Membership α) : Bool := o.negation.isSome

/-- The kind of the joining operator. -/
def Junct.wordKind? (j : Junct α) : Option TokenKind := j.operator.map (·.kind)

namespace Conjunction

/-- The operands in source order. -/
def parts (c : Conjunction α) : List (Junct α) := c.first :: c.second :: c.rest

/-- A conjunction of the given operands, of which there must be two; otherwise their number. -/
def ofParts? : List (Junct α) → Except Nat (Conjunction α)
  | first :: second :: rest => .ok ⟨first, second, rest⟩
  | parts => .error parts.length

/-- Whether every joining operator is `AND`. -/
def allAnd (c : Conjunction α) : Bool :=
  (c.parts.filterMap Junct.wordKind?).all (· == .andKw)

end Conjunction

/-- The flavour of a join. -/
inductive JoinKind where
  | inner
  | left
  | right
  | full
  | cross
  | natural
  deriving DecidableEq

namespace JoinKind

/-- The SQL keyword. -/
def keyword : JoinKind → String
  | inner => "INNER"
  | left => "LEFT"
  | right => "RIGHT"
  | full => "FULL"
  | cross => "CROSS"
  | natural => "NATURAL"

/-- The flavour that a modifier stands for; `OUTER` alone stands for none. -/
def ofKind? : TokenKind → Option JoinKind
  | .innerKw => some inner
  | .leftKw => some left
  | .rightKw => some right
  | .fullKw => some full
  | .crossKw => some cross
  | .naturalKw => some natural
  | _ => none

end JoinKind

/-- The flavour of a join, which its first telling modifier names. -/
def Join.kind? (j : Join α) : Option JoinKind :=
  j.keywords.findSome? fun t => JoinKind.ofKind? t.kind

/-- A sort direction. -/
inductive Direction where
  | ascending
  | descending
  deriving DecidableEq

/-- The direction that a keyword stands for. -/
def Direction.ofKind? : TokenKind → Option Direction
  | .ascKw => some ascending
  | .descKw => some descending
  | _ => none

/-- The sort direction, where one is written. -/
def SortKey.direction? (i : SortKey α) : Option Direction :=
  i.direction.bind fun t => Direction.ofKind? t.kind

end SqlFold
