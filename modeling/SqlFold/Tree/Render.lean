import SqlFold.Tree.Basic

/-!
# Trees as SQL text

`Tree.render` writes a tree as SQL. Words and names keep their spelling, single spaces stand between
them:

* a name and its qualifiers are joined by points, a sign stands right before its number;
* the items of a list are separated by a comma and a space, an alias in a select list follows `AS`;
* inside a branch `,` and `;` are attached to what precedes them;
* a conjunction that is itself an operand of a conjunction stands between brackets.
-/

namespace SqlFold

variable {ι : Type}

namespace Render

/-- The lexemes of optional and required tokens, joined by points. -/
def dotted (qualifiers : List (Option Token)) (name : Token) : String :=
  ".".intercalate ((qualifiers.filterMap id ++ [name]).map (·.lexeme))

/-- Texts separated by single spaces. -/
def spaced (texts : List String) : String := " ".intercalate texts

/-- The items of a list. -/
def listed (texts : List String) : String := ", ".intercalate texts

/-- The lexeme of an optional token, as a list of words. -/
def optional (t : Option Token) : List String := (t.map (·.lexeme)).toList

/-- A text with a label after it. -/
def labelled (text : String) (label : Option Token) : String := spaced (text :: optional label)

/-- Whether a child of a branch is attached to what precedes it. -/
def isGlued (t : Tree ι) : Bool :=
  match t.node.tokenKind? with
  | some .comma | some .semicolon => true
  | _ => false

/-- The children of a branch after the text written so far. -/
def sequenceAfter (written : String) : List (Tree ι × String) → String
  | [] => written
  | (t, text) :: rest =>
    let gap := if written.isEmpty || isGlued t then "" else " "
    sequenceAfter (written ++ gap ++ text) rest

/-- The children of a branch. -/
def sequence (children : List (Tree ι × String)) : String := sequenceAfter "" children

/-- An operand of a conjunction with the word before it. -/
def junct (j : Junct (Tree ι × String)) : String :=
  let word := (j.operator.map fun t => " " ++ t.lexeme ++ " ").getD ""
  let (t, text) := j.expression
  word ++ (if t.kind = .conjunction then "(" ++ text ++ ")" else text)

/-- A keyword and its expression. -/
def restriction (c : Restriction (Tree ι × String)) : String :=
  spaced [c.keyword.lexeme, c.expression.2]

/-- One entry of a select list. -/
def projection (i : Projection (Tree ι × String)) : String :=
  match i.aliasName with
  | some aliasName => i.expression.2 ++ " AS " ++ aliasName.lexeme
  | none => i.expression.2

/-- One layer, where the texts of the sub-trees are known. -/
def layer : Node (Tree ι × String) → String
  | .leaf t => t.lexeme
  | .column c => dotted [c.schema, c.table] c.column
  | .literal l => (l.sign.map (·.lexeme)).getD "" ++ l.value.lexeme
  | .operation o => spaced [o.left.2, spaced (o.operator.map (·.lexeme)), o.right.2]
  | .membership o => spaced ([o.left.2] ++ optional o.negation ++ [o.keyword.lexeme, o.list.2])
  | .conjunction c => String.join (c.parts.map junct)
  | .bracket p => p.opening.lexeme ++ sequence p.children ++ p.closing.lexeme
  | .call c => c.name.lexeme ++ c.arguments.2
  | .allColumns a => dotted [a.schema, a.table] a.star
  | .table t => dotted [t.schema] t.name
  | .fromClause c => labelled (spaced [c.keyword.lexeme, c.source.2]) c.aliasName
  | .join j =>
    let source := labelled (spaced [spaced (j.keywords.map (·.lexeme)), j.source.2]) j.aliasName
    spaced (source :: (j.condition.map restriction).toList)
  | .whereClause c => restriction c
  | .havingClause c => restriction c
  | .groupBy g => spaced [g.group.lexeme, g.byKeyword.lexeme, listed (g.expressions.map (·.2))]
  | .orderBy o =>
    spaced [o.order.lexeme, o.byKeyword.lexeme,
      listed (o.items.map fun i => labelled i.expression.2 i.direction)]
  | .select s =>
    let clauses := s.source.toList ++ s.joins ++ s.filter.toList ++ s.grouping.toList
      ++ s.having.toList ++ s.ordering.toList
    spaced ([s.keyword.lexeme] ++ optional s.distinct ++ [listed (s.items.map projection)]
      ++ clauses.map (·.2))
  | .update u =>
    let target := labelled (spaced [u.keyword.lexeme, u.table.2]) u.aliasName
    spaced ([target] ++ u.joins.map (·.2) ++ [u.setKeyword.lexeme]
      ++ [listed (u.assignments.map (·.2))] ++ (u.filter.toList ++ u.ordering.toList).map (·.2))
  | .root children => sequence children

end Render

/-- The tree as SQL. -/
def Tree.render : Tree ι → String := fold fun _ n => Render.layer n

/-- The text of a tree is its layer around the texts of its sub-trees. -/
theorem Tree.render_mk (tag : ι) (n : Node (Tree ι)) :
    (Tree.mk tag n).render = Render.layer (n.map fun t => (t, t.render)) := fold_mk _ _ _

end SqlFold
