import SqlFold.Proofs.Rows.Adjacent
import SqlFold.Proofs.Rows.Weight

/-!
# How often a rule has folded

`Tree.made rule` counts the folds of a rule that can be seen in a tree: the nodes that the rule makes,
down to the next brackets. A column may have become a table or an alias since it was folded, and it
is counted there too. Every fold adds one to the count of its own rule and nothing to the others
(`Rule.made_row`). So the number of sweeps that a run needs can be read off its result.
-/

namespace SqlFold

variable {α β : Type}

/-! ## Aliases -/

namespace Piece

/-- Whether a piece is a token that stood for a column before. -/
def isName : Piece α → Bool
  | .name _ => true
  | _ => false

@[simp] theorem isName_token (t : Token) : (token t : Piece α).isName = false := rfl

@[simp] theorem isName_name (t : Token) : (name t : Piece α).isName = true := rfl

@[simp] theorem isName_child (c : α) : (child c).isName = false := rfl

@[simp] theorem countP_isName_ofToken? (t : Option Token) :
    (ofToken? t : List (Piece α)).countP isName = 0 := by
  cases t <;> rfl

@[simp] theorem countP_isName_ofChild? (c : Option α) : (ofChild? c).countP isName = 0 := by
  cases c <;> rfl

@[simp] theorem countP_isName_map_token (ts : List Token) :
    (ts.map token : List (Piece α)).countP isName = 0 := by
  simp [List.countP_eq_zero]

@[simp] theorem countP_isName_map_child (cs : List α) : (cs.map child).countP isName = 0 := by
  simp [List.countP_eq_zero]

end Piece

/-- The number of aliases in a layer. -/
def Node.aliases : Node α → Nat
  | .fromClause c => c.aliasName.toList.length
  | .join j => j.aliasName.toList.length
  | .select s => (s.items.map fun i => i.aliasName.toList.length).sum
  | .update u => u.aliasName.toList.length
  | _ => 0

theorem Node.aliases_map (f : α → β) (n : Node α) : (n.map f).aliases = n.aliases := by
  cases n <;> simp [map, aliases, Projection.map, Function.comp_def]

theorem Dotted.countP_isName {names : List Token} {ps : List (Piece α)} (h : Dotted names ps) :
    ps.countP Piece.isName = 0 := by
  induction h with
  | single => rfl
  | cons _ _ ih => simpa using ih

theorem Aliased.countP_isName {required : Bool} {aliasName : Option Token} {ps : List (Piece α)}
    (named : Aliased required aliasName ps) :
    ps.countP Piece.isName = aliasName.toList.length := by
  cases named <;> rfl

theorem Listed.countP_isName {entry : β → List (Piece α) → Prop} {bs : List β} {ps : List (Piece α)}
    (entries : Listed entry bs ps) (count : β → Nat)
    (each : ∀ b qs, entry b qs → qs.countP Piece.isName = count b) :
    ps.countP Piece.isName = (bs.map count).sum := by
  induction entries with
  | single first => simp [each _ _ first]
  | cons first _ _ ih => simp [List.countP_append, each _ _ first, ih]

/-- The pieces of a layer that are names are its aliases. -/
theorem Node.Written.countP_isName {n : Node α} {ps : List (Piece α)} (written : n.Written ps) :
    ps.countP Piece.isName = n.aliases := by
  cases written with
  | column names => exact names.countP_isName
  | allColumns names => exact names.countP_isName
  | table names => exact names.countP_isName
  | conjunction c => simp [aliases, List.countP_flatMap, Function.comp_def]
  | fromClause named => simp [aliases, named.countP_isName]
  | @join j as named =>
    cases j.condition <;> simp [aliases, Restriction.pieces, named.countP_isName]
  | groupBy entries =>
    have none := entries.countP_isName (fun _ => 0) (by rintro _ _ rfl; rfl)
    simpa [aliases] using none
  | orderBy entries =>
    have none := entries.countP_isName (fun _ => 0) (by rintro _ _ rfl; simp)
    simpa [aliases] using none
  | select entries =>
    have named := entries.countP_isName (fun i => i.aliasName.toList.length)
      (by rintro _ _ ⟨named⟩; simp [named.countP_isName])
    simp [aliases, List.countP_append, named]
  | update named entries =>
    have none := entries.countP_isName (fun _ => 0) (by rintro _ _ rfl; rfl)
    simp [aliases, List.countP_append, named.countP_isName, none]
  | _ => simp [aliases, Restriction.pieces, List.countP_append]

/-! ## The folds that are seen in a tree -/

/-- The number of folds of a rule that are seen in a layer itself. -/
def Rule.madeAt (rule : Rule) (n : Node α) : Nat :=
  (if n.kind = rule.makes then 1 else 0) +
    if rule = .column then n.aliases + (if n.kind = .table then 1 else 0) else 0

theorem Rule.madeAt_map (rule : Rule) (f : α → β) (n : Node α) :
    rule.madeAt (n.map f) = rule.madeAt n := by
  simp [madeAt, Node.aliases_map]

namespace Tree

variable {ι : Type}

/-- The number of folds of a rule that are seen in a tree, down to the next brackets. -/
def made (rule : Rule) : Tree ι → Nat :=
  fold fun _ n => rule.madeAt n + if n.isBranch then 0 else (n.children.map Prod.snd).sum

theorem made_mk (rule : Rule) (tag : ι) (n : Node (Tree ι)) :
    (mk tag n).made rule =
      rule.madeAt n + if n.isBranch then 0 else (n.children.map (made rule)).sum := by
  rw [made, fold_mk, Rule.madeAt_map, Node.isBranch, Node.branch?_map, Option.isSome_map,
    Node.children_map, List.map_map]
  rfl

end Tree

namespace Row

/-- The number of folds of a rule that are seen in a row. -/
def made (rule : Rule) (row : Row) : Nat := (row.map (Tree.made rule)).sum

@[simp] theorem made_nil (rule : Rule) : made rule [] = 0 := rfl

@[simp] theorem made_cons (rule : Rule) (t : Bare) (row : Row) :
    made rule (t :: row) = t.made rule + made rule row := by
  simp [made]

@[simp] theorem made_append (rule : Rule) (row row' : Row) :
    made rule (row ++ row') = made rule row + made rule row' := by
  simp [made]

@[simp] theorem made_reverse (rule : Rule) (row : Row) : made rule row.reverse = made rule row := by
  simp [made, List.sum_reverse]

end Row

namespace Rule

variable {rule : Rule}

theorem makes_ne_tokenLeaf (rule : Rule) : NodeKind.tokenLeaf ≠ rule.makes := by
  cases rule <;> exact nofun

theorem makes_ne_table (rule : Rule) : NodeKind.table ≠ rule.makes := by
  cases rule <;> exact nofun

theorem makes_inj {rule' : Rule} : rule.makes = rule'.makes ↔ rule = rule' := by
  cases rule <;> cases rule' <;> decide

/-- No fold is seen in a leaf. -/
theorem made_of_leaf {t : Bare} (leaf : t.node.kind = .tokenLeaf) : t.made rule = 0 := by
  obtain ⟨tag, n⟩ := t
  rw [Tree.made_mk]
  cases n with
  | leaf => simp [madeAt, Node.kind, Node.aliases, makes_ne_tokenLeaf]
  | _ => cases leaf

/-- One fold is seen in a column. -/
theorem made_of_column {t : Bare} {c : ColumnName} (shown : t.node = .column c) :
    t.made rule = if rule = .column then 1 else 0 := by
  obtain ⟨tag, n⟩ := t
  obtain rfl : n = _ := shown
  have own : NodeKind.column = rule.makes ↔ rule = .column := by cases rule <;> decide
  simp [Tree.made_mk, madeAt, Node.kind, Node.aliases, own]

/-- A table was a column. -/
theorem made_of_table (name : TableName) :
    (Tree.mk () (.table name) : Bare).made rule = if rule = .column then 1 else 0 := by
  simp [Tree.made_mk, madeAt, Node.kind, Node.aliases, makes_ne_table]

/-- The folds that are seen in what the pieces of a node were made from. -/
theorem MatchesAll.made {ps : List (Piece (Origin Bare))} {as : Row}
    (matched : MatchesAll Tree.node ps as) :
    Row.made rule as = (if rule = .column then ps.countP Piece.isName else 0) +
      ((Piece.children ps).map fun o => (Origin.bare id o).made rule).sum := by
  induction matched with
  | nil => simp
  | @cons p a ps as made _ ih =>
    rw [Row.made_cons, ih, List.countP_cons]
    cases made with
    | leaf shown => simp [made_of_leaf (kind_of_leaf shown)]
    | name shown =>
      rw [made_of_column shown]
      split
      · simp
        omega
      · simp
    | sibling =>
      simp [Origin.bare]
      omega
    | table shown =>
      simp [Origin.bare, made_of_column shown, made_of_table]
      omega

/-- A fold is seen once, where its own rule is counted, and the earlier folds are seen as before. -/
theorem made_row {made : Rule} {left right : Row} {here : Bare} {fold : Fold Bare}
    (answer : made.apply Tree.node ⟨left, here, right⟩ = .ok (some fold)) (other : made ≠ .bracket)
    (rule : Rule) : Row.made rule fold.row =
      Row.made rule (left.reverse ++ here :: right) + if made = rule then 1 else 0 := by
  obtain ⟨back, ahead, covers⟩ := apply_covers answer
  obtain ⟨ps, written, matched⟩ := covers.written
  have kind : fold.node.kind = made.makes := apply_kind answer
  have taken : Row.made rule (back.reverse ++ here :: ahead) = _ := matched.made
  rw [written.children, written.countP_isName] at taken
  have branch : fold.node.isBranch = false := by
    by_contra branch
    exact other (eq_bracket_of_isBranch answer (Bool.eq_true_of_not_eq_false branch))
  have new : fold.tree.made rule = Row.made rule (back.reverse ++ here :: ahead) +
      if made = rule then 1 else 0 := by
    rw [Fold.tree, Tree.made_mk, Rule.madeAt_map, Node.isBranch, Node.branch?_map, Option.isSome_map,
      ← Node.isBranch, branch, Node.children_map, List.map_map, taken, Rule.madeAt, kind,
      if_neg (makes_ne_table made).symm]
    simp only [makes_inj, Bool.false_eq_true, if_false, Function.comp_def, Nat.add_zero]
    omega
  rw [Fold.row, show left = back ++ fold.left from covers.left,
    show right = ahead ++ fold.right from covers.right]
  simp only [Row.made_append, Row.made_cons, Row.made_reverse, List.reverse_append, new]
  omega

end Rule

end SqlFold
