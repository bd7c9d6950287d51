import SqlFold.Proofs.Rows.Wording

/-!
# Phrases folded again

A clause or a statement as it is rendered stands for a row again: `Layout.row` has a tree for every piece of
it, a column for a table and for an alias. In front of something that cannot belong to it (`Row.Stops`) the
rule on the phrase folds that row to the phrase (`Row.Folds`), and in a row that has such stretches in it the
rule comes to rest with every one of them folded (`Row.Turns`).
-/

namespace SqlFold

/-- The rules on clauses, in the order in which they run. -/
def Rule.clauseRules : List Rule := [.fromClause, .join, .whereClause, .havingClause, .groupBy, .orderBy]

namespace Row

variable {rule : Rule} {after row row' : Row}

/-! ## Folding from left to right -/

/-- A rule folds a stretch of a row to a tree. -/
def Folds (rule : Rule) (left taken : Row) (tree : Bare) (after : Row) : Prop :=
  ∃ here rest fold, taken = here :: rest ∧ rule.apply Tree.node ⟨left, here, rest ++ after⟩ = .ok (some fold) ∧
    fold.left = left ∧ fold.tree = tree ∧ fold.right = after

/-- A rule does not start at any tree of a row. -/
def Idle (rule : Rule) (row : Row) : Prop := ∀ t ∈ row, rule.startsAt t.node = false

/-- A rule declines in the front of a row in which it does not start. -/
theorem Idle.declinedBefore {left behind : Row} (idle : Idle rule left) :
    DeclinedBefore rule left.length (left.reverse ++ behind) := by
  intro l h r split few
  refine Rule.apply_of_not_startsAt (idle h ?_)
  have place : (left.reverse ++ behind)[l.length]? = some h := by
    rw [split, List.getElem?_append_right (by simp)]
    simp
  rw [List.getElem?_append_left (by simpa using few)] at place
  exact List.mem_reverse.mp (List.mem_of_getElem? place)

theorem Idle.declined {left : Row} (idle : Idle rule left) : Declined rule left.reverse := by
  intro l h r split
  refine Rule.apply_of_not_startsAt (idle h (List.mem_reverse.mp ?_))
  rw [split]
  simp

/-- A rule folds stretches of a row and starts nowhere else. -/
inductive Turns (rule : Rule) : Row → Row → Prop
  | nil : Turns rule [] []
  | pass {t : Bare} {row row' : Row} : rule.startsAt t.node = false → Turns rule row row' →
      Turns rule (t :: row) (t :: row')
  | fold {tree : Bare} {taken after row' : Row} : rule.startsAt tree.node = false →
      (∀ left, Idle rule left → Folds rule left taken tree after) → Turns rule after row' →
        Turns rule (taken ++ after) (tree :: row')

namespace Turns

/-- A rule passes a row in which it starts nowhere. -/
theorem passes (idle : Idle rule row) (turns : Turns rule after row') : Turns rule (row ++ after) (row ++ row') := by
  induction row with
  | nil => exact turns
  | cons t row ih =>
    obtain ⟨here, behind⟩ := List.forall_mem_cons.mp idle
    exact .pass here (ih behind)

/-- The rule comes to rest with the stretches folded. -/
theorem rests (turns : Turns rule row row') : Rests rule row row' := by
  have front : ∀ left, Idle rule left → Rests rule (left.reverse ++ row) (left.reverse ++ row') := ?_
  · exact front [] nofun
  induction turns with
  | nil =>
    intro left idle
    rw [List.append_nil]
    exact .rest idle.declined
  | @pass t row row' here _ ih =>
    intro left idle
    simpa using ih (t :: left) (List.forall_mem_cons.mpr ⟨here, idle⟩)
  | @fold tree taken after row' starts folds _ ih =>
    intro left idle
    obtain ⟨here, rest, fold, rfl, answer, left_eq, tree_eq, right_eq⟩ := folds left idle
    refine .fold idle.declinedBefore answer ?_
    rw [Fold.row, left_eq, tree_eq, right_eq]
    simpa using ih (tree :: left) (List.forall_mem_cons.mpr ⟨starts, idle⟩)

end Turns

end Row

/-! ## Rows of pieces -/

namespace Piece

/-- The tree that a piece stands for: names and tables are columns. -/
def bare : Piece Bare → Bare
  | .token t => .mk () (.leaf t)
  | .name t => .mk () (.column ⟨none, none, t⟩)
  | .child c =>
    match c.node with
    | .table n => .mk () (.column ⟨none, n.schema, n.name⟩)
    | _ => c

theorem bare_child {c : Bare} (other : c.kind ≠ .table) : bare (.child c) = c := by
  obtain ⟨⟨⟩, n⟩ := c
  cases n with
  | table => exact absurd rfl other
  | _ => rfl

/-- An expression stands for itself. -/
theorem bare_expression {e : Bare} (operand : Rule.isOperand Tree.node e = true) : bare (.child e) = e := by
  refine bare_child fun table => ?_
  rw [Rule.isOperand, Node.isExpression, show e.node.kind = .table from table] at operand
  cases operand

/-- A piece has the wording of the tree that it stands for. -/
theorem wording_bare (p : Piece Bare) : p.bare.wording = p.read Tree.wording := by
  cases p with
  | child c =>
    obtain ⟨⟨⟩, n⟩ := c
    cases n with
    | table n =>
      obtain ⟨_ | s, n⟩ := n <;> rfl
    | _ => rfl
  | _ => rfl

end Piece

namespace Layout

/-- The trees that pieces stand for. -/
def row (ps : Spaced Bare) : Row := ps.map fun p => p.2.bare

@[simp] theorem row_nil : row [] = [] := rfl

@[simp] theorem row_cons (p : Bool × Piece Bare) (ps : Spaced Bare) : row (p :: ps) = p.2.bare :: row ps := rfl

@[simp] theorem row_append (ps qs : Spaced Bare) : row (ps ++ qs) = row ps ++ row qs := List.map_append

@[simp] theorem bare_token (t : Token) : Piece.bare (.token t) = .mk () (.leaf t) := rfl

@[simp] theorem bare_name (t : Token) : Piece.bare (.name t) = .mk () (.column ⟨none, none, t⟩) := rfl

/-- A list starts with its first entry. -/
theorem listed_cons {α : Type} (space : Bool) (p : Piece α) (entry : Spaced α) (entries : List (Spaced α)) :
    ∃ more, listed (((space, p) :: entry) :: entries) = (space, p) :: more := by
  cases entries <;> exact ⟨_, rfl⟩

/-- The columns that aliases stand for. -/
def aliasRow (name : Option Token) : Row := name.toList.map fun t => .mk () (.column ⟨none, none, t⟩)

@[simp] theorem row_labelled (name : Option Token) : row (labelled name) = aliasRow name := by
  cases name <;> rfl

@[simp] theorem row_words (ts : List Token) : row (words ts) = Row.leaves ts := by
  cases ts <;> simp [words, loose, row, Row.leaves]

@[simp] theorem row_loose (ts : List Token) : row (loose ts) = Row.leaves ts := by
  simp [loose, row, Row.leaves]

/-- A layer has the wording of the row that it stands for. -/
theorem wording_row (n : Node Bare) : (row (n.layout Render.isGlued)).wording = (Tree.mk () n).wording := by
  rw [Tree.wording_mk, row, Row.wording, pieces, List.flatMap_map, List.flatMap_map]
  exact List.flatMap_congr fun p _ => Piece.wording_bare p.2

end Layout

namespace Row

open Layout

variable {rule : Rule} {left after : Row}

/-! ## Sources and aliases -/

/-- What cannot belong to a clause that ends before it. -/
def Stops (after : Row) : Prop :=
  ∀ t ∈ after.head?, Rule.bareName? Tree.node t = none ∧
    ∀ kind ∈ [TokenKind.asKw, .comma, .onKw, .usingKw], Rule.leafIs Tree.node kind t = false

theorem takeSource?_bare {c : Bare} (source : (Rule.glance Tree.node c).IsSource) (subquery : c.kind = .bracket → b = true)
    (rest : Row) : ∃ origin, Rule.takeSource? Tree.node b (Piece.bare (.child c) :: rest) = .ok (some (origin, rest)) ∧
      origin.bare id = c := by
  obtain ⟨⟨⟩, n⟩ := c
  rcases source with table | bracket
  · cases n with
    | table n => exact ⟨.newTable n, rfl, rfl⟩
    | _ => cases table
  · cases n with
    | bracket p =>
      rw [subquery rfl]
      exact ⟨.sibling (.mk () (.bracket p)), rfl, rfl⟩
    | _ => cases bracket

theorem takeAlias_bare (name : Option Token)
    (ends : ∀ t ∈ after.head?, Rule.bareName? Tree.node t = none ∧ Rule.leafIs Tree.node .asKw t = false) :
    Rule.takeAlias Tree.node true (aliasRow name ++ after) = .ok (name, after) := by
  cases name with
  | some t => rfl
  | none =>
    cases after with
    | nil => rfl
    | cons t after =>
      obtain ⟨noName, noWord⟩ := ends t rfl
      simp [aliasRow, Rule.takeAlias, noName, noWord]

theorem Stops.alias (stops : Stops after) :
    ∀ t ∈ after.head?, Rule.bareName? Tree.node t = none ∧ Rule.leafIs Tree.node .asKw t = false :=
  fun t first => ⟨(stops t first).1, (stops t first).2 _ (by decide)⟩

/-! ## Clauses -/

theorem leaf?_leaf {t : Token} {kind : TokenKind} (same : t.kind = kind) :
    Rule.leaf? Tree.node kind (.mk () (.leaf t) : Bare) = some t := by
  exact Rule.leaf?_eq_some.mpr ⟨rfl, same⟩

/-- `Rule.fromClause` folds its row again. -/
theorem folds_fromClause {c : FromClause Bare} (slots : (Node.fromClause c).Slots (Rule.glance Tree.node))
    (stops : Stops after) :
    Folds .fromClause left (row ((Node.fromClause c).layout Render.isGlued)) (.mk () (.fromClause c)) after := by
  obtain ⟨isFrom, source, _⟩ := slots
  obtain ⟨origin, taken, made⟩ := takeSource?_bare (b := true) source (fun _ => rfl) (aliasRow c.aliasName ++ after)
  refine ⟨.mk () (.leaf c.keyword), Piece.bare (.child c.source) :: aliasRow c.aliasName,
    ⟨left, .fromClause ⟨c.keyword, origin, c.aliasName⟩, after⟩, by simp [Node.layout], ?_, rfl, ?_, rfl⟩
  · simp only [Rule.apply, Rule.applyFromClause, leaf?_leaf isFrom, List.cons_append, taken, bind, Except.bind,
      takeAlias_bare c.aliasName stops.alias]
    rfl
  · rw [Fold.tree, Node.map, made]

theorem takeModifiers_leaves {modifiers : List Token} {word : Token} (areModifiers : ∀ t ∈ modifiers, t.kind.isJoinModifier = true)
    (isJoin : word.kind = .joinKw) (rest : Row) :
    Rule.takeModifiers Tree.node (leaves (modifiers ++ [word]) ++ rest) = (modifiers, .mk () (.leaf word) :: rest) := by
  induction modifiers with
  | nil =>
    have none : Rule.leafOf? Tree.node TokenKind.isJoinModifier (.mk () (.leaf word) : Bare) = none := by
      rw [Rule.leafOf?, Tree.node, Node.token?, Option.filter_some, isJoin]
      rfl
    show Rule.takeModifiers Tree.node (.mk () (.leaf word) :: rest) = _
    rw [Rule.takeModifiers, none]
  | cons t modifiers ih =>
    obtain ⟨here, others⟩ := List.forall_mem_cons.mp areModifiers
    have first : Rule.leafOf? Tree.node TokenKind.isJoinModifier (.mk () (.leaf t) : Bare) = some t :=
      Rule.leafOf?_eq_some.mpr ⟨rfl, here⟩
    show Rule.takeModifiers Tree.node (.mk () (.leaf t) :: (leaves (modifiers ++ [word]) ++ rest)) = _
    rw [Rule.takeModifiers, first]
    simp only [ih others]

/-- The row of the condition of a join. -/
def conditionRow (condition : Option (Restriction Bare)) : Row :=
  condition.toList.flatMap fun c => [.mk () (.leaf c.keyword), c.expression]

theorem takeJoinRestriction_bare {condition : Option (Restriction Bare)}
    (slots : ∀ c ∈ condition, c.keyword.kind = .onKw ∧ (Rule.glance Tree.node c.expression).kind.isExpression = true ∨
      c.keyword.kind = .usingKw ∧ (Rule.glance Tree.node c.expression).kind = .bracket) (stops : Stops after) :
    Rule.takeJoinRestriction Tree.node (conditionRow condition ++ after) =
      .ok (condition.map (·.map .sibling), after) := by
  cases condition with
  | none =>
    cases after with
    | nil => rfl
    | cons t after =>
      obtain ⟨_, others⟩ := stops t rfl
      have noLeaf (kind : TokenKind) (other : Rule.leafIs Tree.node kind t = false) : Rule.leaf? Tree.node kind t = none := by
        by_contra found
        obtain ⟨u, read⟩ := Option.ne_none_iff_exists'.mp found
        obtain ⟨shown, same⟩ := Rule.leaf?_eq_some.mp read
        rw [Rule.leafIs_iff.mpr ⟨u, shown, same⟩] at other
        cases other
      simp [conditionRow, Rule.takeJoinRestriction, noLeaf .onKw (others _ (by decide)), noLeaf .usingKw (others _ (by decide))]
  | some c =>
    rcases slots c rfl with ⟨isOn, operand⟩ | ⟨isUsing, bracket⟩
    · have operand : Rule.isOperand Tree.node c.expression = true := operand
      simp [conditionRow, Rule.takeJoinRestriction, leaf?_leaf isOn, operand, Restriction.map]
    · have noOn : Rule.leaf? Tree.node .onKw (.mk () (.leaf c.keyword) : Bare) = none := by
        rw [Rule.leaf?, Tree.node, Node.token?, Option.filter_some, isUsing]
        rfl
      have bracket : Rule.isNode Tree.node .bracket c.expression = true := Rule.isNode_iff.mpr bracket
      simp [conditionRow, Rule.takeJoinRestriction, noOn, leaf?_leaf isUsing, bracket, Restriction.map]

/-- `Rule.join` folds its row again, where no word for a join stands before it. -/
theorem folds_join {j : Join Bare} (slots : (Node.join j).Slots (Rule.glance Tree.node)) (idle : Idle .join left)
    (stops : Stops after) :
    Folds .join left (row ((Node.join j).layout Render.isGlued)) (.mk () (.join j)) after := by
  obtain ⟨keywords, source, aliasName, condition⟩ := j
  obtain ⟨⟨modifiers, word, rfl, isJoin, areModifiers⟩, isSource, _, conditions⟩ := slots
  have restriction : row (condition.toList.flatMap fun c => [(true, .token c.keyword), (true, .child c.expression)]) =
      conditionRow condition := by
    cases condition with
    | none => rfl
    | some c =>
      have other : c.expression.kind ≠ .table := fun table => by
        rcases conditions c rfl with ⟨_, operand⟩ | ⟨_, bracket⟩
        · rw [show (Rule.glance Tree.node c.expression).kind = .table from table] at operand
          cases operand
        · cases table.symm.trans bracket
      simp [conditionRow, Piece.bare_child other]
  obtain ⟨origin, read, made⟩ := takeSource?_bare (b := true) isSource (fun _ => rfl)
    (aliasRow aliasName ++ (conditionRow condition ++ after))
  obtain ⟨here, rest, whole⟩ := List.exists_cons_of_ne_nil
    (l := row ((Node.join ⟨modifiers ++ [word], source, aliasName, condition⟩).layout Render.isGlued)) (by simp [Node.layout])
  have taken : here :: (rest ++ after) = leaves (modifiers ++ [word]) ++ (Piece.bare (.child source) ::
      (aliasRow aliasName ++ (conditionRow condition ++ after))) := by
    rw [← List.cons_append, ← whole]
    simp [Node.layout, restriction]
  refine ⟨here, rest, ⟨left, .join ⟨modifiers ++ [word], origin, aliasName, condition.map (·.map .sibling)⟩, after⟩,
    whole, ?_, rfl, ?_, rfl⟩
  · have noModifier : (left.head?.any fun a => (Rule.leafOf? Tree.node TokenKind.isJoinModifier a).isSome) = false := by
      cases left with
      | nil => rfl
      | cons a left =>
        obtain ⟨⟨⟩, n⟩ := a
        cases n with
        | leaf t =>
          have starts := idle _ List.mem_cons_self
          simp only [Tree.node, Rule.startsAt, Rule.startsAtLeaf, Bool.or_eq_false_iff] at starts
          simp [Rule.leafOf?, Tree.node, Node.token?, starts.1]
        | _ => rfl
    have named : Rule.takeAlias Tree.node true (aliasRow aliasName ++ (conditionRow condition ++ after)) =
        .ok (aliasName, conditionRow condition ++ after) := by
      refine takeAlias_bare aliasName fun t first => ?_
      cases condition with
      | none => exact stops.alias t first
      | some c =>
        cases first
        have word : c.keyword.kind ≠ .asKw := by
          rcases conditions c rfl with ⟨isOn, _⟩ | ⟨isUsing, _⟩
          · rw [isOn]; decide
          · rw [isUsing]; decide
        exact ⟨rfl, by simpa [Rule.leafIs, Tree.node, Node.tokenKind?, Node.token?] using word⟩
    simp only [Rule.apply, Rule.applyJoin, noModifier, Bool.false_eq_true, if_false, taken,
      takeModifiers_leaves areModifiers isJoin, leaf?_leaf isJoin, read, bind, Except.bind, named,
      takeJoinRestriction_bare conditions stops]
    rfl
  · cases condition <;> rw [Fold.tree, Node.map, made] <;> rfl

theorem takeRestriction?_bare {c : Restriction Bare} {kind : TokenKind} (isKeyword : c.keyword.kind = kind)
    (operand : Rule.isOperand Tree.node c.expression = true) :
    Rule.takeRestriction? Tree.node kind ⟨left, .mk () (.leaf c.keyword), c.expression :: after⟩ =
      .ok (some (c.map .sibling, after)) := by
  simp [Rule.takeRestriction?, leaf?_leaf isKeyword, operand, Restriction.map]

theorem row_restriction {c : Restriction Bare} (operand : Rule.isOperand Tree.node c.expression = true) :
    row (restriction c) = [.mk () (.leaf c.keyword), c.expression] := by
  simp [restriction, Piece.bare_expression operand]

/-- `Rule.whereClause` folds its row again. -/
theorem folds_whereClause {c : Restriction Bare} (slots : (Node.whereClause c).Slots (Rule.glance Tree.node)) :
    Folds .whereClause left (row ((Node.whereClause c).layout Render.isGlued)) (.mk () (.whereClause c)) after := by
  obtain ⟨isWhere, operand⟩ := slots
  refine ⟨_, _, ⟨left, .whereClause (c.map .sibling), after⟩, row_restriction operand, ?_, rfl, rfl, rfl⟩
  simp only [Rule.apply, Rule.applyWhereClause, List.singleton_append, takeRestriction?_bare isWhere operand, bind,
    Except.bind]
  rfl

/-- `Rule.havingClause` folds its row again. -/
theorem folds_havingClause {c : Restriction Bare} (slots : (Node.havingClause c).Slots (Rule.glance Tree.node)) :
    Folds .havingClause left (row ((Node.havingClause c).layout Render.isGlued)) (.mk () (.havingClause c)) after := by
  obtain ⟨isHaving, operand⟩ := slots
  refine ⟨_, _, ⟨left, .havingClause (c.map .sibling), after⟩, row_restriction operand, ?_, rfl, rfl, rfl⟩
  simp only [Rule.apply, Rule.applyHavingClause, List.singleton_append, takeRestriction?_bare isHaving operand, bind,
    Except.bind]
  rfl

/-! ## Lists -/

theorem bare_sibling : Origin.bare id ∘ Origin.sibling = (id : Bare → Bare) := rfl

theorem takeExpressions_listed {es : Row} (filled : es ≠ []) (operands : ∀ e ∈ es, Rule.isOperand Tree.node e = true)
    (stops : Stops after) (previous : Bare) :
    Rule.takeExpressions Tree.node previous (row (listed (es.map fun e => [(true, .child e)])) ++ after) =
      .ok (es, after) := by
  induction es generalizing previous with
  | nil => exact absurd rfl filled
  | cons e es ih =>
    obtain ⟨operand, operands⟩ := List.forall_mem_cons.mp operands
    cases es with
    | nil =>
      cases after with
      | nil => simp [listed, Piece.bare_expression operand, Rule.takeExpressions, operand]
      | cons t after =>
        have noComma := (stops t rfl).2 .comma (by decide)
        simp [listed, Piece.bare_expression operand, Rule.takeExpressions, operand, noComma]
    | cons e' es =>
      have later := ih (by simp) operands (.mk () (.leaf .comma))
      have isComma : Rule.leafIs Tree.node .comma (.mk () (.leaf .comma) : Bare) = true := rfl
      rw [List.map_cons] at later
      simp only [List.map_cons, listed, row_cons, bare_token, Piece.bare_expression operand,
        List.cons_append, List.nil_append, Rule.takeExpressions, operand, isComma, if_true, later]
      rfl

/-- `Rule.groupBy` folds its row again. -/
theorem folds_groupBy {g : GroupBy Bare} (slots : (Node.groupBy g).Slots (Rule.glance Tree.node))
    (filled : g.expressions ≠ []) (stops : Stops after) :
    Folds .groupBy left (row ((Node.groupBy g).layout Render.isGlued)) (.mk () (.groupBy g)) after := by
  obtain ⟨isGroup, isBy, operands⟩ := slots
  refine ⟨.mk () (.leaf g.group), .mk () (.leaf g.byKeyword) :: row (listed (g.expressions.map fun e => [(true, .child e)])),
    ⟨left, .groupBy ⟨g.group, g.byKeyword, g.expressions.map .sibling⟩, after⟩, by simp [Node.layout, leaves], ?_, rfl, ?_, rfl⟩
  · simp only [Rule.apply, Rule.applyGroupBy, leaf?_leaf isGroup, List.cons_append, leaf?_leaf isBy,
      takeExpressions_listed filled operands stops, bind, Except.bind]
    rfl
  · simp only [Fold.tree, Node.map, List.map_map, bare_sibling, List.map_id]

theorem takeDirection_leaves {direction : Option Token} (isDirection : ∀ t ∈ direction, Rule.isDirection t.kind = true)
    {rest : Row} (ends : ∀ t ∈ rest.head?, Rule.leafIs Tree.node .comma t = true) :
    Rule.takeDirection Tree.node (leaves direction.toList ++ rest) = (direction, rest) := by
  cases direction with
  | some t =>
    have read : Rule.leafOf? Tree.node Rule.isDirection (.mk () (.leaf t) : Bare) = some t :=
      Rule.leafOf?_eq_some.mpr ⟨rfl, isDirection t rfl⟩
    show Rule.takeDirection Tree.node (.mk () (.leaf t) :: rest) = _
    rw [Rule.takeDirection, read]
  | none =>
    cases rest with
    | nil => rfl
    | cons a rest =>
      obtain ⟨t, shown, isComma⟩ := Rule.leafIs_iff.mp (ends a rfl)
      have none : Rule.leafOf? Tree.node Rule.isDirection a = none := by
        rw [Rule.leafOf?, shown, Node.token?, Option.filter_some, isComma]
        rfl
      show Rule.takeDirection Tree.node (a :: rest) = _
      rw [Rule.takeDirection, none]

theorem takeSortKeys_listed {items : List (SortKey Bare)} (filled : items ≠ [])
    (slots : ∀ i ∈ items, Rule.isOperand Tree.node i.expression = true ∧ ∀ t ∈ i.direction, Rule.isDirection t.kind = true)
    (previous : Bare) :
    Rule.takeSortKeys Tree.node previous
        (row (listed (items.map fun i => (true, .child i.expression) :: loose i.direction.toList))) =
      .ok (items.map (·.map .sibling), []) := by
  induction items generalizing previous with
  | nil => exact absurd rfl filled
  | cons i items ih =>
    obtain ⟨⟨operand, isDirection⟩, slots⟩ := List.forall_mem_cons.mp slots
    cases items with
    | nil =>
      have read := @takeDirection_leaves _ isDirection [] nofun
      rw [List.append_nil] at read
      simp only [List.map_cons, List.map_nil, listed, row_cons, row_loose, Piece.bare_expression operand]
      rw [Rule.takeSortKeys, if_pos operand]
      split
      · next ends => rw [read]; rfl
      · next ends => rw [read] at ends; cases ends
    | cons i' items =>
      have later := ih (by simp) slots (.mk () (.leaf .comma))
      rw [List.map_cons] at later
      have read := @takeDirection_leaves _ isDirection (.mk () (.leaf .comma) ::
        row (listed (((true, .child i'.expression) :: loose i'.direction.toList) ::
          items.map fun i => (true, .child i.expression) :: loose i.direction.toList))) (by rintro _ ⟨⟩; rfl)
      simp only [List.map_cons, listed, row_cons, row_append, row_loose, List.cons_append, Piece.bare_expression operand, bare_token]
      rw [Rule.takeSortKeys, if_pos operand]
      split
      · next ends => rw [read] at ends; cases ends
      · next b rest' ends =>
        have direction := congrArg Prod.fst read
        rw [read] at ends
        cases ends
        simp only [direction, later]
        rfl

/-- `Rule.orderBy` folds its row again at the end of a row. -/
theorem folds_orderBy {o : OrderBy Bare} (slots : (Node.orderBy o).Slots (Rule.glance Tree.node)) (filled : o.items ≠ []) :
    Folds .orderBy left (row ((Node.orderBy o).layout Render.isGlued)) (.mk () (.orderBy o)) [] := by
  obtain ⟨isOrder, isBy, items⟩ := slots
  refine ⟨.mk () (.leaf o.order), .mk () (.leaf o.byKeyword) ::
      row (listed (o.items.map fun i => (true, .child i.expression) :: loose i.direction.toList)),
    ⟨left, .orderBy ⟨o.order, o.byKeyword, o.items.map (·.map .sibling)⟩, []⟩, by simp [Node.layout, leaves], ?_, rfl, ?_, rfl⟩
  · simp only [Rule.apply, Rule.applyOrderBy, leaf?_leaf isOrder, List.append_nil, leaf?_leaf isBy,
      takeSortKeys_listed filled items, bind, Except.bind]
    rfl
  · have back : SortKey.map (Origin.bare id) ∘ SortKey.map Origin.sibling = (id : SortKey Bare → SortKey Bare) := rfl
    simp only [Fold.tree, Node.map, List.map_map, back, List.map_id]

/-! ## Select -/

theorem takeProjections_listed {items : List (Projection Bare)} (filled : items ≠ [])
    (operands : ∀ i ∈ items, Rule.isOperand Tree.node i.expression = true) (stops : Stops after) (comma : Bool)
    (previous : Bare) :
    Rule.takeProjections Tree.node comma previous (row (listed (items.map projection)) ++ after) =
      .ok (items.map (·.map .sibling), after) := by
  induction items generalizing comma previous with
  | nil => exact absurd rfl filled
  | cons i items ih =>
    obtain ⟨e, aliasName⟩ := i
    obtain ⟨operand, operands⟩ := List.forall_mem_cons.mp operands
    have read (rest : Row) (ends : ∀ t ∈ rest.head?, Rule.leafIs Tree.node .asKw t = false) :
        Rule.takeAlias Tree.node false
          (row (aliasName.toList.flatMap fun t => [(true, .token .aliasWord), (true, .name t)]) ++ rest) =
        .ok (aliasName, rest) := by
      cases aliasName with
      | some t => rfl
      | none =>
        cases rest with
        | nil => rfl
        | cons a rest =>
          have noWord := ends a rfl
          simp [Rule.takeAlias, noWord]
    cases items with
    | nil =>
      have read := read after fun t first => (stops.alias t first).2
      simp only [List.map_cons, List.map_nil, listed, projection, row_cons, List.cons_append, Piece.bare_expression operand]
      rw [Rule.takeProjections, if_pos operand]
      split
      · next aliased => rw [read] at aliased; cases aliased
      · next aliased =>
        rw [read] at aliased
        cases aliased
        rfl
      · next b rest' aliased =>
        rw [read] at aliased
        cases aliased
        have noComma := (stops b rfl).2 .comma (by decide)
        simp only [noComma]
        rfl
    | cons i' items =>
      have later := ih (by simp) operands true (.mk () (.leaf .comma))
      rw [List.map_cons] at later
      have read := read (.mk () (.leaf .comma) :: (row (listed (projection i' :: items.map projection)) ++ after))
        (by rintro _ ⟨⟩; rfl)
      simp only [List.map_cons, listed, row_append, row_cons, List.cons_append, List.append_assoc, bare_token]
      rw [projection, row_cons, List.cons_append, Piece.bare_expression operand, Rule.takeProjections, if_pos operand]
      split
      · next aliased => rw [read] at aliased; cases aliased
      · next aliased => rw [read] at aliased; cases aliased
      · next b rest' aliased =>
        rw [read] at aliased
        cases aliased
        simp only [later]
        rfl

/-- A row starts with a node of one of the kinds, if it does not end. -/
def Leads (kinds : List NodeKind) (row : Row) : Prop := ∀ t ∈ row.head?, t.kind ∈ kinds

theorem Leads.append {kinds : List NodeKind} {kind : NodeKind} {cs rest : Row} (leads : Leads kinds rest)
    (same : ∀ t ∈ cs, t.kind = kind) : Leads (kind :: kinds) (cs ++ rest) := by
  cases cs with
  | nil => exact fun t first => List.mem_cons_of_mem _ (leads t first)
  | cons c cs =>
    rintro t ⟨⟩
    exact same c List.mem_cons_self ▸ List.mem_cons_self

theorem Leads.append_toList {kinds : List NodeKind} {kind : NodeKind} {c : Option Bare} {rest : Row}
    (leads : Leads kinds rest) (same : ∀ t ∈ c, t.kind = kind) : Leads (kind :: kinds) (c.toList ++ rest) :=
  leads.append fun t mem => same t (Option.mem_toList.mp mem)

/-- No clause belongs to the clause before it. -/
theorem Leads.stops {kinds : List NodeKind} {row : Row} (leads : Leads kinds row)
    (clauses : ∀ kind ∈ kinds, kind.isClause = true) : Stops row := by
  intro t first
  have clause := clauses _ (leads t first)
  obtain ⟨⟨⟩, n⟩ := t
  cases n with
  | leaf | column => cases clause
  | _ => exact ⟨rfl, fun _ _ => rfl⟩

theorem takeNode_toList {kinds : List NodeKind} {kind : NodeKind} {c : Option Bare} {rest : Row}
    (leads : Leads kinds rest) (same : ∀ t ∈ c, t.kind = kind) (other : kind ∉ kinds) :
    Rule.takeNode Tree.node kind (c.toList ++ rest) = (c, rest) := by
  cases c with
  | some c => simp [Rule.takeNode, Rule.isNode_iff.mpr (same c rfl)]
  | none =>
    cases rest with
    | nil => rfl
    | cons t rest =>
      have other : ¬ Rule.isNode Tree.node kind t = true := fun found => by
        rw [← Rule.isNode_iff.mp found] at other
        exact other (leads t rfl)
      simp [Rule.takeNode, other]

theorem takeNodes_append {kinds : List NodeKind} {kind : NodeKind} {cs rest : Row} (leads : Leads kinds rest)
    (same : ∀ t ∈ cs, t.kind = kind) (other : kind ∉ kinds) :
    Rule.takeNodes Tree.node kind (cs ++ rest) = (cs, rest) := by
  have all : ∀ t ∈ cs, Rule.isNode Tree.node kind t = true := fun t mem => Rule.isNode_iff.mpr (same t mem)
  rw [Rule.takeNodes, List.span_eq_takeWhile_dropWhile, List.takeWhile_append_of_pos all, List.dropWhile_append_of_pos all]
  cases rest with
  | nil => simp
  | cons t rest =>
    have other : ¬ Rule.isNode Tree.node kind t = true := fun found => by
      rw [← Rule.isNode_iff.mp found] at other
      exact other (leads t rfl)
    simp [other]

theorem clause_of_kind {c : Bare} {kind : NodeKind} (same : (Rule.glance Tree.node c).kind = kind)
    (clause : kind ∈ Rule.clauseRules.map Rule.makes) : c.kind ∈ Rule.clauseRules.map Rule.makes := by
  rwa [show c.kind = kind from same]

theorem leafIs_operand {e : Bare} (operand : Rule.isOperand Tree.node e = true) (kind : TokenKind) :
    Rule.leafIs Tree.node kind e = false := by
  obtain ⟨⟨⟩, n⟩ := e
  cases n with
  | leaf => cases operand
  | _ => rfl

theorem row_clauses {cs : Row} (clauses : ∀ c ∈ cs, c.kind ∈ Rule.clauseRules.map Rule.makes) :
    row (Layout.clauses cs) = cs := by
  rw [row, Layout.clauses, List.map_map]
  refine (List.map_congr_left fun c mem => Piece.bare_child fun table => ?_).trans (List.map_id cs)
  have clause := clauses c mem
  rw [table] at clause
  revert clause
  decide

/-- The word `DISTINCT` is read where it stands before a list. -/
theorem takeOptionalLeaf_leaves {word : Option Token} {kind : TokenKind} (same : ∀ t ∈ word, t.kind = kind) {rest : Row}
    (others : ∀ t ∈ rest.head?, Rule.leafIs Tree.node kind t = false) :
    Rule.takeOptionalLeaf Tree.node kind (leaves word.toList ++ rest) = (word, rest) := by
  cases word with
  | some t =>
    show Rule.takeOptionalLeaf Tree.node kind (.mk () (.leaf t) :: rest) = _
    rw [Rule.takeOptionalLeaf, leaf?_leaf (same t rfl)]
  | none =>
    cases rest with
    | nil => rfl
    | cons a rest =>
      have none : Rule.leaf? Tree.node kind a = none := by
        by_contra found
        obtain ⟨t, read⟩ := Option.ne_none_iff_exists'.mp found
        obtain ⟨shown, same⟩ := Rule.leaf?_eq_some.mp read
        have other := others a rfl
        rw [Rule.leafIs_iff.mpr ⟨t, shown, same⟩] at other
        cases other
      show Rule.takeOptionalLeaf Tree.node kind (a :: rest) = _
      rw [Rule.takeOptionalLeaf, none]

/-- The clauses of a `SELECT`. -/
theorem clauses_select {s : Select Bare} (slots : (Node.select s).Slots (Rule.glance Tree.node)) :
    ∀ c ∈ s.source.toList ++ s.joins ++ s.filter.toList ++ s.grouping.toList ++ s.having.toList ++ s.ordering.toList,
      c.kind ∈ Rule.clauseRules.map Rule.makes := by
  obtain ⟨_, _, _, isFrom, areJoins, isWhere, isGroupBy, isHaving, isOrderBy⟩ := slots
  simp only [List.forall_mem_append, Option.mem_toList]
  exact ⟨⟨⟨⟨⟨fun c mem => clause_of_kind (isFrom c mem) (by decide), fun c mem => clause_of_kind (areJoins c mem) (by decide)⟩,
    fun c mem => clause_of_kind (isWhere c mem) (by decide)⟩, fun c mem => clause_of_kind (isGroupBy c mem) (by decide)⟩,
    fun c mem => clause_of_kind (isHaving c mem) (by decide)⟩, fun c mem => clause_of_kind (isOrderBy c mem) (by decide)⟩

/-- The clauses of an `UPDATE`, before the assignments and behind them. -/
theorem clauses_update {u : Update Bare} (slots : (Node.update u).Slots (Rule.glance Tree.node)) :
    (∀ c ∈ u.joins, c.kind ∈ Rule.clauseRules.map Rule.makes) ∧
      ∀ c ∈ u.filter.toList ++ u.ordering.toList, c.kind ∈ Rule.clauseRules.map Rule.makes := by
  obtain ⟨_, _, _, areJoins, _, _, isWhere, isOrderBy⟩ := slots
  simp only [List.forall_mem_append, Option.mem_toList]
  exact ⟨fun c mem => clause_of_kind (areJoins c mem) (by decide), fun c mem => clause_of_kind (isWhere c mem) (by decide), fun c mem => clause_of_kind (isOrderBy c mem) (by decide)⟩

/-- `Rule.select` folds its row again at the end of a row. -/
theorem folds_select {s : Select Bare} (slots : (Node.select s).Slots (Rule.glance Tree.node)) (filled : s.items ≠ []) :
    Folds .select left (row ((Node.select s).layout Render.isGlued)) (.mk () (.select s)) [] := by
  obtain ⟨keyword, distinct, items, source, joins, filter, grouping, having, ordering⟩ := s
  have kinds := clauses_select slots
  obtain ⟨isSelect, isDistinct, slots, isFrom, areJoins, isWhere, isGroupBy, isHaving, isOrderBy⟩ := slots
  have behindHaving : Leads [.orderBy] ordering.toList := by
    simpa using @Leads.append_toList [] _ _ [] nofun isOrderBy
  have behindGrouping := behindHaving.append_toList isHaving
  have behindFilter := behindGrouping.append_toList isGroupBy
  have behindJoins := behindFilter.append_toList isWhere
  have behindSource := behindJoins.append areJoins
  have behindItems := behindSource.append_toList isFrom
  have stops := behindItems.stops (by decide)
  have operand : ∀ t ∈ (row (listed (items.map projection)) ++ (source.toList ++ (joins ++ (filter.toList ++
      (grouping.toList ++ (having.toList ++ ordering.toList)))))).head?, Rule.leafIs Tree.node .distinctKw t = false := by
    obtain ⟨i, items, rfl⟩ := List.exists_cons_of_ne_nil filled
    obtain ⟨more, starts⟩ := listed_cons true (.child i.expression)
      (i.aliasName.toList.flatMap fun t => [(true, .token .aliasWord), (true, .name t)]) (items.map projection)
    have operand := (slots i List.mem_cons_self).1
    rw [List.map_cons, projection, starts, row_cons, Piece.bare_expression operand]
    rintro _ ⟨⟩
    exact leafIs_operand operand _
  have lastTaken := @takeNode_toList [] _ _ [] nofun isOrderBy (by decide)
  rw [List.append_nil] at lastTaken
  refine ⟨.mk () (.leaf keyword), leaves distinct.toList ++ (row (listed (items.map projection)) ++
      (source.toList ++ (joins ++ (filter.toList ++ (grouping.toList ++ (having.toList ++ ordering.toList)))))),
    ⟨left, .select ⟨keyword, distinct, items.map (·.map .sibling), source.map .sibling, joins.map .sibling,
      filter.map .sibling, grouping.map .sibling, having.map .sibling, ordering.map .sibling⟩, []⟩, ?_, ?_, rfl, ?_, rfl⟩
  · simp only [Node.layout, row_append, row_words, row_clauses kinds]
    simp [leaves]
  · simp only [Rule.apply, Rule.applySelect, leaf?_leaf isSelect, List.append_nil, takeOptionalLeaf_leaves isDistinct operand,
      takeProjections_listed filled (fun i mem => (slots i mem).1) stops, takeNode_toList behindSource isFrom (by decide),
      takeNodes_append behindJoins areJoins (by decide), takeNode_toList behindFilter isWhere (by decide),
      takeNode_toList behindGrouping isGroupBy (by decide), takeNode_toList behindHaving isHaving (by decide), lastTaken, bind,
      Except.bind]
    rfl
  · have back : Projection.map (Origin.bare id) ∘ Projection.map Origin.sibling = (id : Projection Bare → Projection Bare) := rfl
    simp only [Fold.tree, Node.map, List.map_map, Option.map_map, bare_sibling, back, List.map_id, Option.map_id]
    rfl

/-! ## Update -/

theorem takeAssignments_listed {es : Row} (filled : es ≠ []) (assigns : ∀ e ∈ es, Rule.isAssignment Tree.node e = true)
    (stops : Stops after) (comma : Bool) (previous : Bare) :
    Rule.takeAssignments Tree.node comma previous (row (listed (es.map fun e => [(true, .child e)])) ++ after) =
      .ok (es, after) := by
  induction es generalizing comma previous with
  | nil => exact absurd rfl filled
  | cons e es ih =>
    obtain ⟨assign, assigns⟩ := List.forall_mem_cons.mp assigns
    have operand : Rule.isOperand Tree.node e = true := by
      rw [Rule.isOperand, Node.isExpression, Rule.kind_of_assigns assign]
      rfl
    cases es with
    | nil =>
      cases after with
      | nil => simp [listed, Piece.bare_expression operand, Rule.takeAssignments, operand, assign]
      | cons t after =>
        have noComma := (stops t rfl).2 .comma (by decide)
        simp [listed, Piece.bare_expression operand, Rule.takeAssignments, operand, assign, noComma]
    | cons e' es =>
      have later := ih (by simp) assigns true (.mk () (.leaf .comma))
      have isComma : Rule.leafIs Tree.node .comma (.mk () (.leaf .comma) : Bare) = true := rfl
      rw [List.map_cons] at later
      simp only [List.map_cons, listed, row_cons, bare_token, Piece.bare_expression operand,
        List.cons_append, List.nil_append, Rule.takeAssignments, operand, assign, isComma, if_true, later]
      rfl

/-- `Rule.update` folds its row again at the end of a row. -/
theorem folds_update {u : Update Bare} (slots : (Node.update u).Slots (Rule.glance Tree.node)) (filled : u.assignments ≠ []) :
    Folds .update left (row ((Node.update u).layout Render.isGlued)) (.mk () (.update u)) [] := by
  obtain ⟨keyword, table, aliasName, joins, setKeyword, assignments, filter, ordering⟩ := u
  have clauses := clauses_update slots
  obtain ⟨isUpdate, isTable, _, areJoins, isSet, assigns, isWhere, isOrderBy⟩ := slots
  have behindFilter : Leads [.orderBy] ordering.toList := by
    simpa using @Leads.append_toList [] _ _ [] nofun isOrderBy
  have stops := (behindFilter.append_toList isWhere).stops (by decide)
  have lastTaken := @takeNode_toList [] _ _ [] nofun isOrderBy (by decide)
  rw [List.append_nil] at lastTaken
  obtain ⟨list, behindJoins⟩ : ∃ list : Row, list = .mk () (.leaf setKeyword) ::
      (row (listed (assignments.map fun e => [(true, .child e)])) ++ (filter.toList ++ ordering.toList)) := ⟨_, rfl⟩
  obtain ⟨origin, read, made⟩ := takeSource?_bare (b := false) (.inl isTable)
    (fun bracket => nomatch isTable.symm.trans bracket) (aliasRow aliasName ++ (joins ++ list))
  have leads : Leads [.tokenLeaf] list := by
    rw [behindJoins]
    rintro _ ⟨⟩
    exact List.mem_singleton_self _
  have named : Rule.takeAlias Tree.node true (aliasRow aliasName ++ (joins ++ list)) = .ok (aliasName, joins ++ list) := by
    refine takeAlias_bare aliasName fun t first => ?_
    cases joins with
    | nil =>
      rw [List.nil_append, behindJoins] at first
      cases first
      refine ⟨rfl, ?_⟩
      show (some setKeyword.kind == some .asKw) = false
      rw [show setKeyword.kind = _ from isSet]
      rfl
    | cons j joins =>
      cases first
      have leads : Leads [.join] [t] := by
        rintro _ ⟨⟩
        exact List.mem_singleton.mpr (areJoins t List.mem_cons_self)
      exact (leads.stops (by decide)).alias t rfl
  refine ⟨.mk () (.leaf keyword), Piece.bare (.child table) :: (aliasRow aliasName ++ (joins ++ list)),
    ⟨left, .update ⟨keyword, origin, aliasName, joins.map .sibling, setKeyword, assignments.map .sibling,
      filter.map .sibling, ordering.map .sibling⟩, []⟩, ?_, ?_, rfl, ?_, rfl⟩
  · simp [Node.layout, row_clauses clauses.1, row_clauses clauses.2, behindJoins]
  · simp only [Rule.apply, Rule.applyUpdate, leaf?_leaf isUpdate, List.append_nil, read, named,
      takeNodes_append leads areJoins (by decide), bind, Except.bind]
    simp only [behindJoins, leaf?_leaf isSet, takeAssignments_listed filled assigns stops,
      takeNode_toList behindFilter isWhere (by decide), lastTaken]
    rfl
  · simp only [Fold.tree, Node.map, made, List.map_map, Option.map_map, bare_sibling, List.map_id, Option.map_id]
    rfl

end Row

end SqlFold
