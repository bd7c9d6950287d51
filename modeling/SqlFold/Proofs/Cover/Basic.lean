import Mathlib.Data.List.Forall2
import SqlFold.Proofs.Spelling
import SqlFold.Rule.Apply

/-!
# What a fold takes

`Covers view focus fold back ahead` says how the answer `fold` of a rule lies over the siblings: it
takes the siblings `back` right before the focus, the focus and the siblings `ahead` right after it,
and these are, one by one, the pieces that the folded node is written with. No rule drops or doubles
a sibling, and none moves one.

`Node.Slots` is what a rule promises about the sub-nodes and tokens of the node that it makes.
-/

namespace SqlFold

variable {α β : Type}

/-! ## Slots -/

/-- What the rules look at in a sub-node. -/
structure Glance where
  kind : NodeKind
  /-- Whether it assigns a value to a column. -/
  assigns : Bool
  /-- Whether its first sub-node is the word `DISTINCT`. -/
  distinct : Bool

/-- A column name whose parts are names, without a gap between them. -/
structure ColumnName.Sound (c : ColumnName) : Prop where
  symbols : ∀ t ∈ c.schema.toList ++ c.table.toList ++ [c.column], t.kind = .symbol
  gapless : c.schema.isSome → c.table.isSome

/-- The token lists that are operators. -/
inductive IsOperator : List Token → Prop
  | single {t : Token} : Rule.startsOperator t.kind = true → IsOperator [t]
  | isNot {t u : Token} : t.kind = .isKw → u.kind = .notKw → IsOperator [t, u]
  | notLike {t u : Token} : t.kind = .notKw → u.kind = .likeKw ∨ u.kind = .inKw → IsOperator [t, u]

/-- A node that rows can come from. -/
def Glance.IsSource (g : Glance) : Prop := g.kind = .table ∨ g.kind = .bracket

/-- What a layer has in its slots, where `glance` tells about the sub-nodes. -/
def Node.Slots (glance : α → Glance) : Node α → Prop
  | .leaf _ => True
  | .column c => c.Sound
  | .literal l =>
    Rule.isValueKind l.value.kind = true ∧
      ∀ s ∈ l.sign, Rule.isSign s = true ∧ l.value.kind = .numericLiteral
  | .operation o =>
    (glance o.left).kind.isExpression = true ∧ (glance o.right).kind.isExpression = true ∧
      IsOperator o.operator
  | .membership o =>
    (glance o.left).kind.isExpression = true ∧ (glance o.list).kind = .bracket ∧
      (∀ t ∈ o.negation, t.kind = .notKw) ∧ o.keyword.kind = .inKw
  | .conjunction c =>
    (∀ j ∈ c.parts, (glance j.expression).kind.isExpression = true) ∧ c.first.operator = none ∧
      ∀ j ∈ c.second :: c.rest, ∃ t, j.operator = some t ∧ Rule.joinsOperands t.kind = true
  | .bracket p => p.opening.kind = .bracketOpen ∧ p.closing.kind = .bracketClose
  | .call c =>
    c.name.kind = .symbol ∧ (glance c.arguments).kind = .bracket ∧
      c.distinct = (glance c.arguments).distinct
  | .allColumns a =>
    (∀ t ∈ a.schema.toList ++ a.table.toList, t.kind = .symbol) ∧
      (a.schema.isSome → a.table.isSome) ∧ a.star.kind = .star
  | .table t => ∀ u ∈ t.schema.toList ++ [t.name], u.kind = .symbol
  | .fromClause c =>
    c.keyword.kind = .fromKw ∧ (glance c.source).IsSource ∧ ∀ t ∈ c.aliasName, t.kind = .symbol
  | .join j =>
    (∃ modifiers word, j.keywords = modifiers ++ [word] ∧ word.kind = .joinKw ∧
        ∀ t ∈ modifiers, t.kind.isJoinModifier = true) ∧
      (glance j.source).IsSource ∧ (∀ t ∈ j.aliasName, t.kind = .symbol) ∧
      ∀ c ∈ j.condition,
        c.keyword.kind = .onKw ∧ (glance c.expression).kind.isExpression = true ∨
          c.keyword.kind = .usingKw ∧ (glance c.expression).kind = .bracket
  | .whereClause c => c.keyword.kind = .whereKw ∧ (glance c.expression).kind.isExpression = true
  | .havingClause c => c.keyword.kind = .havingKw ∧ (glance c.expression).kind.isExpression = true
  | .groupBy g =>
    g.group.kind = .groupKw ∧ g.byKeyword.kind = .byKw ∧
      ∀ e ∈ g.expressions, (glance e).kind.isExpression = true
  | .orderBy o =>
    o.order.kind = .orderKw ∧ o.byKeyword.kind = .byKw ∧
      ∀ i ∈ o.items, (glance i.expression).kind.isExpression = true ∧
        ∀ t ∈ i.direction, Rule.isDirection t.kind = true
  | .select s =>
    s.keyword.kind = .selectKw ∧ (∀ t ∈ s.distinct, t.kind = .distinctKw) ∧
      (∀ i ∈ s.items, (glance i.expression).kind.isExpression = true ∧
        ∀ t ∈ i.aliasName, t.kind = .symbol) ∧
      (∀ c ∈ s.source, (glance c).kind = .fromClause) ∧ (∀ c ∈ s.joins, (glance c).kind = .join) ∧
      (∀ c ∈ s.filter, (glance c).kind = .whereClause) ∧
      (∀ c ∈ s.grouping, (glance c).kind = .groupBy) ∧
      (∀ c ∈ s.having, (glance c).kind = .havingClause) ∧
      ∀ c ∈ s.ordering, (glance c).kind = .orderBy
  | .update u =>
    u.keyword.kind = .updateKw ∧ (glance u.table).kind = .table ∧
      (∀ t ∈ u.aliasName, t.kind = .symbol) ∧ (∀ c ∈ u.joins, (glance c).kind = .join) ∧
      u.setKeyword.kind = .setKw ∧ (∀ e ∈ u.assignments, (glance e).assigns = true) ∧
      (∀ c ∈ u.filter, (glance c).kind = .whereClause) ∧
      ∀ c ∈ u.ordering, (glance c).kind = .orderBy
  | .root _ => True

/-! ## Siblings and pieces -/

namespace Rule

variable (view : α → Node α)

/-- What the rules look at in a sibling. -/
def glance (a : α) : Glance :=
  ⟨(view a).kind, isAssignment view a, (view a).children.head?.any (leafIs view .distinctKw)⟩

/-- What the rules look at in a sub-node of a folded node. -/
def glanceOrigin : Origin α → Glance
  | .sibling a => glance view a
  | .newTable _ => ⟨.table, false, false⟩

/-- A sibling is what a piece of the folded node was made from. -/
inductive Matches : Piece (Origin α) → α → Prop
  | leaf {t : Token} {a : α} : view a = .leaf t → Matches (.token t) a
  | name {t : Token} {a : α} : view a = .column ⟨none, none, t⟩ → Matches (.name t) a
  | sibling (a : α) : Matches (.child (.sibling a)) a
  | table {s : Option Token} {n : Token} {a : α} :
      view a = .column ⟨none, s, n⟩ → Matches (.child (.newTable ⟨s, n⟩)) a

/-- Siblings are, one by one, what the pieces of the folded node were made from. -/
abbrev MatchesAll (ps : List (Piece (Origin α))) (as : List α) : Prop :=
  List.Forall₂ (Matches view) ps as

/-- How a fold lies over the siblings. -/
structure Covers (focus : Focus α) (fold : Fold α) (back ahead : List α) : Prop where
  left : focus.left = back ++ fold.left
  right : focus.right = ahead ++ fold.right
  /-- The siblings taken are the pieces of the node. -/
  written : ∃ ps, fold.node.Written ps ∧ MatchesAll view ps (back.reverse ++ focus.here :: ahead)
  /-- At least one token is taken. -/
  leaf : ∃ a ∈ back.reverse ++ focus.here :: ahead, (view a).kind = .tokenLeaf
  /-- No leaf is made. -/
  kind : fold.node.kind ≠ .tokenLeaf
  /-- The node has in its slots what belongs there. -/
  slots : (∀ a ∈ back.reverse ++ focus.here :: ahead, ∀ c, view a = .column c → c.Sound) →
    fold.node.Slots (glanceOrigin view)

variable {view}

/-! ## Reading one sibling -/

theorem token?_eq_some {n : Node α} {t : Token} : n.token? = some t ↔ n = .leaf t := by
  cases n <;> simp [Node.token?]

theorem leaf?_eq_some {kind : TokenKind} {a : α} {t : Token} :
    leaf? view kind a = some t ↔ view a = .leaf t ∧ t.kind = kind := by
  simp [leaf?, Option.filter_eq_some_iff, token?_eq_some]

theorem leafOf?_eq_some {sort : TokenKind → Bool} {a : α} {t : Token} :
    leafOf? view sort a = some t ↔ view a = .leaf t ∧ sort t.kind = true := by
  simp [leafOf?, Option.filter_eq_some_iff, token?_eq_some]

theorem leafIs_iff {kind : TokenKind} {a : α} :
    leafIs view kind a = true ↔ ∃ t, view a = .leaf t ∧ t.kind = kind := by
  simp [leafIs, Node.tokenKind?, token?_eq_some]

theorem isNode_iff {kind : NodeKind} {a : α} : isNode view kind a = true ↔ (view a).kind = kind := by
  simp [isNode]

/-- A fold is only answered by `fold`. -/
theorem fold_eq_ok {left right : List α} {node : Node (Origin α)} {f : Fold α}
    (h : fold left node right = .ok (some f)) : f = ⟨left, node, right⟩ := by
  simpa [fold, eq_comm] using h

theorem decline_ne {f : Fold α} (h : (decline : Checked α (Option (Fold α))) = .ok (some f)) :
    False := by
  cases h

theorem object_ne {culprit : α} {fault : Fault} {b : β} (h : object culprit fault = .ok b) :
    False := by
  cases h

/-- A successful bind is a success of both parts. -/
theorem bind_eq_ok {γ : Type} {x : Checked α β} {f : β → Checked α γ} {c : γ}
    (h : (x >>= f) = .ok c) : ∃ b, x = .ok b ∧ f b = .ok c := by
  cases x with
  | error e => cases h
  | ok b => exact ⟨b, rfl, h⟩

/-- What `Rule.membership` answers once the negation is read. -/
def membershipBehind (view : α → Node α) (left : List α) (here : α) (negation : Option Token) (rest : List α) :
    Checked α (Option (Fold α)) :=
  match takeLeaf? view .inKw rest with
  | some (keyword, list :: after) =>
    if isNode view .bracket list then
      fold left (.membership ⟨.sibling here, negation, keyword, .sibling list⟩) after
    else decline
  | _ => decline

theorem applyMembership_eq {left right : List α} {here : α} :
    applyMembership view ⟨left, here, right⟩ =
      if isOperand view here then
        (takeLeaf? view .notKw right).elim (membershipBehind view left here none right)
          fun s => membershipBehind view left here (some s.1) s.2
      else decline := by
  unfold applyMembership
  dsimp only
  cases takeLeaf? view .notKw right <;> rfl

/-! ## Lists of pieces -/

theorem MatchesAll.append {ps qs : List (Piece (Origin α))} {as bs : List α}
    (h : MatchesAll view ps as) (h' : MatchesAll view qs bs) :
    MatchesAll view (ps ++ qs) (as ++ bs) := List.rel_append h h'

/-- Siblings that become sub-nodes as they are. -/
theorem matchesAll_siblings (as : List α) :
    MatchesAll view ((as.map Origin.sibling).map Piece.child) as := by
  induction as with
  | nil => exact .nil
  | cons a as ih => exact .cons (.sibling a) ih

/-- An optional sibling that becomes a sub-node as it is. -/
theorem matchesAll_sibling? (a : Option α) :
    MatchesAll view (Piece.ofChild? (a.map Origin.sibling)) a.toList := by
  cases a with
  | none => exact .nil
  | some a => exact .cons (.sibling a) .nil

/-- A leaf that is a piece by itself. -/
theorem matchesAll_leaf {a : α} {t : Token} (h : view a = .leaf t) :
    MatchesAll view [.token t] [a] := .cons (.leaf h) .nil

/-- Leaves that are pieces by themselves. -/
theorem matchesAll_leaves {ts : List Token} {as : List α} (shown : as.map view = ts.map .leaf) :
    MatchesAll view (ts.map .token) as := by
  rw [← List.forall₂_eq_eq_eq, List.forall₂_map_left_iff, List.forall₂_map_right_iff] at shown
  exact List.forall₂_map_left_iff.mpr (List.Forall₂.flip (shown.imp fun _ _ => .leaf))

/-- A leaf has the kind of leaves. -/
theorem kind_of_leaf {a : α} {t : Token} (h : view a = .leaf t) : (view a).kind = .tokenLeaf := by
  rw [h]
  rfl

end Rule

end SqlFold
