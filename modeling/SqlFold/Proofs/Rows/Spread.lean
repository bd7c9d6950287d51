import SqlFold.Proofs.Nesting
import SqlFold.Proofs.Rows.Hollow
import SqlFold.Proofs.Rows.Isolation

/-!
# Phrases spread out

The rules behind those on operands fold phrases: conjunctions, clauses and statements. A phrase stands for
a stretch of the row in which they began to fold (`Row.Spread`), and `Row.Stands` says of pieces that their
stretch is cut off from the rest of that row by leaves that no rule on operands looks at.

`Row.Opened` says so of a clause or statement behind its first word. Then it holds of the clauses in it as
well, and every operand in it stands alone (`Row.Opened.children`), so it was made of what stood between two
such leaves (`Row.Stands.isolate`).
-/

namespace SqlFold

/-- The kinds of phrases: conjunctions, clauses and statements. -/
def NodeKind.isPhrase : NodeKind → Bool
  | conjunction | fromClause | join | whereClause | havingClause | groupBy | orderBy | select | update => true
  | _ => false

/-- The kinds of clauses and statements, which start with a word of their own. -/
def NodeKind.isClause (kind : NodeKind) : Bool := kind.isPhrase && kind != .conjunction

theorem NodeKind.isPhrase_of_isClause {kind : NodeKind} (clause : kind.isClause = true) : kind.isPhrase = true :=
  (Bool.and_eq_true_iff.mp clause).1

/-- The rules that fold phrases. -/
def Rule.phraseRules : List Rule :=
  [.conjunction, .fromClause, .join, .whereClause, .havingClause, .groupBy, .orderBy, .select, .update]

namespace Row

variable {ps qs : List (Piece Bare)} {μ row row' : Row}

/-! ## What pieces stand for -/

/-- Pieces stand for a row in which no phrase was folded yet. -/
inductive Spread : List (Piece Bare) → Row → Prop
  | nil : Spread [] []
  | token {t : Token} {ps : List (Piece Bare)} {row : Row} : Spread ps row →
      Spread (.token t :: ps) (.mk () (.leaf t) :: row)
  | name {t : Token} {ps : List (Piece Bare)} {row : Row} : Spread ps row →
      Spread (.name t :: ps) (.mk () (.column ⟨none, none, t⟩) :: row)
  | table {s : Option Token} {n : Token} {ps : List (Piece Bare)} {row : Row} : Spread ps row →
      Spread (.child (.mk () (.table ⟨s, n⟩)) :: ps) (.mk () (.column ⟨none, s, n⟩) :: row)
  | whole {t : Bare} {ps : List (Piece Bare)} {row : Row} : t.kind.isPhrase = false → Spread ps row →
      Spread (.child t :: ps) (t :: row)
  | phrase {n : Node Bare} {qs ps : List (Piece Bare)} {front row : Row} : n.kind.isPhrase = true →
      n.Written qs → Spread qs front → Spread ps row → Spread (.child (.mk () n) :: ps) (front ++ row)

namespace Spread

theorem append (spread : Spread ps row) (spread' : Spread qs row') : Spread (ps ++ qs) (row ++ row') := by
  induction spread with
  | nil => exact spread'
  | token _ ih => exact .token ih
  | name _ ih => exact .name ih
  | table _ ih => exact .table ih
  | whole plain _ ih => exact .whole plain ih
  | phrase isPhrase written inner _ _ ih =>
    rw [List.append_assoc]
    exact .phrase isPhrase written inner ih

/-- What pieces stand for one after the other. -/
theorem of_append (spread : Spread (ps ++ qs) row) :
    ∃ front back, row = front ++ back ∧ Spread ps front ∧ Spread qs back := by
  induction ps generalizing row with
  | nil => exact ⟨[], row, rfl, .nil, spread⟩
  | cons p ps ih =>
    cases spread with
    | token spread =>
      obtain ⟨front, back, rfl, first, second⟩ := ih spread
      exact ⟨_ :: front, back, rfl, .token first, second⟩
    | name spread =>
      obtain ⟨front, back, rfl, first, second⟩ := ih spread
      exact ⟨_ :: front, back, rfl, .name first, second⟩
    | table spread =>
      obtain ⟨front, back, rfl, first, second⟩ := ih spread
      exact ⟨_ :: front, back, rfl, .table first, second⟩
    | whole plain spread =>
      obtain ⟨front, back, rfl, first, second⟩ := ih spread
      exact ⟨_ :: front, back, rfl, .whole plain first, second⟩
    | phrase isPhrase written inner spread =>
      obtain ⟨front, back, rfl, first, second⟩ := ih spread
      exact ⟨_, back, (List.append_assoc _ _ _).symm, .phrase isPhrase written inner first, second⟩

/-- Trees that are no phrases stand for themselves. -/
theorem wholes (plain : ∀ t ∈ row, t.kind.isPhrase = false) : Spread (row.map .child) row := by
  induction row with
  | nil => exact .nil
  | cons t row ih =>
    obtain ⟨here, behind⟩ := List.forall_mem_cons.mp plain
    exact .whole here (ih behind)

/-- A tree that is no phrase and no table stands for itself. -/
theorem of_whole {t : Bare} (plain : t.kind.isPhrase = false) (other : t.kind ≠ .table)
    (spread : Spread (.child t :: ps) row) : ∃ back, row = t :: back ∧ Spread ps back := by
  cases spread with
  | table => exact absurd rfl other
  | whole _ spread => exact ⟨_, rfl, spread⟩
  | phrase isPhrase => exact absurd (isPhrase.symm.trans plain) nofun

/-- What a phrase stands for, its pieces stand for. -/
theorem of_phrase {n : Node Bare} (isPhrase : n.kind.isPhrase = true) (spread : Spread (.child (.mk () n) :: ps) row) :
    ∃ qs, n.Written qs ∧ Spread (qs ++ ps) row := by
  cases spread with
  | table => cases isPhrase
  | whole plain => exact absurd (isPhrase.symm.trans plain) nofun
  | phrase _ written inner spread => exact ⟨_, written, inner.append spread⟩

/-- The pieces of a folded phrase stand for what the trees that it was made from stand for. -/
theorem of_matches {ps : List (Piece (Origin Bare))} {as : Row} (matched : Rule.MatchesAll Tree.node ps as)
    (spread : Spread (as.map .child) row) : Spread (ps.map (Piece.map (Origin.bare id))) row := by
  induction matched generalizing row with
  | nil => exact spread
  | @cons p a ps as made _ ih =>
    obtain ⟨front, back, rfl, first, behind⟩ := @of_append [.child a] _ _ spread
    refine @append [p.map (Origin.bare id)] _ _ _ ?_ (ih behind)
    have alone (plain : a.kind.isPhrase = false) (other : a.kind ≠ .table) : front = [a] := by
      obtain ⟨_, rfl, none⟩ := first.of_whole plain other
      cases none
      rfl
    cases made with
    | leaf shown =>
      rw [alone (by rw [Tree.kind, shown]; rfl) (by simp [Tree.kind, shown, Node.kind])]
      obtain ⟨⟨⟩, n⟩ := a
      obtain rfl : n = _ := shown
      exact .token .nil
    | name shown =>
      rw [alone (by rw [Tree.kind, shown]; rfl) (by simp [Tree.kind, shown, Node.kind])]
      obtain ⟨⟨⟩, n⟩ := a
      obtain rfl : n = _ := shown
      exact .name .nil
    | sibling => exact first
    | table shown =>
      rw [alone (by rw [Tree.kind, shown]; rfl) (by simp [Tree.kind, shown, Node.kind])]
      obtain ⟨⟨⟩, n⟩ := a
      obtain rfl : n = _ := shown
      exact .table .nil

end Spread

/-- Where phrases were folded, the row stands for the one before. -/
theorem RestsAll.spread (rests : RestsAll Rule.phraseRules μ row) (plain : ∀ t ∈ μ, t.kind.isPhrase = false) :
    Spread (row.map .child) μ := by
  refine rests.keeps (I := fun row => Spread (row.map .child) μ) (fun rule listed left here right fold answer spread => ?_)
    (Spread.wholes plain)
  obtain ⟨back, ahead, covers⟩ := Rule.apply_covers answer
  obtain ⟨ps, written, matched⟩ := covers.written
  have left_eq : left = back ++ fold.left := covers.left
  have right_eq : right = ahead ++ fold.right := covers.right
  rw [left_eq, right_eq, show (back ++ fold.left).reverse ++ here :: (ahead ++ fold.right) =
    fold.left.reverse ++ ((back.reverse ++ here :: ahead) ++ fold.right) by simp, List.map_append,
    List.map_append] at spread
  obtain ⟨A, rest, rfl, before, spread⟩ := spread.of_append
  obtain ⟨taken, B, rfl, made, behind⟩ := spread.of_append
  rw [Fold.row, List.map_append, List.map_cons]
  refine before.append (.phrase ?_ (written.map _) (made.of_matches matched) behind)
  rw [Node.kind_map, Rule.apply_kind answer]
  revert listed
  cases rule <;> decide

/-! ## Stretches between edges -/

/-- Whether no rule on operands looks at leaves of a kind. -/
def sunders (kind : TokenKind) : Bool := !Rule.beside kind

/-- Pieces stand for a stretch of a row, with nothing on either side that a rule on operands looks at. -/
def Stands (μ : Row) (ps : List (Piece Bare)) : Prop :=
  ∃ A front B, μ = A ++ front ++ B ∧ Rule.Edge Tree.node sunders A.reverse ∧
    Rule.Edge Tree.node sunders B ∧ Spread ps front

theorem edge_reverse_concat {A : Row} {t : Token} (sunder : sunders t.kind = true) :
    Rule.Edge Tree.node sunders (A ++ [Tree.mk () (.leaf t)]).reverse := by
  rw [List.reverse_concat]
  exact Rule.edge_cons.mpr ⟨t, rfl, sunder⟩

namespace Stands

/-- Pieces before such a leaf and pieces behind it stand apart. -/
theorem cut {t : Token} (stands : Stands μ (ps ++ .token t :: qs)) (sunder : sunders t.kind = true) :
    Stands μ ps ∧ Stands μ qs := by
  obtain ⟨A, whole, B, rfl, starts, ends, spread⟩ := stands
  obtain ⟨front, rest, rfl, before, spread⟩ := spread.of_append
  cases spread with
  | @token _ _ back behind =>
    refine ⟨⟨A, front, .mk () (.leaf t) :: back ++ B, by simp, starts, Rule.edge_cons.mpr ⟨t, rfl, sunder⟩, before⟩,
      ⟨A ++ front ++ [Tree.mk () (.leaf t)], back, B, by simp, edge_reverse_concat sunder, ends, behind⟩⟩

/-- Pieces behind such leaves stand apart. -/
theorem behind {ts : List Token} (stands : Stands μ (ts.map .token ++ qs)) (sunder : ∀ t ∈ ts, sunders t.kind = true) :
    Stands μ qs := by
  induction ts with
  | nil => exact stands
  | cons t ts ih =>
    obtain ⟨here, others⟩ := List.forall_mem_cons.mp sunder
    exact ih (@cut [] _ _ _ stands here).2 others

/-- A phrase is taken apart where it stands. -/
theorem opened {n : Node Bare} (stands : Stands μ (ps ++ .child (.mk () n) :: qs)) (isPhrase : n.kind.isPhrase = true) :
    ∃ rs, n.Written rs ∧ Stands μ (ps ++ (rs ++ qs)) := by
  obtain ⟨A, whole, B, rfl, starts, ends, spread⟩ := stands
  obtain ⟨front, rest, rfl, before, spread⟩ := spread.of_append
  obtain ⟨rs, written, inner⟩ := spread.of_phrase isPhrase
  exact ⟨rs, written, A, front ++ rest, B, rfl, starts, ends, before.append inner⟩

/-- The entries of a list stand apart. -/
theorem listed {β : Type} {entry : β → List (Piece Bare) → Prop} {bs : List β} (entries : Listed entry bs ps)
    (stands : Stands μ ps) : ∀ b ∈ bs, ∃ rs, entry b rs ∧ Stands μ rs := by
  induction entries with
  | single first =>
    intro b mem
    cases List.mem_singleton.mp mem
    exact ⟨_, first, stands⟩
  | @cons b bs comma ps qs first isComma _ ih =>
    have sunder : sunders comma.kind = true := by rw [isComma]; rfl
    obtain ⟨here, behind⟩ := stands.cut sunder
    exact List.forall_mem_cons.mpr ⟨⟨_, first, here⟩, ih behind⟩

end Stands

/-! ## Clauses -/

/-- A clause or a statement stands apart behind its first word. -/
def Opened (μ : Row) (n : Node Bare) : Prop :=
  ∃ word rest, n.Written (.token word :: rest) ∧ Stands μ rest

/-- Where the sub-node of a clause or a statement stands. -/
inductive Placed (μ : Row) (c : Bare) : Prop
  | leaf : c.kind = .tokenLeaf → Placed μ c
  | table : c.kind = .table → Placed μ c
  /-- An operand or a conjunction stands alone. -/
  | alone : c.kind.isExpression = true → Stands μ [.child c] → Placed μ c
  /-- A bracket that is a source may have an alias behind it. -/
  | source {rest : List (Piece Bare)} : c.kind = .bracket → Stands μ (.child c :: rest) → Placed μ c
  | clause : c.kind.isClause = true → Opened μ c.node → Placed μ c

theorem sunders_of_isJoinModifier {kind : TokenKind} (modifier : kind.isJoinModifier = true) : sunders kind = true := by
  cases kind <;> first | rfl | cases modifier

/-- A clause or a statement starts with a word at which no rule on operands looks. -/
theorem written_clause {n : Node Bare} {glance : Bare → Glance} (written : n.Written ps) (slots : n.Slots glance)
    (clause : n.kind.isClause = true) :
    ∃ word rest, ps = .token word :: rest ∧ sunders word.kind = true := by
  have word {t : Token} {kind : TokenKind} (same : t.kind = kind) (sunder : sunders kind = true) :
      sunders t.kind = true := same ▸ sunder
  cases written with
  | fromClause => exact ⟨_, _, rfl, word slots.1 rfl⟩
  | join =>
    obtain ⟨⟨modifiers, last, keywords, isJoin, areModifiers⟩, _⟩ := slots
    rw [keywords]
    cases modifiers with
    | nil => exact ⟨_, _, rfl, word isJoin rfl⟩
    | cons m modifiers =>
      refine ⟨_, _, rfl, ?_⟩
      have isModifier := areModifiers m List.mem_cons_self
      exact sunders_of_isJoinModifier isModifier
  | whereClause => exact ⟨_, _, rfl, word slots.1 rfl⟩
  | havingClause => exact ⟨_, _, rfl, word slots.1 rfl⟩
  | groupBy => exact ⟨_, _, rfl, word slots.1 rfl⟩
  | orderBy => exact ⟨_, _, rfl, word slots.1 rfl⟩
  | select => exact ⟨_, _, rfl, word slots.1 rfl⟩
  | update => exact ⟨_, _, rfl, word slots.1 rfl⟩
  | _ => cases clause

/-- A leaf at which no rule on operands looks stands for itself. -/
theorem Stands.leaf {t : Token} (stands : Stands μ (ps ++ .child (.mk () (.leaf t)) :: qs)) :
    Stands μ (ps ++ .token t :: qs) := by
  obtain ⟨A, whole, B, rfl, starts, ends, spread⟩ := stands
  obtain ⟨front, rest, rfl, before, spread⟩ := spread.of_append
  have other : (Tree.mk () (.leaf t) : Bare).kind ≠ .table := by exact nofun
  obtain ⟨back, rfl, behind⟩ := spread.of_whole rfl other
  exact ⟨A, _, B, rfl, starts, ends, before.append (.token behind)⟩

/-- Clauses one behind the other, with such leaves between them perhaps, stand apart behind their first
words. -/
theorem Stands.clauses {cs : Row} {glance : Bare → Glance} (stands : Stands μ (ps ++ cs.map .child))
    (clauses : ∀ c ∈ cs, (∃ t, c.node = .leaf t ∧ sunders t.kind = true) ∨
      c.kind.isClause = true ∧ c.node.Slots glance) :
    Stands μ ps ∧ ∀ c ∈ cs, Placed μ c := by
  induction cs generalizing ps with
  | nil => exact ⟨by simpa using stands, nofun⟩
  | cons c cs ih =>
    obtain ⟨here, others⟩ := List.forall_mem_cons.mp clauses
    obtain ⟨⟨⟩, n⟩ := c
    rcases here with ⟨t, rfl, sunder⟩ | ⟨clause, slots⟩
    · obtain ⟨here, stands⟩ := stands.leaf.cut sunder
      exact ⟨here, List.forall_mem_cons.mpr ⟨.leaf rfl, (@ih [] stands others).2⟩⟩
    · obtain ⟨rs, written, stands⟩ := stands.opened (NodeKind.isPhrase_of_isClause clause)
      obtain ⟨word, rest, rfl, sunder⟩ := written_clause written slots clause
      obtain ⟨here, stands⟩ := stands.cut sunder
      obtain ⟨inner, behind⟩ := ih stands others
      exact ⟨here, List.forall_mem_cons.mpr ⟨.clause clause ⟨word, rest, written, inner⟩, behind⟩⟩

/-- Whatever stands in a clause or a statement that stands apart stands apart itself. -/
theorem Opened.children {n : Node Bare} (opened : Opened μ n) (slots : n.Slots (Rule.glance Tree.node))
    (clause : n.kind.isClause = true) (below : ∀ c ∈ n.children, c.node.Slots (Rule.glance Tree.node)) :
    ∀ c ∈ n.children, Placed μ c := by
  obtain ⟨word, rest, written, stands⟩ := opened
  have source {c : Bare} {qs : List (Piece Bare)} (isSource : (Rule.glance Tree.node c).IsSource)
      (stands : Stands μ (.child c :: qs)) : Placed μ c :=
    isSource.elim .table (.source · stands)
  have of_kind {c : Bare} {kind : NodeKind} (same : (Rule.glance Tree.node c).kind = kind)
      (isClause : kind.isClause = true) : c.kind.isClause = true := by
    rw [show c.kind = kind from same]
    exact isClause
  generalize whole : Piece.token word :: rest = ps at written
  cases written with
  | @fromClause c as named =>
    obtain ⟨_, rfl⟩ := List.cons.inj whole
    simpa using source slots.2.1 stands
  | @join j as named =>
    obtain ⟨⟨modifiers, last, keywords, isJoin, areModifiers⟩, isSource, _, condition⟩ := slots
    have stands : Stands μ (.child j.source :: as ++ (j.condition.map Restriction.pieces).getD []) := by
      have word_sunders : sunders last.kind = true := by rw [isJoin]; rfl
      rw [keywords] at whole
      cases modifiers with
      | nil =>
        obtain ⟨_, rfl⟩ := List.cons.inj whole
        exact stands
      | cons m modifiers =>
        obtain ⟨_, rfl⟩ := List.cons.inj whole
        rw [List.append_eq, List.append_eq, List.append_assoc] at stands
        refine stands.behind (List.forall_mem_append.mpr ⟨fun t mem => ?_, by simpa using word_sunders⟩)
        exact sunders_of_isJoinModifier (areModifiers t (List.mem_cons_of_mem _ mem))
    rw [Node.children_join]
    refine List.forall_mem_cons.mpr ⟨source isSource stands, fun e mem => ?_⟩
    obtain ⟨c, shown, rfl⟩ : ∃ c, j.condition = some c ∧ c.expression = e := by simpa using mem
    rw [shown] at stands
    obtain ⟨sunder, isOperand⟩ : sunders c.keyword.kind = true ∧ c.expression.kind.isExpression = true := by
      rcases condition c shown with ⟨isOn, isOperand⟩ | ⟨isUsing, isBracket⟩
      · exact ⟨by rw [isOn]; rfl, isOperand⟩
      · exact ⟨by rw [isUsing]; rfl, by rw [show c.expression.kind = _ from isBracket]; rfl⟩
    exact .alone isOperand (Stands.cut stands sunder).2
  | whereClause c =>
    obtain ⟨_, rfl⟩ := List.cons.inj whole
    simpa using Placed.alone slots.2 stands
  | havingClause c =>
    obtain ⟨_, rfl⟩ := List.cons.inj whole
    simpa using Placed.alone slots.2 stands
  | @groupBy g ps entries =>
    obtain ⟨_, rfl⟩ := List.cons.inj whole
    have stands := (@Stands.behind _ _ [g.byKeyword] stands (by simp [slots.2.1, sunders, Rule.beside])).listed entries
    rw [Node.children_groupBy]
    intro e mem
    obtain ⟨_, rfl, alone⟩ := stands e mem
    exact .alone (slots.2.2 e mem) alone
  | @orderBy o ps entries =>
    obtain ⟨_, rfl⟩ := List.cons.inj whole
    have stands := (@Stands.behind _ _ [o.byKeyword] stands (by simp [slots.2.1, sunders, Rule.beside])).listed entries
    rw [Node.children_orderBy, List.forall_mem_map]
    intro i mem
    obtain ⟨_, rfl, behind⟩ := stands i mem
    obtain ⟨isOperand, direction⟩ := slots.2.2 i mem
    refine .alone isOperand ?_
    cases d : i.direction with
    | none => simpa [d, Piece.ofToken?] using behind
    | some t =>
      rw [d] at behind
      have sunder : sunders t.kind = true := by
        have := direction t d
        revert this
        generalize t.kind = kind
        cases kind <;> decide
      exact (Stands.cut behind sunder).1
  | @select s ps entries =>
    obtain ⟨isSelect, isDistinct, items, from_, joins, filter, grouping, having_, ordering⟩ := slots
    obtain ⟨_, rfl⟩ := List.cons.inj whole
    have clauses : ∀ c ∈ s.source.toList ++ s.joins ++ s.filter.toList ++ s.grouping.toList ++ s.having.toList ++
        s.ordering.toList, c.kind.isClause = true := by
      simp only [List.append_assoc, List.forall_mem_append, Option.mem_toList]
      exact ⟨fun c mem => of_kind (from_ c mem) rfl, fun c mem => of_kind (joins c mem) rfl,
        fun c mem => of_kind (filter c mem) rfl, fun c mem => of_kind (grouping c mem) rfl,
        fun c mem => of_kind (having_ c mem) rfl, fun c mem => of_kind (ordering c mem) rfl⟩
    rw [Node.children_select] at below ⊢
    simp only [List.append_assoc] at clauses below stands ⊢
    rw [List.forall_mem_append] at below ⊢
    obtain ⟨list, placed⟩ := @Stands.clauses (Piece.ofToken? s.distinct ++ ps) _ _ _ (by
      simpa [Piece.ofChild?] using stands) fun c mem => .inr ⟨clauses c mem, below.2 c mem⟩
    refine ⟨List.forall_mem_map.mpr fun i mem => ?_, placed⟩
    have list := Stands.behind list fun t mem => by rw [isDistinct t (by simpa using mem)]; rfl
    obtain ⟨_, @⟨e, _, as, named⟩, entry⟩ := list.listed entries i mem
    refine .alone (items _ mem).1 ?_
    cases named with
    | none => exact entry
    | bare required => cases required
    | worded isAs => exact (Stands.cut entry (by rw [isAs]; rfl)).1
  | @update u as ps named entries =>
    obtain ⟨isUpdate, isTable, _, joins, isSet, assignments, filter, ordering⟩ := slots
    obtain ⟨_, rfl⟩ := List.cons.inj whole
    rw [Node.children_update] at below ⊢
    simp only [List.append_assoc, List.cons_append, List.forall_mem_cons, List.forall_mem_append] at below stands ⊢
    obtain ⟨_, belowJoins, _, belowClauses⟩ := below
    have ahead := @Stands.cut (.child u.table :: (as ++ u.joins.map .child)) _ _ _ (by simpa using stands) (by rw [isSet]; rfl)
    have clauses : ∀ c ∈ u.filter.toList ++ u.ordering.toList, c.kind.isClause = true := by
      simp only [List.forall_mem_append, Option.mem_toList]
      exact ⟨fun c mem => of_kind (filter c mem) rfl, fun c mem => of_kind (ordering c mem) rfl⟩
    obtain ⟨_, placedJoins⟩ := @Stands.clauses (.child u.table :: as) _ _ _ ahead.1
      fun c mem => .inr ⟨of_kind (joins c mem) rfl, belowJoins c mem⟩
    obtain ⟨list, placed⟩ := Stands.clauses (by simpa [Piece.ofChild?] using ahead.2)
      fun c mem => .inr ⟨clauses c mem, List.forall_mem_append.mpr belowClauses c mem⟩
    refine ⟨.table isTable, placedJoins, fun e mem => ?_, List.forall_mem_append.mp placed⟩
    obtain ⟨_, rfl, alone⟩ := list.listed entries e mem
    refine .alone ?_ alone
    rw [show e.kind = _ from Rule.kind_of_assigns (assignments e mem)]
    rfl
  | _ => cases clause

/-! ## Conjunctions -/

/-- The operands of a conjunction that stands alone stand alone. -/
theorem Stands.juncts {c : Conjunction Bare} {glance : Bare → Glance}
    (stands : Stands μ [.child (.mk () (.conjunction c))]) (slots : (Node.conjunction c).Slots glance) :
    ∀ j ∈ c.parts, Stands μ [.child j.expression] := by
  obtain ⟨_, noWord, words⟩ := slots
  have chain (e : Bare) {js : List (Junct Bare)}
      (words : ∀ j ∈ js, ∃ t, j.operator = some t ∧ Rule.joinsOperands t.kind = true)
      (stands : Stands μ (.child e :: js.flatMap fun j => Piece.ofToken? j.operator ++ [Piece.child j.expression])) :
      Stands μ [.child e] ∧ ∀ j ∈ js, Stands μ [.child j.expression] := by
    induction js generalizing e with
    | nil => exact ⟨stands, nofun⟩
    | cons j js ih =>
      obtain ⟨⟨t, shown, joins⟩, words⟩ := List.forall_mem_cons.mp words
      have sunder : sunders t.kind = true := by
        revert joins
        generalize t.kind = kind
        cases kind <;> decide
      rw [List.flatMap_cons, shown] at stands
      obtain ⟨here, behind⟩ := @Stands.cut [.child e] _ _ _ stands sunder
      obtain ⟨first, others⟩ := ih j.expression words behind
      exact ⟨here, List.forall_mem_cons.mpr ⟨first, others⟩⟩
  obtain ⟨_, ⟨⟩, stands⟩ := @Stands.opened [] _ _ _ stands rfl
  rw [Conjunction.parts, List.flatMap_cons, noWord] at stands
  obtain ⟨first, others⟩ := chain c.first.expression words (by simpa [Piece.ofToken?] using stands)
  exact List.forall_mem_cons.mpr ⟨first, others⟩

end Row

end SqlFold
