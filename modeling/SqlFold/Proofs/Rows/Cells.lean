import SqlFold.Proofs.Rows.Lifting

/-!
# Statements made of leaves again

A row that starts with a word which no rule on terms looks at can be put behind every cell (`Row.Joins`). So it
is with the rows of clauses and statements (`Row.joins_layout`, `Row.joins_staged`), and with them a statement,
or what stands between brackets, is made of leaves and brackets by all rules (`Row.lifts_segment`).
-/

namespace SqlFold

namespace Row

open Layout

variable {P : Token → Prop} {row row' A B : Row}

/-! ## Rows behind cells -/

/-- Whether no rule on terms looks at leaves of a kind. -/
def separates (kind : TokenKind) : Bool := sunders kind && !Rule.joinsOperands kind

theorem divideAll_terms : DivideAll (Rule.operandRules ++ [Rule.conjunction]) separates := by
  intro rule listed
  refine ⟨?_, fun kind separate => ?_⟩
  · rintro rfl
    revert listed
    decide
  · revert listed separate
    cases rule <;> cases kind <;> decide

theorem cell_nil : Cell P [] := ⟨[], restsAll_nil _, trivial, nofun⟩

theorem Cell.join {t : Token} (cell : Cell P A) (cell' : Cell P B) (holds : P t) (separate : separates t.kind = true) :
    Cell P (A ++ .mk () (.leaf t) :: B) := by
  obtain ⟨ρ, lifts⟩ := cell
  obtain ⟨ρ', lifts'⟩ := cell'
  exact ⟨_, lifts.join lifts' holds (Bool.and_eq_true_iff.mp separate).1 (divideAll_terms.divides rfl separate)⟩

/-- A row that makes a cell behind every cell. -/
def Joins (P : Token → Prop) (row : Row) : Prop := ∀ A, Cell P A → Cell P (A ++ row)

namespace Joins

theorem nil : Joins P [] := fun A cell => by simpa using cell

theorem append (joins : Joins P row) (joins' : Joins P row') : Joins P (row ++ row') := fun A cell => by
  rw [← List.append_assoc]
  exact joins' _ (joins A cell)

theorem leaf {t : Token} (holds : P t) (separate : separates t.kind = true) (cell : Cell P row) :
    Joins P (.mk () (.leaf t) :: row) := fun _ before => before.join cell holds separate

theorem cell (joins : Joins P row) : Cell P row := joins [] cell_nil

theorem leaves {ts : List Token} (holds : ∀ t ∈ ts, P t ∧ separates t.kind = true) : Joins P (Row.leaves ts) := by
  induction ts with
  | nil => exact nil
  | cons t ts ih =>
    obtain ⟨here, holds⟩ := List.forall_mem_cons.mp holds
    exact (leaf here.1 here.2 cell_nil).append (ih holds)

/-- The last of some words stands before a cell. -/
theorem words {ts : List Token} {t : Token} (holds : ∀ u ∈ t :: ts, P u ∧ separates u.kind = true) (cell : Cell P row) :
    Joins P (Row.leaves (t :: ts) ++ row) := by
  induction ts generalizing t with
  | nil =>
    have here := holds t List.mem_cons_self
    exact leaf here.1 here.2 cell
  | cons u ts ih =>
    obtain ⟨here, holds⟩ := List.forall_mem_cons.mp holds
    exact (leaf here.1 here.2 cell_nil).append (ih holds)

theorem flatMap {α : Type} {as : List α} {f : α → Row} (joins : ∀ a ∈ as, Joins P (f a)) : Joins P (as.flatMap f) := by
  induction as with
  | nil => exact nil
  | cons a as ih =>
    obtain ⟨here, joins⟩ := List.forall_mem_cons.mp joins
    exact here.append (ih joins)

end Joins

/-- The pieces of an entry stand in the list. -/
theorem mem_pieces_listed {entries : List (Spaced Bare)} {entry : Spaced Bare} (mem : entry ∈ entries) {p : Piece Bare}
    (inside : p ∈ pieces entry) : p ∈ pieces (Layout.listed entries) := by
  induction entries with
  | nil => cases mem
  | cons first entries ih =>
    cases entries with
    | nil => exact List.mem_singleton.mp mem ▸ inside
    | cons second entries =>
      rw [Layout.listed_cons_cons, pieces_append, pieces_cons, List.mem_append, List.mem_cons]
      rcases List.mem_cons.mp mem with rfl | later
      · exact .inl inside
      · exact .inr (.inr (ih later))

/-- The entries of a list stand in a cell. -/
theorem cell_listed {entries : List (Spaced Bare)} (cells : ∀ entry ∈ entries, Cell P (Layout.row entry))
    (comma : ∀ t, .token t ∈ pieces (Layout.listed entries) → P t) : Cell P (Layout.row (Layout.listed entries)) := by
  induction entries with
  | nil => exact cell_nil
  | cons entry entries ih =>
    obtain ⟨here, cells⟩ := List.forall_mem_cons.mp cells
    cases entries with
    | nil => exact here
    | cons entry' entries =>
      rw [Layout.listed_cons_cons] at comma ⊢
      rw [row_append, row_cons]
      simp only [pieces_append, pieces_cons] at comma
      exact here.join (ih cells fun t mem => comma t (by simp [mem])) (comma .comma (by simp)) rfl

/-- A source stands in a cell, with its alias. -/
theorem cell_source {c : Bare} {aliasName : Option Token} (source : (Rule.glance Tree.node c).IsSource)
    (restores : c.node.Restores P) (term : c.kind.isExpression = true → IsTerm P c)
    (isSymbol : ∀ t ∈ aliasName, t.kind = .symbol) (holds : ∀ t ∈ aliasName, P t) :
    Cell P (Piece.bare (.child c) :: aliasRow aliasName) := by
  obtain ⟨⟨⟩, n⟩ := c
  rcases source with table | bracket
  · cases n with
    | table n =>
      obtain ⟨⟨_, symbols, _⟩, _, words⟩ := restores
      refine cell_table isSymbol holds symbols fun t mem => words t (.inl ?_)
      have mem : .token t ∈ pieces (tight ((n.schema.toList ++ [n.name]).intersperse .point) : Spaced Bare) := by
        simpa using mem
      cases shown : n.schema <;> simpa [Tree.node, Node.layout, dotted, shown] using mem
    | _ => cases table
  · cases n with
    | bracket p => exact cell_bracket isSymbol holds ((term rfl).resolve_left (by rintro ⟨⟩)).proper
    | _ => cases bracket

/-! ## Clauses -/

theorem separates_words {kind : NodeKind} : ∀ word ∈ Rule.words kind, separates word = true := by
  cases kind <;> decide

/-- An expression of a layer stands in a cell. -/
theorem cell_child {n : Node Bare} (reads : ∀ c ∈ n.children, c.kind.isExpression = true → IsTerm P c)
    (below : ∀ c ∈ n.children, c.node.Restores P) {e : Bare} (listed : e ∈ n.children)
    (isExpression : (Rule.glance Tree.node e).kind.isExpression = true) :
    Cell P [Piece.bare (.child e)] := by
  rw [Piece.bare_expression isExpression]
  exact (reads e listed isExpression).cell isExpression (below e listed)

theorem mem_labelled {aliasName : Option Token} {t : Token} (shown : t ∈ aliasName) :
    .name t ∈ pieces (labelled aliasName : Spaced Bare) := by
  obtain rfl : aliasName = some t := shown
  exact List.mem_singleton_self _

/-- The row of a clause can be put behind every cell. -/
theorem joins_layout {n : Node Bare} (clause : n.kind ∈ Rule.clauseRules.map Rule.makes) (restores : n.Restores P)
    (below : ∀ c ∈ n.children, c.node.Restores P) : Joins P (Layout.row (n.layout Render.isGlued)) := by
  obtain ⟨⟨_, slots, _⟩, reads, holds⟩ := restores
  have word {t : Token} {kind : TokenKind} (nodeKind : NodeKind) (mem : .token t ∈ pieces (n.layout Render.isGlued))
      (same : t.kind = kind) (own : kind ∈ Rule.words nodeKind) : P t ∧ separates t.kind = true :=
    ⟨holds t (.inl mem), same ▸ separates_words kind own⟩
  cases n with
  | fromClause c =>
    obtain ⟨isFrom, source, isSymbol⟩ := slots
    have whole : Layout.row ((Node.fromClause c).layout Render.isGlued) =
        .mk () (.leaf c.keyword) :: (Piece.bare (.child c.source) :: aliasRow c.aliasName) := by simp [Node.layout]
    have start := word (t := c.keyword) .fromClause (by simp [Node.layout]) isFrom (by decide)
    rw [whole]
    refine Joins.leaf start.1 start.2 (cell_source source (below c.source (by simp)) (reads rfl c.source (by simp)) isSymbol
      fun t shown => holds t (.inr ?_))
    simp [Node.layout, mem_labelled shown]
  | join j =>
    obtain ⟨⟨modifiers, last, keywords, isJoin, areModifiers⟩, source, isSymbol, conditions⟩ := slots
    have whole : Layout.row ((Node.join j).layout Render.isGlued) = leaves modifiers ++
        (.mk () (.leaf last) :: (Piece.bare (.child j.source) :: aliasRow j.aliasName)) ++
          Layout.row (j.condition.toList.flatMap fun c => [(true, .token c.keyword), (true, .child c.expression)]) := by
      simp [Node.layout, keywords, leaves]
    have modifier : ∀ t ∈ modifiers, P t ∧ separates t.kind = true := fun t mem =>
      word .join (by simp [Node.layout, keywords, mem]) rfl (Rule.mem_words_join (areModifiers t mem))
    have isLast := word (t := last) .join (by simp [Node.layout, keywords]) isJoin (by decide)
    rw [whole]
    refine ((Joins.leaves modifier).append (Joins.leaf isLast.1 isLast.2 (cell_source source (below j.source (by simp))
      (reads rfl j.source (by simp)) isSymbol fun t shown => holds t (.inr ?_)))).append ?_
    · simp [Node.layout, mem_labelled shown]
    · cases written : j.condition with
      | none => exact Joins.nil
      | some c =>
        have placed : c.expression ∈ (Node.join j).children := by simp [written]
        have keyword : .token c.keyword ∈ pieces ((Node.join j).layout Render.isGlued) := by simp [Node.layout, written]
        rcases conditions c written with ⟨isOn, operand⟩ | ⟨isUsing, bracket⟩
        · have start := word .join keyword isOn (by decide)
          exact Joins.leaf start.1 start.2 (cell_child (reads rfl) below placed operand)
        · have start := word .join keyword isUsing (by decide)
          exact Joins.leaf start.1 start.2 (cell_child (reads rfl) below placed (by rw [bracket]; rfl))
  | whereClause c =>
    obtain ⟨isWhere, operand⟩ := slots
    have start := word (t := c.keyword) .whereClause (by simp [Node.layout, restriction]) isWhere (by decide)
    exact Joins.leaf start.1 start.2 (cell_child (reads rfl) below (by simp) operand)
  | havingClause c =>
    obtain ⟨isHaving, operand⟩ := slots
    have start := word (t := c.keyword) .havingClause (by simp [Node.layout, restriction]) isHaving (by decide)
    exact Joins.leaf start.1 start.2 (cell_child (reads rfl) below (by simp) operand)
  | groupBy g =>
    obtain ⟨isGroup, isBy, operands⟩ := slots
    have group := word (t := g.group) .groupBy (by simp [Node.layout]) isGroup (by decide)
    have by_ := word (t := g.byKeyword) .groupBy (by simp [Node.layout]) isBy (by decide)
    have cell : Cell P (Layout.row (Layout.listed (g.expressions.map fun e => [(true, .child e)]))) := by
      refine cell_listed (List.forall_mem_map.mpr fun e mem => ?_) fun t mem => holds t (.inl (by simp [Node.layout, mem]))
      exact cell_child (reads rfl) below (by simpa using mem) (operands e mem)
    have joins := @Joins.words _ _ [g.byKeyword] _ (List.forall_mem_cons.mpr ⟨group, List.forall_mem_singleton.mpr by_⟩) cell
    simpa [Node.layout] using joins
  | orderBy o =>
    obtain ⟨isOrder, isBy, items⟩ := slots
    have order := word (t := o.order) .orderBy (by simp [Node.layout]) isOrder (by decide)
    have by_ := word (t := o.byKeyword) .orderBy (by simp [Node.layout]) isBy (by decide)
    have cell : Cell P (Layout.row (Layout.listed (o.items.map fun i =>
        (true, .child i.expression) :: loose i.direction.toList))) := by
      refine cell_listed (List.forall_mem_map.mpr fun i mem => ?_) fun t mem => holds t (.inl (by simp [Node.layout, mem]))
      have direction : Joins P (leaves i.direction.toList) := Joins.leaves fun t shown => by
        have inside := mem_pieces_listed (List.mem_map.mpr ⟨i, mem, rfl⟩ : _ ∈ o.items.map fun i =>
          (true, Piece.child i.expression) :: loose i.direction.toList) (p := .token t) (by simpa using shown)
        refine word .orderBy ?_ rfl (Rule.mem_words_orderBy ((items i mem).2 t (Option.mem_toList.mp shown)))
        rw [Node.layout, pieces_append]
        exact List.mem_append_right _ inside
      have cell := cell_child (reads rfl) below (e := i.expression) (by simpa using ⟨i, mem, rfl⟩) (items i mem).1
      simpa using direction _ cell
    have joins := @Joins.words _ _ [o.byKeyword] _ (List.forall_mem_cons.mpr ⟨order, List.forall_mem_singleton.mpr by_⟩) cell
    simpa [Node.layout] using joins
  | _ => revert clause; simp [Rule.clauseRules, Rule.makes, Node.kind]

/-! ## Statements -/

theorem staged_append (pending : List Rule) (ps qs : List (Piece Bare)) :
    staged pending (ps ++ qs) = staged pending ps ++ staged pending qs := List.flatMap_append

/-- Where no clause stands nothing is taken apart. -/
theorem staged_plain {pending : List Rule} {ps : Spaced Bare}
    (plain : ∀ p ∈ pieces ps, ∀ c, p = .child c → c.kind ∉ pending.map Rule.makes) :
    staged pending (pieces ps) = Layout.row ps := by
  rw [staged, List.flatMap_congr fun p mem => stage_folded (plain p mem), ← List.map_eq_flatMap, map_bare_pieces]

/-- Clauses are taken apart one by one. -/
theorem joins_clauses {cs : Row} (clauses : ∀ c ∈ cs, c.kind ∈ Rule.clauseRules.map Rule.makes)
    (restores : ∀ c ∈ cs, c.All (Node.Restores P)) :
    Joins P (staged Rule.clauseRules (pieces (Layout.clauses cs))) := by
  rw [pieces_clauses, staged, List.flatMap_map]
  refine Joins.flatMap fun c mem => ?_
  rw [stage_pending (clauses c mem)]
  exact joins_layout (clauses c mem) (restores c mem).node fun d below => ((restores c mem).children d below).node

/-- The row of a statement can be put behind every cell. -/
theorem joins_staged {n : Node Bare} (statement : n.kind.isStatement = true) (restores : n.Restores P)
    (below : ∀ c ∈ n.children, c.All (Node.Restores P)) :
    Joins P (staged Rule.clauseRules (pieces (n.layout Render.isGlued))) := by
  obtain ⟨⟨_, slots, _⟩, reads, holds⟩ := restores
  have word {t : Token} {kind : TokenKind} (nodeKind : NodeKind) (mem : .token t ∈ pieces (n.layout Render.isGlued))
      (same : t.kind = kind) (own : kind ∈ Rule.words nodeKind) : P t ∧ separates t.kind = true :=
    ⟨holds t (.inl mem), same ▸ separates_words kind own⟩
  cases n with
  | select s =>
    have kinds := clauses_select slots
    obtain ⟨isSelect, isDistinct, items, _⟩ := slots
    have keyword : ∀ t ∈ s.keyword :: s.distinct.toList, P t ∧ separates t.kind = true := by
      refine List.forall_mem_cons.mpr ⟨word .select (by simp [Node.layout]) isSelect (by decide), fun t mem => ?_⟩
      rw [Option.mem_toList] at mem
      exact word .select (by simp [Node.layout, Option.mem_def.mp mem]) (isDistinct t mem) (by decide)
    have list : Cell P (Layout.row (Layout.listed (s.items.map projection))) := by
      refine cell_listed (List.forall_mem_map.mpr fun i mem => ?_) fun t mem => holds t (.inl (by simp [Node.layout, mem]))
      have placed : i.expression ∈ (Node.select s).children := by
        rw [Node.children_select]
        simpa using .inl ⟨i, mem, rfl⟩
      have cell := cell_child (reads rfl) (fun c mem => (below c mem).node) placed (items i mem).1
      obtain ⟨e, aliasName⟩ := i
      cases aliasName with
      | none => exact cell
      | some t =>
        have inside {p : Piece Bare} (inside : p ∈ pieces (projection ⟨e, some t⟩)) :
            p ∈ pieces ((Node.select s).layout Render.isGlued) := by
          have listed := mem_pieces_listed (List.mem_map.mpr ⟨_, mem, rfl⟩) inside
          simp [Node.layout, listed]
        have as := word (t := .aliasWord) .select (inside (by simp [projection])) rfl (by decide)
        have name := @cell_aliasRow P (some t) (items _ mem).2 fun u shown =>
          holds u (.inr (inside (by cases shown; simp [projection])))
        exact Joins.leaf as.1 as.2 name _ cell
    have clauses := joins_clauses kinds fun c mem => below c (by
      rw [Node.children_select]
      simp only [List.append_assoc, List.mem_append] at mem ⊢
      exact .inr mem)
    rw [Node.layout, pieces_append, staged_append, staged_plain (plain_projections fun i mem => (items i mem).1), row_append,
      row_words]
    exact (Joins.words keyword list).append clauses
  | update u =>
    have kinds := clauses_update slots
    obtain ⟨isUpdate, isTable, isSymbol, _, isSet, assigns, _⟩ := slots
    have keyword := word (t := u.keyword) .update (by simp [Node.layout]) isUpdate (by decide)
    have set := word (t := u.setKeyword) .update (by simp [Node.layout]) isSet (by decide)
    have target := @cell_source P _ u.aliasName (.inl isTable) (below u.table (by simp)).node
      (reads rfl u.table (by simp)) isSymbol fun t shown => holds t (.inr (by simp [Node.layout, mem_labelled shown]))
    have list : Cell P (Layout.row (Layout.listed (u.assignments.map fun e => [(true, .child e)]))) := by
      refine cell_listed (List.forall_mem_map.mpr fun e mem => ?_) fun t mem => holds t (.inl (by simp [Node.layout, mem]))
      refine cell_child (reads rfl) (fun c mem => (below c mem).node) (by simp [mem]) ?_
      rw [show (Rule.glance Tree.node e).kind = _ from Rule.kind_of_assigns (assigns e mem)]
      rfl
    have joined := joins_clauses kinds.1 fun c mem => below c (by simp [mem])
    have clauses := joins_clauses kinds.2 fun c mem => below c (by
      rw [Node.children_update]
      simp only [List.append_assoc, List.cons_append, List.mem_append, List.mem_cons] at mem ⊢
      exact .inr (.inr (.inr mem)))
    have whole : staged Rule.clauseRules (pieces ((Node.update u).layout Render.isGlued)) =
        (.mk () (.leaf u.keyword) :: (Piece.bare (.child u.table) :: aliasRow u.aliasName)) ++
          staged Rule.clauseRules (pieces (Layout.clauses u.joins)) ++
            (.mk () (.leaf u.setKeyword) :: Layout.row (Layout.listed (u.assignments.map fun e => [(true, .child e)]))) ++
              staged Rule.clauseRules (pieces (Layout.clauses (u.filter.toList ++ u.ordering.toList))) := by
      rw [Node.layout, pieces_append, staged_append, pieces_append, staged_append, pieces_append, staged_append,
        staged_plain (plain_target isTable), staged_plain (plain_assignments assigns)]
      simp
    rw [whole]
    exact (((Joins.leaf keyword.1 keyword.2 target).append joined).append (Joins.leaf set.1 set.2 list)).append clauses
  | _ => cases statement

/-- Clauses that are taken apart have the wording that they had. -/
theorem wording_staged (pending : List Rule) (n : Node Bare) :
    (staged pending (pieces (n.layout Render.isGlued))).wording = (Tree.mk () n).wording := by
  have stage (p : Piece Bare) : (stage pending p).wording = p.read Tree.wording := by
    have whole : wording [p.bare] = p.read Tree.wording := by simp [Piece.wording_bare]
    cases p with
    | child c =>
      obtain ⟨⟨⟩, n⟩ := c
      by_cases mem : n.kind ∈ pending.map Rule.makes
      · rw [stage_pending mem]
        exact wording_row n
      · rw [stage_folded (by rintro _ ⟨⟩; exact mem), whole]
    | _ => exact whole
  rw [staged, wording, List.flatMap_assoc, Tree.wording_mk]
  exact List.flatMap_congr fun p _ => stage p

/-! ## Stretches of a row -/

theorem Chained.exists_of_mem {Q : Option Bare → Bare → Prop} {previous : Option Bare} (chained : Chained Q previous row)
    {t : Bare} (mem : t ∈ row) : ∃ before, Q before t := by
  induction row generalizing previous with
  | nil => cases mem
  | cons u row ih =>
    rcases List.mem_cons.mp mem with rfl | later
    · exact ⟨previous, chained.1⟩
    · exact ih chained.2 later

/-- Terms with words and commas between them, and a statement at the end perhaps. -/
structure Segment (P : Token → Prop) (front : Row) (last : Option Bare) : Prop where
  cell : Cell P front
  idle : ∀ rule ∈ Rule.clauseRules ++ Rule.statementRules, Idle rule front
  statement : ∀ t ∈ last, t.kind.isStatement = true

/-- Rules that start nowhere come to rest at once. -/
theorem restsAll_of_idle {rules : List Rule} (idle : ∀ rule ∈ rules, Idle rule row) : RestsAll rules row row := by
  induction rules with
  | nil => exact .nil
  | cons rule rules ih =>
    obtain ⟨here, idle⟩ := List.forall_mem_cons.mp idle
    exact .cons (by simpa using (Turns.passes here .nil).rests) (ih idle)

/-- What the rules on clauses and statements fold a cell to is made of leaves and brackets. -/
theorem Cell.lifts {ν : Row} (cell : Cell P ν) (rests : RestsAll (Rule.clauseRules ++ Rule.statementRules) ν row)
    (words : ν.wording = row.wording) (points : ∀ t, P t → t.kind = .dot → t.lexeme = ".") :
    ∃ ρ, Lifts P Rule.standard.tail ρ row ∧ Alike row.wording ρ.wording := by
  obtain ⟨ρ, terms, fits, plain⟩ := cell
  have points : Points ρ := fun t mem u shown isPoint => by
    obtain ⟨previous, fit⟩ := fits.exists_of_mem mem
    cases fit with
    | leaf holds =>
      cases shown
      exact points u holds isPoint
    | span => cases shown
  refine ⟨ρ, ⟨terms.append rests, fits, plain⟩, ?_⟩
  rw [← words]
  exact terms.wording (List.Subset.refl _) points

/-- A statement, with terms before it perhaps, is made of leaves and brackets. -/
theorem Segment.lifts {front : Row} {last : Option Bare} (segment : Segment P front last)
    (restores : ∀ t ∈ last, t.All (Node.Restores P)) (points : ∀ t, P t → t.kind = .dot → t.lexeme = ".") :
    ∃ ρ, Lifts P Rule.standard.tail ρ (front ++ last.toList) ∧ Alike (wording (front ++ last.toList)) ρ.wording := by
  cases last with
  | none => exact segment.cell.lifts (by simpa using restsAll_of_idle segment.idle) (by simp) points
  | some t =>
    obtain ⟨⟨⟩, n⟩ := t
    have all := restores _ rfl
    have cell := joins_staged (segment.statement _ rfl) all.node all.children _ segment.cell
    refine cell.lifts (restsAll_staged (segment.statement _ rfl) all.node.regular
      (fun c mem => (all.children c mem).node.regular) segment.idle) ?_ points
    rw [wording_append, wording_append, wording_staged]
    exact congrArg (front.wording ++ ·) (List.append_nil _).symm

/-- A clause that stands by itself is made of leaves and brackets. -/
theorem lifts_clause {c : Bare} (clause : c.kind ∈ Rule.clauseRules.map Rule.makes) (restores : c.All (Node.Restores P))
    (points : ∀ t, P t → t.kind = .dot → t.lexeme = ".") :
    ∃ ρ, Lifts P Rule.standard.tail ρ [c] ∧ Alike (wording [c]) ρ.wording := by
  obtain ⟨_, slots, nests⟩ := restores.node.regular
  have isClause : IsClause c := ⟨clause, slots, nests⟩
  have cell := (joins_layout clause restores.node fun d listed => (restores.children d listed).node).cell
  have arranged : Arranged [.child c] := .clause isClause (by simp [Follows]) (fun _ => rfl) .nil
  have folded := @Arranged.restsAll _ [] _ arranged (List.Subset.refl _) (by decide) fun _ _ => idle_nil
  have rest : RestsAll Rule.statementRules [c] [c] := restsAll_of_idle fun rule listed => by
    refine idle_cons.mpr ⟨Rule.startsAt_clause (List.mem_append_right _ listed) fun leaf => ?_, idle_nil⟩
    have kind := isClause.isClause
    rw [leaf] at kind
    cases kind
  simp only [staged, List.flatMap_cons, List.flatMap_nil, List.append_nil, List.nil_append, stage_pending clause,
    @stage_folded [] (.child c) (by simp), isClause.bare] at folded
  refine cell.lifts (folded.append rest) ?_ points
  obtain ⟨⟨⟩, n⟩ := c
  rw [Tree.node, wording_row]
  exact (List.append_nil _).symm

theorem restores_leaf {t : Bare} {kind : TokenKind} (isLeaf : Rule.leafIs Tree.node kind t = true)
    (restores : t.All (Node.Restores P)) : ∃ u, t = .mk () (.leaf u) ∧ u.kind = kind ∧ P u := by
  obtain ⟨⟨⟩, n⟩ := t
  obtain ⟨u, rfl, same⟩ := Rule.leafIs_iff.mp isLeaf
  exact ⟨u, rfl, same, restores.node.words u (.inl (List.mem_singleton_self _))⟩

theorem startsAt_word {t : Token} (word : t.kind = .comma ∨ t.kind = .distinctKw) :
    ∀ rule ∈ Rule.clauseRules ++ Rule.statementRules, rule.startsAt (Node.leaf t : Node Bare) = false := by
  show ∀ rule ∈ Rule.clauseRules ++ Rule.statementRules, rule.startsAtLeaf t.kind = false
  rcases word with same | same <;> rw [same] <;> decide

/-- Items between brackets are terms with commas between them, and a statement at the end perhaps. -/
theorem segment_of_items {items : Row} {previous : Option Bare} (listed : Rule.Items Tree.node items)
    (ends : Chained Ends previous items) (restores : ∀ t ∈ items, t.All (Node.Restores P))
    (terms : ∀ t ∈ items, t.kind.isExpression = true → IsTerm P t) :
    ∃ front last, items = front ++ last.toList ∧ Segment P front last := by
  have item {a : Bare} (isItem : Rule.isItem Tree.node a = true) : Rule.isOperand Tree.node a = true ∨ a.kind = .select := by
    rw [Rule.isItem, Bool.or_eq_true] at isItem
    exact isItem.imp_right Rule.isNode_iff.mp
  induction listed generalizing previous with
  | @last a isItem =>
    rcases item isItem with operand | select
    · have cell := (terms a (by simp) operand).cell operand (restores a (by simp)).node
      refine ⟨[a], none, rfl, cell, fun rule listed => idle_cons.mpr ⟨?_, idle_nil⟩, by simp⟩
      rw [← Piece.bare_expression operand]
      exact startsAt_operand listed operand
    · refine ⟨[], some a, rfl, cell_nil, fun _ _ => idle_nil, ?_⟩
      rintro _ ⟨⟩
      rw [select]
      rfl
  | @next a comma rest isItem isComma _ ih =>
    obtain ⟨_, behind, ends⟩ := ends
    simp only [List.forall_mem_cons] at restores terms
    obtain ⟨u, rfl, same, holds⟩ := restores_leaf isComma restores.2.1
    rcases item isItem with operand | select
    · obtain ⟨front, last, rfl, segment⟩ := ih ends restores.2.2 terms.2.2
      have cell := (terms.1 operand).cell operand restores.1.node
      refine ⟨a :: .mk () (.leaf u) :: front, last, rfl, ?_, fun rule listed => ?_, segment.statement⟩
      · exact Cell.join cell segment.cell holds (by rw [same]; rfl)
      · refine idle_cons.mpr ⟨?_, idle_cons.mpr ⟨startsAt_word (.inl same) rule listed, segment.idle rule listed⟩⟩
        rw [← Piece.bare_expression operand]
        exact startsAt_operand listed operand
    · -- Behind a statement there is no comma.
      have semicolon := behind (by rw [Option.any_some, select]; rfl)
      obtain ⟨v, shown, isSemi⟩ := Rule.leafIs_iff.mp semicolon
      cases shown
      cases same.symm.trans isSemi

/-- What stands between brackets is terms with commas between them, and a statement at the end perhaps. -/
theorem segment_of_content {content : Row} (listed : Rule.Content Tree.node content) (ends : Chained Ends none content)
    (restores : ∀ t ∈ content, t.All (Node.Restores P))
    (terms : ∀ t ∈ content, t.kind.isExpression = true → IsTerm P t) :
    ∃ front last, content = front ++ last.toList ∧ Segment P front last := by
  cases listed with
  | empty => exact ⟨[], none, rfl, cell_nil, fun _ _ => idle_nil, nofun⟩
  | items items => exact segment_of_items items ends restores terms
  | @distinct word as isWord items =>
    simp only [List.forall_mem_cons] at restores terms
    obtain ⟨u, rfl, same, holds⟩ := restores_leaf isWord restores.1
    obtain ⟨front, last, rfl, segment⟩ := segment_of_items items ends.2 restores.2 terms.2
    refine ⟨.mk () (.leaf u) :: front, last, rfl, ?_, fun rule listed => ?_, segment.statement⟩
    · exact Joins.cell (Joins.leaf holds (by rw [same]; rfl) segment.cell)
    · exact idle_cons.mpr ⟨startsAt_word (.inr same) rule listed, segment.idle rule listed⟩

end Row

end SqlFold
