import SqlFold.Proofs.Rows.Refolding

/-!
# Statements folded again, clause by clause

A statement as it is rendered, with its clauses taken apart, stands for a row (`Layout.staged`). The rules on
clauses fold the clauses in it, one rule after the other, and then the statement is folded
(`Row.restsAll_staged`).
-/

namespace SqlFold

namespace Rule

/-- The rules on statements. -/
def statementRules : List Rule := [.select, .update]

/-- The words of a clause or a statement that stand for themselves. -/
def words : NodeKind → List TokenKind
  | .fromClause => [.fromKw]
  | .join => [.innerKw, .leftKw, .rightKw, .fullKw, .outerKw, .crossKw, .naturalKw, .joinKw, .onKw, .usingKw]
  | .whereClause => [.whereKw]
  | .havingClause => [.havingKw]
  | .groupBy => [.groupKw, .byKw]
  | .orderBy => [.orderKw, .byKw, .ascKw, .descKw]
  | .select => [.selectKw, .distinctKw, .asKw]
  | .update => [.updateKw, .setKw]
  | _ => []

theorem mem_words_join {kind : TokenKind} (modifier : kind.isJoinModifier = true) : kind ∈ words .join := by
  revert modifier
  cases kind <;> decide

theorem mem_words_orderBy {kind : TokenKind} (direction : isDirection kind = true) : kind ∈ words .orderBy := by
  revert direction
  cases kind <;> decide

/-- A rule on clauses or statements starts at words of its own clause only. -/
theorem startsAtLeaf_words {rule : Rule} (listed : rule ∈ clauseRules ++ statementRules) {kind : NodeKind}
    (other : rule.makes ≠ kind) : ∀ word ∈ words kind, rule.startsAtLeaf word = false := by
  revert listed other
  cases rule <;> cases kind <;> decide

/-- The rules on clauses and statements start at leaves only. -/
theorem startsAt_clause {rule : Rule} {t : Bare} (listed : rule ∈ clauseRules ++ statementRules)
    (noLeaf : t.kind ≠ .tokenLeaf) : rule.startsAt t.node = false := by
  obtain ⟨⟨⟩, n⟩ := t
  have none (kind : NodeKind) : rule.startsAtNode kind = false := by
    revert listed
    cases rule <;> cases kind <;> decide
  cases n with
  | leaf => exact absurd rfl noLeaf
  | _ => exact none _

end Rule

namespace Layout

/-- The trees that a piece stands for, where the clauses that some rules fold are taken apart. -/
def stage (pending : List Rule) (p : Piece Bare) : Row :=
  match p with
  | .child c => if c.kind ∈ pending.map Rule.makes then row (c.node.layout Render.isGlued) else [p.bare]
  | _ => [p.bare]

/-- The row that pieces stand for, where the clauses that some rules fold are taken apart. -/
def staged (pending : List Rule) (ps : List (Piece Bare)) : Row := ps.flatMap (stage pending)

/-- In the end pieces stand for one tree each. -/
theorem staged_nil (ps : Spaced Bare) : staged [] (pieces ps) = row ps := by
  rw [staged, pieces, row, List.flatMap_map, List.map_eq_flatMap]
  refine List.flatMap_congr fun p _ => ?_
  obtain ⟨_, p⟩ := p
  cases p <;> rfl

end Layout

namespace Row

open Layout

variable {rule : Rule} {row row' : Row}

/-! ## Where the rules on clauses do not start -/

@[simp] theorem idle_nil : Idle rule [] := nofun

@[simp] theorem idle_cons {t : Bare} : Idle rule (t :: row) ↔ rule.startsAt t.node = false ∧ Idle rule row :=
  List.forall_mem_cons

@[simp] theorem idle_append : Idle rule (row ++ row') ↔ Idle rule row ∧ Idle rule row' := List.forall_mem_append

theorem idle_leaves {ts : List Token} (starts : ∀ t ∈ ts, rule.startsAtLeaf t.kind = false) : Idle rule (leaves ts) :=
  List.forall_mem_map.mpr starts

theorem idle_loose {t? : Option Token} (starts : ∀ t ∈ t?, rule.startsAtLeaf t.kind = false) :
    Idle rule (leaves t?.toList) := idle_leaves fun t mem => starts t (Option.mem_toList.mp mem)

section Clauses

variable (listed : rule ∈ Rule.clauseRules ++ Rule.statementRules)

include listed

theorem idle_aliasRow (name : Option Token) : Idle rule (aliasRow name) := by
  cases name with
  | none => exact idle_nil
  | some t => exact idle_cons.mpr ⟨Rule.startsAt_clause listed nofun, idle_nil⟩

theorem startsAt_child {c : Bare} (noLeaf : c.kind ≠ .tokenLeaf) : rule.startsAt (Piece.bare (.child c)).node = false := by
  refine Rule.startsAt_clause listed ?_
  obtain ⟨⟨⟩, n⟩ := c
  cases n with
  | leaf => exact absurd rfl noLeaf
  | _ => exact nofun

theorem startsAt_operand {e : Bare} (operand : (Rule.glance Tree.node e).kind.isExpression = true) :
    rule.startsAt (Piece.bare (.child e)).node = false := by
  refine startsAt_child listed fun leaf => ?_
  rw [show (Rule.glance Tree.node e).kind = _ from leaf] at operand
  cases operand

theorem startsAt_source {c : Bare} (source : (Rule.glance Tree.node c).IsSource) :
    rule.startsAt (Piece.bare (.child c)).node = false :=
  startsAt_child listed fun leaf => source.elim (fun table => nomatch table.symm.trans leaf)
    fun bracket => nomatch bracket.symm.trans leaf

theorem idle_listed {entries : List (Spaced Bare)} (idle : ∀ entry ∈ entries, Idle rule (Layout.row entry)) :
    Idle rule (Layout.row (Layout.listed entries)) := by
  have noComma : rule.startsAtLeaf .comma = false := by
    revert listed
    cases rule <;> decide
  induction entries with
  | nil => exact idle_nil
  | cons entry entries ih =>
    obtain ⟨here, others⟩ := List.forall_mem_cons.mp idle
    cases entries with
    | nil => exact here
    | cons entry' entries =>
      rw [Layout.listed_cons_cons, row_append, row_cons, bare_token, idle_append, idle_cons]
      exact ⟨here, noComma, ih others⟩

theorem idle_clauses {cs : Row} (clauses : ∀ c ∈ cs, c.kind ∈ Rule.clauseRules.map Rule.makes) : Idle rule (Layout.row (Layout.clauses cs)) := by
  rw [row_clauses clauses]
  intro c mem
  refine Rule.startsAt_clause listed fun leaf => ?_
  have clause := clauses c mem
  rw [leaf] at clause
  revert clause
  decide

/-- A rule starts nowhere in a clause or a statement of another kind. -/
theorem idle_layout {n : Node Bare} (slots : n.Slots (Rule.glance Tree.node)) (clause : n.kind.isClause = true)
    (other : rule.makes ≠ n.kind) : Idle rule (Layout.row (n.layout Render.isGlued)) := by
  have starts := Rule.startsAtLeaf_words listed other
  have word {t : Token} {kind : TokenKind} (same : t.kind = kind) (own : kind ∈ Rule.words n.kind) :
      rule.startsAtLeaf t.kind = false := same ▸ starts kind own
  cases n with
  | fromClause c =>
    obtain ⟨isFrom, source, _⟩ := slots
    simp only [Node.layout, List.cons_append, List.nil_append, row_cons, bare_token, row_labelled, idle_cons]
    exact ⟨word isFrom (by simp [Rule.words, Node.kind]), startsAt_source listed source, idle_aliasRow listed _⟩
  | join j =>
    obtain ⟨⟨modifiers, last, keywords, isJoin, areModifiers⟩, source, _, conditions⟩ := slots
    have words : Idle rule (leaves j.keywords) := by
      rw [keywords]
      refine idle_leaves fun t mem => ?_
      rcases List.mem_append.mp mem with modifier | isLast
      · exact word rfl (Rule.mem_words_join (areModifiers t modifier))
      · rw [List.mem_singleton.mp isLast]
        exact word isJoin (by simp [Rule.words, Node.kind])
    have condition : Idle rule (Layout.row (j.condition.toList.flatMap fun c =>
        [(true, .token c.keyword), (true, .child c.expression)])) := by
      cases written : j.condition with
      | none => exact idle_nil
      | some c =>
        rcases conditions c written with ⟨isOn, operand⟩ | ⟨isUsing, bracket⟩
        · exact idle_cons.mpr ⟨word isOn (by simp [Rule.words, Node.kind]), idle_cons.mpr ⟨startsAt_operand listed operand, idle_nil⟩⟩
        · refine idle_cons.mpr ⟨word isUsing (by simp [Rule.words, Node.kind]), idle_cons.mpr ⟨startsAt_operand listed ?_, idle_nil⟩⟩
          rw [bracket]
          rfl
    simp only [Node.layout, List.append_assoc, row_append, row_cons, row_words, row_labelled, idle_append, idle_cons,
      List.cons_append]
    exact ⟨words, startsAt_source listed source, idle_aliasRow listed _, condition⟩
  | whereClause c =>
    obtain ⟨isWhere, operand⟩ := slots
    exact idle_cons.mpr ⟨word isWhere (by simp [Rule.words, Node.kind]), idle_cons.mpr ⟨startsAt_operand listed operand, idle_nil⟩⟩
  | havingClause c =>
    obtain ⟨isHaving, operand⟩ := slots
    exact idle_cons.mpr ⟨word isHaving (by simp [Rule.words, Node.kind]), idle_cons.mpr ⟨startsAt_operand listed operand, idle_nil⟩⟩
  | groupBy g =>
    obtain ⟨isGroup, isBy, operands⟩ := slots
    simp only [Node.layout, row_append, row_words, idle_append]
    refine ⟨idle_leaves (by simpa using ⟨word isGroup (by simp [Rule.words, Node.kind]), word isBy (by simp [Rule.words, Node.kind])⟩), idle_listed listed ?_⟩
    exact List.forall_mem_map.mpr fun e mem => idle_cons.mpr ⟨startsAt_operand listed (operands e mem), idle_nil⟩
  | orderBy o =>
    obtain ⟨isOrder, isBy, items⟩ := slots
    simp only [Node.layout, row_append, row_words, idle_append]
    refine ⟨idle_leaves (by simpa using ⟨word isOrder (by simp [Rule.words, Node.kind]), word isBy (by simp [Rule.words, Node.kind])⟩), idle_listed listed ?_⟩
    refine List.forall_mem_map.mpr fun i mem => idle_cons.mpr ⟨startsAt_operand listed (items i mem).1, ?_⟩
    show Idle rule (Layout.row (loose i.direction.toList))
    rw [row_loose]
    exact idle_loose fun t shown => word rfl (Rule.mem_words_orderBy ((items i mem).2 t shown))
  | select s =>
    have clauses := clauses_select slots
    obtain ⟨isSelect, isDistinct, items, _⟩ := slots
    simp only [Node.layout, row_append, row_words, idle_append]
    refine ⟨⟨idle_leaves ?_, idle_listed listed ?_⟩, idle_clauses listed clauses⟩
    · refine List.forall_mem_cons.mpr ⟨word isSelect (by simp [Rule.words, Node.kind]), fun t mem => ?_⟩
      exact word (isDistinct t (Option.mem_toList.mp mem)) (by simp [Rule.words, Node.kind])
    · refine List.forall_mem_map.mpr ?_
      rintro ⟨e, aliasName⟩ mem
      refine idle_cons.mpr ⟨startsAt_operand listed (items _ mem).1, ?_⟩
      cases aliasName with
      | none => exact idle_nil
      | some t => exact idle_cons.mpr ⟨@word .aliasWord .asKw rfl (by simp [Rule.words, Node.kind]), idle_aliasRow listed (some t)⟩
  | update u =>
    have clauses := clauses_update slots
    obtain ⟨isUpdate, isTable, _, areJoins, isSet, assigns, _⟩ := slots
    simp only [Node.layout, List.cons_append, List.append_assoc, List.nil_append, row_append, row_cons, bare_token, row_labelled,
      idle_append, idle_cons]
    refine ⟨word isUpdate (by simp [Rule.words, Node.kind]), startsAt_source listed (.inl isTable), idle_aliasRow listed _,
      idle_clauses listed clauses.1, word isSet (by simp [Rule.words, Node.kind]), idle_listed listed ?_,
      idle_clauses listed clauses.2⟩
    refine List.forall_mem_map.mpr fun e mem => idle_cons.mpr ⟨startsAt_operand listed ?_, idle_nil⟩
    rw [show (Rule.glance Tree.node e).kind = _ from Rule.kind_of_assigns (assigns e mem)]
    rfl
  | _ => cases clause

end Clauses

/-! ## Clauses in a statement -/

theorem stops_leaf {t : Token} (other : t.kind ∉ [TokenKind.asKw, .comma, .onKw, .usingKw]) :
    Stops (.mk () (.leaf t) :: row) := by
  rintro _ ⟨⟩
  refine ⟨rfl, fun kind mem => ?_⟩
  show (some t.kind == some kind) = false
  rw [beq_eq_false_iff_ne]
  rintro ⟨⟩
  exact other mem

/-- No clause that is taken apart belongs to the clause before it. -/
theorem stops_layout {n : Node Bare} (slots : n.Slots (Rule.glance Tree.node))
    (clause : n.kind ∈ Rule.clauseRules.map Rule.makes) : Stops (Layout.row (n.layout Render.isGlued) ++ row) := by
  have word {t : Token} {kind : TokenKind} {rest : Row} (same : t.kind = kind)
      (other : kind ∉ [TokenKind.asKw, .comma, .onKw, .usingKw]) : Stops (.mk () (.leaf t) :: rest) :=
    stops_leaf (same ▸ other)
  cases n with
  | fromClause c => exact word slots.1 (by decide)
  | join j =>
    obtain ⟨⟨modifiers, last, keywords, isJoin, areModifiers⟩, _⟩ := slots
    rw [Node.layout, keywords]
    cases modifiers with
    | nil => exact word isJoin (by decide)
    | cons t modifiers =>
      refine stops_leaf ?_
      have isModifier := areModifiers t List.mem_cons_self
      revert isModifier
      generalize t.kind = kind
      cases kind <;> decide
  | whereClause c => exact word slots.1 (by decide)
  | havingClause c => exact word slots.1 (by decide)
  | groupBy g => exact word slots.1 (by decide)
  | orderBy o => exact word slots.1 (by decide)
  | _ => revert clause; simp [Rule.clauseRules, Rule.makes, Node.kind]

/-- A clause is folded again in front of what does not belong to it. -/
theorem folds_clause {n : Node Bare} {left after : Row} (slots : n.Slots (Rule.glance Tree.node)) (nests : n.Nests Tree.kind)
    (listed : rule ∈ Rule.clauseRules) (own : rule.makes = n.kind) (idle : Idle rule left) (stops : Stops after)
    (last : n.kind = .orderBy → after = []) : Folds rule left (Layout.row (n.layout Render.isGlued)) (.mk () n) after := by
  have rule_eq (other : Rule) (makes : n.kind = other.makes) : rule = other := makes_injective (own.trans makes)
  cases n with
  | fromClause c => exact rule_eq .fromClause rfl ▸ folds_fromClause slots stops
  | join j =>
    obtain rfl := rule_eq .join rfl
    exact folds_join slots idle stops
  | whereClause c => exact rule_eq .whereClause rfl ▸ folds_whereClause slots
  | havingClause c => exact rule_eq .havingClause rfl ▸ folds_havingClause slots
  | groupBy g => exact rule_eq .groupBy rfl ▸ folds_groupBy slots nests stops
  | orderBy o =>
    rw [last rfl]
    exact rule_eq .orderBy rfl ▸ folds_orderBy slots nests
  | _ =>
    revert listed own
    cases rule <;> simp [Rule.clauseRules, Rule.makes, Node.kind]

/-- Clauses that can be folded in their places in a statement. -/
structure IsClause (c : Bare) : Prop where
  clause : c.kind ∈ Rule.clauseRules.map Rule.makes
  slots : c.node.Slots (Rule.glance Tree.node)
  nests : c.node.Nests Tree.kind

/-- What may stand behind a clause of a statement. -/
def Follows (ps : List (Piece Bare)) : Prop :=
  ∀ p ∈ ps.head?, (∃ c, p = .child c ∧ IsClause c) ∨ ∃ t, p = .token t ∧ t.kind = .setKw

/-- Pieces of a statement, in which clauses stand in their places. -/
inductive Arranged : List (Piece Bare) → Prop
  | nil : Arranged []
  | plain {p : Piece Bare} {ps : List (Piece Bare)} :
      (∀ c, p = .child c → c.kind ∉ Rule.clauseRules.map Rule.makes) →
        (∀ rule ∈ Rule.clauseRules, rule.startsAt p.bare.node = false) → Arranged ps → Arranged (p :: ps)
  | clause {c : Bare} {ps : List (Piece Bare)} : IsClause c → Follows ps → (c.kind = .orderBy → ps = []) →
      Arranged ps → Arranged (.child c :: ps)

variable {pending : List Rule}

theorem stage_pending {c : Bare} (mem : c.kind ∈ pending.map Rule.makes) :
    stage pending (.child c) = Layout.row (c.node.layout Render.isGlued) := if_pos mem

theorem stage_folded {p : Piece Bare} (folded : ∀ c, p = .child c → c.kind ∉ pending.map Rule.makes) :
    stage pending p = [p.bare] := by
  cases p with
  | child c => exact if_neg (folded c rfl)
  | _ => rfl

theorem IsClause.bare {c : Bare} (clause : IsClause c) : Piece.bare (.child c) = c :=
  Piece.bare_child fun table => by
    have kind := clause.clause
    rw [table] at kind
    revert kind
    decide

theorem IsClause.isClause {c : Bare} (clause : IsClause c) : c.kind.isClause = true := by
  have kind := clause.clause
  revert kind
  generalize c.kind = kind
  cases kind <;> decide

theorem Follows.stops {ps : List (Piece Bare)} (follows : Follows ps) (pending : List Rule) :
    Stops (staged pending ps) := by
  cases ps with
  | nil => exact nofun
  | cons p ps =>
    rw [staged, List.flatMap_cons]
    rcases follows p rfl with ⟨c, rfl, clause⟩ | ⟨t, rfl, isSet⟩
    · by_cases mem : c.kind ∈ pending.map Rule.makes
      · rw [stage_pending mem]
        exact stops_layout clause.slots clause.clause
      · rw [stage_folded (by rintro _ ⟨⟩; exact mem), clause.bare]
        have leads : Leads [c.kind] (c :: ps.flatMap (stage pending)) := by
          rintro _ ⟨⟩
          exact List.mem_singleton_self _
        exact leads.stops (by simpa using clause.isClause)
    · exact stops_leaf (by rw [isSet]; decide)

/-- One rule folds its clauses. -/
theorem Arranged.turns {ps : List (Piece Bare)} (arranged : Arranged ps) (listed : rule ∈ Rule.clauseRules)
    (later : pending ⊆ Rule.clauseRules) (last : rule ∉ pending) :
    Turns rule (staged (rule :: pending) ps) (staged pending ps) := by
  induction arranged with
  | nil => exact .nil
  | @plain p ps other idle _ ih =>
    have others {rules : List Rule} (fewer : rules ⊆ Rule.clauseRules) : stage rules p = [p.bare] :=
      stage_folded fun c same mem => other c same (List.map_subset _ fewer mem)
    rw [staged, staged, List.flatMap_cons, List.flatMap_cons, others later,
      others (List.cons_subset.mpr ⟨listed, later⟩)]
    exact .pass (idle rule listed) ih
  | @clause c ps clause follows final _ ih =>
    rw [staged, staged, List.flatMap_cons, List.flatMap_cons]
    have among := List.mem_append_left Rule.statementRules listed
    by_cases own : rule.makes = c.kind
    · have folded : c.kind ∉ pending.map Rule.makes := fun mem => by
        obtain ⟨other, mem, same⟩ := List.mem_map.mp mem
        exact last (makes_injective (same.trans own.symm) ▸ mem)
      rw [stage_pending (by simp [own]), stage_folded (p := .child c) (by rintro _ ⟨⟩; exact folded), clause.bare]
      refine .fold (Rule.startsAt_clause among fun leaf => ?_) (fun left idle => ?_) ih
      · have isClause := clause.isClause
        rw [leaf] at isClause
        cases isClause
      · obtain ⟨⟨⟩, n⟩ := c
        refine folds_clause clause.slots clause.nests listed own idle (follows.stops _) fun isOrderBy => ?_
        rw [final isOrderBy]
        rfl
    · by_cases mem : c.kind ∈ pending.map Rule.makes
      · rw [stage_pending mem, stage_pending (by simp [mem])]
        exact ih.passes (idle_layout among clause.slots clause.isClause own)
      · rw [stage_folded (p := .child c) (by rintro _ ⟨⟩; simpa [Ne.symm own] using mem),
          stage_folded (p := .child c) (by rintro _ ⟨⟩; exact mem), clause.bare]
        refine .pass (Rule.startsAt_clause among fun leaf => ?_) ih
        have isClause := clause.isClause
        rw [leaf] at isClause
        cases isClause

/-- The rules fold their clauses one after the other, behind a row in which they start nowhere. -/
theorem Arranged.restsAll {ps : List (Piece Bare)} {front : Row} {rules : List Rule} (arranged : Arranged ps)
    (listed : rules ⊆ Rule.clauseRules) (once : rules.Nodup) (idle : ∀ rule ∈ rules, Idle rule front) :
    RestsAll rules (front ++ staged rules ps) (front ++ staged [] ps) := by
  induction rules with
  | nil => exact .nil
  | cons rule rules ih =>
    obtain ⟨here, later⟩ := List.cons_subset.mp listed
    obtain ⟨absent, once⟩ := List.nodup_cons.mp once
    obtain ⟨idleHere, idle⟩ := List.forall_mem_cons.mp idle
    exact .cons ((arranged.turns here later absent).passes idleHere).rests (ih later once idle)

/-! ## Statements -/

theorem RestsAll.append {rules rules' : List Rule} {row' row'' : Row} (rests : RestsAll rules row row')
    (rests' : RestsAll rules' row' row'') : RestsAll (rules ++ rules') row row'' := by
  induction rests with
  | nil => exact rests'
  | cons first _ ih => exact .cons first (ih rests')

namespace Arranged

variable {ps qs : List (Piece Bare)}

theorem plains (qs : List (Piece Bare)) (others : ∀ p ∈ qs, ∀ c, p = .child c → c.kind ∉ Rule.clauseRules.map Rule.makes)
    (idle : ∀ rule ∈ Rule.clauseRules, Idle rule (qs.map Piece.bare)) (arranged : Arranged ps) : Arranged (qs ++ ps) := by
  induction qs with
  | nil => exact arranged
  | cons q qs ih =>
    obtain ⟨here, others⟩ := List.forall_mem_cons.mp others
    refine .plain here (fun rule listed => idle rule listed _ List.mem_cons_self)
      (ih others fun rule listed t mem => idle rule listed t (List.mem_cons_of_mem _ mem))

theorem clauses (cs : Row) (areClauses : ∀ c ∈ cs, IsClause c) (early : ∀ c ∈ cs, c.kind ≠ .orderBy) (follows : Follows ps)
    (arranged : Arranged ps) : Arranged (cs.map .child ++ ps) ∧ Follows (cs.map .child ++ ps) := by
  induction cs with
  | nil => exact ⟨arranged, follows⟩
  | cons c cs ih =>
    obtain ⟨here, areClauses⟩ := List.forall_mem_cons.mp areClauses
    obtain ⟨notLast, early⟩ := List.forall_mem_cons.mp early
    obtain ⟨arranged, follows⟩ := ih areClauses early
    refine ⟨.clause here follows (fun last => absurd last notLast) arranged, ?_⟩
    rintro _ ⟨⟩
    exact .inl ⟨c, rfl, here⟩

theorem ordering {c : Option Bare} (isClause : ∀ t ∈ c, IsClause t) :
    Arranged (c.toList.map .child) ∧ Follows (c.toList.map .child) := by
  cases c with
  | none => exact ⟨.nil, nofun⟩
  | some c =>
    refine ⟨.clause (isClause c rfl) nofun (fun _ => rfl) .nil, ?_⟩
    rintro _ ⟨⟩
    exact .inl ⟨c, rfl, isClause c rfl⟩

end Arranged

/-- An expression is no clause. -/
theorem not_clause_of_isExpression {kind : NodeKind} (isExpression : kind.isExpression = true) :
    kind ∉ Rule.clauseRules.map Rule.makes := by
  revert isExpression
  cases kind <;> decide

/-- The children in a list are those in its entries. -/
theorem child_of_mem_listed {entries : List (Spaced Bare)} {c : Bare} (mem : .child c ∈ pieces (Layout.listed entries)) :
    ∃ entry ∈ entries, .child c ∈ pieces entry := by
  induction entries with
  | nil => cases mem
  | cons entry entries ih =>
    cases entries with
    | nil => exact ⟨entry, List.mem_singleton_self _, mem⟩
    | cons entry' entries =>
      rw [Layout.listed_cons_cons, pieces_append, pieces_cons, List.mem_append, List.mem_cons] at mem
      rcases mem with here | comma | later
      · exact ⟨entry, List.mem_cons_self, here⟩
      · cases comma
      · obtain ⟨found, mem, inside⟩ := ih later
        exact ⟨found, List.mem_cons_of_mem _ mem, inside⟩

theorem map_bare_pieces (ps : Spaced Bare) : (pieces ps).map Piece.bare = Layout.row ps := List.map_map

theorem isClause_of {c : Bare} {kind : NodeKind} (same : (Rule.glance Tree.node c).kind = kind)
    (clause : kind ∈ Rule.clauseRules.map Rule.makes) (regular : Tree.Regular c.node) : IsClause c :=
  ⟨(show c.kind = kind from same) ▸ clause, regular.2.1, regular.2.2⟩

theorem not_orderBy {c : Bare} {kind : NodeKind} (same : (Rule.glance Tree.node c).kind = kind) (other : kind ≠ .orderBy) :
    c.kind ≠ .orderBy := (show c.kind = kind from same) ▸ other

/-- In front of the clauses of a `SELECT` there are none. -/
theorem plain_projections {ts : List Token} {items : List (Projection Bare)}
    (operands : ∀ i ∈ items, (Rule.glance Tree.node i.expression).kind.isExpression = true) :
    ∀ p ∈ pieces (Layout.words ts ++ Layout.listed (items.map projection)), ∀ c, p = .child c →
      c.kind ∉ Rule.clauseRules.map Rule.makes := by
  rintro _ mem c rfl
  rw [pieces_append, pieces_words, List.mem_append] at mem
  rcases mem with word | item
  · simp at word
  · obtain ⟨entry, mem, inside⟩ := child_of_mem_listed item
    obtain ⟨⟨e, aliasName⟩, listed, rfl⟩ := List.mem_map.mp mem
    have same : c = e := by cases aliasName <;> simpa [projection] using inside
    exact not_clause_of_isExpression (same ▸ operands _ listed)

/-- In front of the joins of an `UPDATE` there are no clauses. -/
theorem plain_target {keyword : Token} {table : Bare} {aliasName : Option Token} (isTable : table.kind = .table) :
    ∀ p ∈ pieces ([(false, Piece.token keyword), (true, .child table)] ++ labelled aliasName), ∀ c, p = .child c →
      c.kind ∉ Rule.clauseRules.map Rule.makes := by
  rintro _ mem c rfl
  have same : c = table := by cases aliasName <;> simpa [labelled] using mem
  rw [same, isTable]
  decide

/-- There are none among the assignments. -/
theorem plain_assignments {keyword : Token} {es : Row} (assigns : ∀ e ∈ es, Rule.isAssignment Tree.node e = true) :
    ∀ p ∈ pieces ((true, .token keyword) :: Layout.listed (es.map fun e => [(true, .child e)])), ∀ c, p = .child c →
      c.kind ∉ Rule.clauseRules.map Rule.makes := by
  rintro _ mem c rfl
  rw [pieces_cons, List.mem_cons] at mem
  obtain ⟨entry, mem, inside⟩ := child_of_mem_listed (mem.resolve_left nofun)
  obtain ⟨e, listed, rfl⟩ := List.mem_map.mp mem
  have same : c = e := by simpa using inside
  refine not_clause_of_isExpression ?_
  rw [same, show e.kind = _ from Rule.kind_of_assigns (assigns e listed)]
  rfl

/-- The clauses of a `SELECT` stand in their places. -/
theorem arranged_select {s : Select Bare} (slots : (Node.select s).Slots (Rule.glance Tree.node))
    (below : ∀ c ∈ (Node.select s).children, Tree.Regular c.node) :
    Arranged (pieces ((Node.select s).layout Render.isGlued)) := by
  have idle : ∀ rule ∈ Rule.clauseRules, Idle rule (Layout.row (Layout.words (s.keyword :: s.distinct.toList) ++
      Layout.listed (s.items.map projection))) := fun rule listed => by
    have other : rule.makes ≠ (Node.select s).kind := by
      revert listed
      cases rule <;> simp [Rule.clauseRules, Rule.makes, Node.kind]
    have idle := idle_layout (List.mem_append_left _ listed) slots rfl other
    rw [Node.layout, row_append, idle_append] at idle
    exact idle.1
  obtain ⟨_, _, items, isFrom, areJoins, isWhere, isGroupBy, isHaving, isOrderBy⟩ := slots
  simp only [Node.children_select, List.forall_mem_append, Option.mem_toList] at below
  obtain ⟨⟨⟨⟨⟨⟨_, source⟩, joins⟩, filter⟩, grouping⟩, having⟩, ordering⟩ := below
  obtain ⟨arranged, follows⟩ := Arranged.ordering fun c shown => isClause_of (isOrderBy c shown) (by decide) (ordering c shown)
  obtain ⟨arranged, follows⟩ := arranged.clauses
    (s.source.toList ++ s.joins ++ s.filter.toList ++ s.grouping.toList ++ s.having.toList)
    (by
      simp only [List.forall_mem_append, Option.mem_toList]
      exact ⟨⟨⟨⟨fun c mem => isClause_of (isFrom c mem) (by decide) (source c mem),
        fun c mem => isClause_of (areJoins c mem) (by decide) (joins c mem)⟩,
        fun c mem => isClause_of (isWhere c mem) (by decide) (filter c mem)⟩,
        fun c mem => isClause_of (isGroupBy c mem) (by decide) (grouping c mem)⟩,
        fun c mem => isClause_of (isHaving c mem) (by decide) (having c mem)⟩)
    (by
      simp only [List.forall_mem_append, Option.mem_toList]
      exact ⟨⟨⟨⟨fun c mem => not_orderBy (isFrom c mem) (by decide), fun c mem => not_orderBy (areJoins c mem) (by decide)⟩,
        fun c mem => not_orderBy (isWhere c mem) (by decide)⟩, fun c mem => not_orderBy (isGroupBy c mem) (by decide)⟩,
        fun c mem => not_orderBy (isHaving c mem) (by decide)⟩) follows
  rw [Node.layout, pieces_append, pieces_clauses, List.map_append]
  refine arranged.plains _ (plain_projections fun i mem => (items i mem).1) fun rule listed => ?_
  rw [map_bare_pieces]
  exact idle rule listed

/-- The clauses of an `UPDATE` stand in their places. -/
theorem arranged_update {u : Update Bare} (slots : (Node.update u).Slots (Rule.glance Tree.node))
    (below : ∀ c ∈ (Node.update u).children, Tree.Regular c.node) :
    Arranged (pieces ((Node.update u).layout Render.isGlued)) := by
  have idle : ∀ rule ∈ Rule.clauseRules, Idle rule (Layout.row ([(false, Piece.token u.keyword), (true, .child u.table)] ++
      labelled u.aliasName)) ∧ Idle rule (Layout.row ((true, .token u.setKeyword) ::
        Layout.listed (u.assignments.map fun e => [(true, .child e)]))) := fun rule listed => by
    have other : rule.makes ≠ (Node.update u).kind := by
      revert listed
      cases rule <;> simp [Rule.clauseRules, Rule.makes, Node.kind]
    have idle := idle_layout (List.mem_append_left _ listed) slots rfl other
    simp only [Node.layout, row_append, idle_append] at idle
    exact ⟨by simpa [and_assoc] using idle.1.1.1, idle.1.2⟩
  obtain ⟨_, isTable, _, areJoins, isSet, assigns, isWhere, isOrderBy⟩ := slots
  simp only [Node.children_update, List.forall_mem_append, List.cons_append, List.forall_mem_cons, Option.mem_toList] at below
  obtain ⟨_, ⟨⟨joins, _⟩, filter⟩, ordering⟩ := below
  obtain ⟨arranged, follows⟩ := Arranged.ordering fun c shown => isClause_of (isOrderBy c shown) (by decide) (ordering c shown)
  obtain ⟨arranged, _⟩ := arranged.clauses u.filter.toList
    (fun c mem => isClause_of (isWhere c (Option.mem_toList.mp mem)) (by decide) (filter c (Option.mem_toList.mp mem)))
    (fun c mem => not_orderBy (isWhere c (Option.mem_toList.mp mem)) (by decide)) follows
  have arranged := arranged.plains (pieces ((true, .token u.setKeyword) ::
      Layout.listed (u.assignments.map fun e => [(true, .child e)])))
    (plain_assignments assigns)
    fun rule listed => by
      rw [map_bare_pieces]
      exact (idle rule listed).2
  obtain ⟨arranged, _⟩ := arranged.clauses u.joins (fun c mem => isClause_of (areJoins c mem) (by decide) (joins c mem))
    (fun c mem => not_orderBy (areJoins c mem) (by decide)) (by rintro _ ⟨⟩; exact .inr ⟨_, rfl, isSet⟩)
  have arranged := arranged.plains (pieces ([(false, Piece.token u.keyword), (true, .child u.table)] ++ labelled u.aliasName))
    (plain_target isTable)
    fun rule listed => by
      rw [map_bare_pieces]
      exact (idle rule listed).1
  simpa [Node.layout] using arranged

/-- A statement is folded again from the row that it stands for, behind a row in which the rules on clauses
and statements start nowhere. -/
theorem restsAll_staged {n : Node Bare} {front : Row} (statement : n.kind.isStatement = true) (regular : Tree.Regular n)
    (below : ∀ c ∈ n.children, Tree.Regular c.node)
    (idle : ∀ rule ∈ Rule.clauseRules ++ Rule.statementRules, Idle rule front) :
    RestsAll (Rule.clauseRules ++ Rule.statementRules)
      (front ++ staged Rule.clauseRules (pieces (n.layout Render.isGlued))) (front ++ [Tree.mk () n]) := by
  obtain ⟨_, slots, nests⟩ := regular
  obtain ⟨idleClauses, idleStatements⟩ := List.forall_mem_append.mp idle
  have folded : RestsAll Rule.statementRules (front ++ Layout.row (n.layout Render.isGlued)) (front ++ [Tree.mk () n]) := by
    cases n with
    | select s =>
      have turns : Turns .select (Layout.row ((Node.select s).layout Render.isGlued)) [.mk () (.select s)] := by
        simpa using @Turns.fold _ _ _ [] _ rfl (fun left _ => folds_select slots nests) .nil
      have idle : Idle .update (front ++ [Tree.mk () (.select s)]) :=
        idle_append.mpr ⟨idleStatements .update (by decide), idle_cons.mpr ⟨rfl, idle_nil⟩⟩
      refine .cons (turns.passes (idleStatements .select (by decide))).rests (.cons ?_ .nil)
      simpa using (Turns.passes idle .nil).rests
    | update u =>
      have turns : Turns .update (Layout.row ((Node.update u).layout Render.isGlued)) [.mk () (.update u)] := by
        simpa using @Turns.fold _ _ _ [] _ rfl (fun left _ => folds_update slots nests) .nil
      have idle : Idle .select (front ++ Layout.row ((Node.update u).layout Render.isGlued)) :=
        idle_append.mpr ⟨idleStatements .select (by decide), idle_layout (by decide) slots rfl nofun⟩
      refine .cons ?_ (.cons (turns.passes (idleStatements .update (by decide))).rests .nil)
      simpa using (Turns.passes idle .nil).rests
    | _ => cases statement
  have arranged : Arranged (pieces (n.layout Render.isGlued)) := by
    cases n with
    | select s => exact arranged_select slots below
    | update u => exact arranged_update slots below
    | _ => cases statement
  have clauses := arranged.restsAll (List.Subset.refl _) (by decide) idleClauses
  rw [staged_nil] at clauses
  exact clauses.append folded

end Row

end SqlFold
