import SqlFold.Proofs.Merging.Enclosure
import SqlFold.Proofs.Merging.Replacement

/-!
# Merged clauses

`Tree.Joins` says that a clause is two others merged: the conjunction of their conditions, or the list of all their
expressions. Where the two clauses can be folded again from their texts, the merged one can be, with brackets around
the conjunctions in it (`Tree.Joins.renews`), and the rules do not tell it from the first one (`Tree.Joins.peers`).
-/

namespace SqlFold

variable {P : Token → Prop}

namespace Token

theorem standard_opening : Standard .opening :=
  @standard_of_mark .bracketOpen ['('] (by decide) rfl (by decide) (by decide) (by decide +kernel) .start

theorem standard_closing : Standard .closing :=
  @standard_of_mark .bracketClose [')'] (by decide) rfl (by decide) (by decide) (by decide +kernel) .start

theorem standard_and (place : Text.Position) : Standard ⟨.andKw, "AND", place⟩ :=
  @standard_of_mark .andKw ['A', 'N', 'D'] (by decide) rfl (by decide) (by decide) (by decide +kernel) place

end Token

namespace Tree

/-- The conjunction of two conditions. -/
def both (word : Token) (a b : Bare) : Bare := mk () (.conjunction ⟨⟨none, a⟩, ⟨some word, b⟩, []⟩)

/-- The third clause has the conditions or the expressions of the first two. -/
inductive Joins : Bare → Bare → Bare → Prop
  | filter (a b : Restriction Bare) (place : Text.Position) :
      Joins (mk () (.whereClause a)) (mk () (.whereClause b))
        (mk () (.whereClause ⟨a.keyword, both ⟨.andKw, "AND", place⟩ a.expression b.expression⟩))
  | having (a b : Restriction Bare) (place : Text.Position) :
      Joins (mk () (.havingClause a)) (mk () (.havingClause b))
        (mk () (.havingClause ⟨a.keyword, both ⟨.andKw, "AND", place⟩ a.expression b.expression⟩))
  | grouping (a b : GroupBy Bare) :
      Joins (mk () (.groupBy a)) (mk () (.groupBy b))
        (mk () (.groupBy { a with expressions := a.expressions ++ b.expressions }))


/-! ## Operands -/

/-- An operand that can be folded again from its text. -/
structure Operand (P : Token → Prop) (e : Bare) : Prop where
  isExpression : e.kind.isExpression = true
  term : Row.IsTerm P e
  once : e.kind ≠ .conjunction → e.openings.Nodup
  all : e.All (Node.Renews P)

/-- The sub-nodes of clauses are operands. -/
theorem All.operand {n : Node Bare} (all : (Tree.mk () n).All (Node.Renews P)) (phrase : n.kind.isPhrase = true)
    {e : Bare} (listed : e ∈ n.children) (isExpression : e.kind.isExpression = true) : Operand P e where
  isExpression := isExpression
  term := by
    have plain : n.kind ≠ .bracket := by
      intro bracket
      rw [bracket] at phrase
      cases phrase
    exact (Node.reads_iff plain).mp all.node.restores.reads phrase e listed isExpression
  once := all.node.once e listed isExpression
  all := all.children e listed

/-- A layer of operands. -/
theorem all_renews {n : Node Bare} (regular : Regular n) (plain : n.kind ≠ .bracket)
    (operands : ∀ e ∈ n.children, Operand Token.Standard e) (words : ∀ t, .token t ∈ n.parts → t.Standard) :
    (mk () n).All (Node.Renews Token.Standard) := by
  refine .mk ⟨⟨regular, (Node.reads_iff plain).mpr fun _ e listed _ => (operands e listed).term, fun t => ?_⟩,
    fun e listed _ => (operands e listed).once⟩ fun e listed => (operands e listed).all
  exact Token.standard_of_shows words

namespace Operand

variable {a b e : Bare}

/-- Brackets around an operand make an operand. -/
theorem bracketed (operand : Operand Token.Standard e) :
    Operand Token.Standard (Row.span .opening .closing [e]) where
  isExpression := rfl
  term := by
    refine .inr (Row.isAtom_span ⟨rfl, ?_⟩)
    exact Row.leafIs_of_isExpression operand.isExpression .distinctKw
  once _ := by
    rw [openings, spans_span]
    exact List.nodup_singleton _
  all := by
    have item : Rule.isItem node e = true := by
      rw [Rule.isItem, Bool.or_eq_true]
      exact .inl operand.isExpression
    refine .mk ⟨⟨⟨by simp [Node.kind], ⟨rfl, rfl⟩, trivial⟩,
      ⟨(Rule.Content.items (.last item)).checked _, ?_, by rintro ⟨⟩, trivial⟩,
      fun t => Token.standard_of_shows ?_⟩, ?_⟩ ?_
    · rintro _ (_ | ⟨_, ⟨⟩⟩) _
      exact operand.term
    · rintro _ (_ | ⟨_, _ | ⟨_, _ | ⟨_, ⟨⟩⟩⟩⟩)
      · exact Token.standard_opening
      · exact Token.standard_closing
    · rintro _ (_ | ⟨_, ⟨⟩⟩) _
      exact operand.once
    · rintro _ (_ | ⟨_, ⟨⟩⟩)
      exact operand.all

/-- An operand of a conjunction in the brackets that it needs. -/
theorem operandOf (operand : Operand Token.Standard e) :
    Operand Token.Standard (e.operandOf .conjunction) ∧ (e.operandOf .conjunction).kind ≠ .conjunction := by
  by_cases nested : e.kind = .conjunction
  · rw [operandOf_conjunction nested]
    exact ⟨operand.bracketed, nofun⟩
  · rw [operandOf_of_ne fun _ => nested]
    exact ⟨operand, nested⟩

/-- The conjunction of two operands is one. -/
theorem both (first : Operand Token.Standard a) (second : Operand Token.Standard b) (place : Text.Position) :
    Operand Token.Standard
      (Tree.both ⟨.andKw, "AND", place⟩ (a.operandOf .conjunction) (b.operandOf .conjunction)) where
  isExpression := rfl
  term := .inl rfl
  once other := absurd rfl other
  all := by
    obtain ⟨operand, plain⟩ := first.operandOf
    obtain ⟨operand', plain'⟩ := second.operandOf
    refine all_renews ⟨nofun, ⟨?_, rfl, ?_⟩, ?_⟩ nofun ?_ ?_
    · rintro j (_ | ⟨_, _ | ⟨_, ⟨⟩⟩⟩)
      · exact operand.isExpression
      · exact operand'.isExpression
    · rintro j (_ | ⟨_, ⟨⟩⟩)
      exact ⟨_, rfl, rfl⟩
    · rintro j (_ | ⟨_, _ | ⟨_, ⟨⟩⟩⟩)
      · exact plain
      · exact plain'
    · rintro e (_ | ⟨_, _ | ⟨_, ⟨⟩⟩⟩)
      · exact operand
      · exact operand'
    · rintro t (_ | ⟨_, _ | ⟨_, _ | ⟨_, _ | ⟨_, ⟨⟩⟩⟩⟩⟩)
      exact Token.standard_and place

end Operand

/-! ## Clauses -/

section Joins

variable {old other new : Bare}

/-- What is enclosed in a conjunction of two trees. -/
theorem enclosed_both (word : Token) (a b : Bare) :
    (both word a b).enclosed = both word (a.enclosed.operandOf .conjunction) (b.enclosed.operandOf .conjunction) := by
  rw [both, enclosed_mk]
  rfl

theorem enclosed_whereClause (c : Restriction Bare) :
    (mk () (.whereClause c)).enclosed = mk () (.whereClause ⟨c.keyword, c.expression.enclosed⟩) :=
  enclosed_of_ne (by simp [Node.kind])

theorem enclosed_havingClause (c : Restriction Bare) :
    (mk () (.havingClause c)).enclosed = mk () (.havingClause ⟨c.keyword, c.expression.enclosed⟩) :=
  enclosed_of_ne (by simp [Node.kind])

theorem enclosed_groupBy (g : GroupBy Bare) :
    (mk () (.groupBy g)).enclosed = mk () (.groupBy ⟨g.group, g.byKeyword, g.expressions.map enclosed⟩) :=
  enclosed_of_ne (by simp [Node.kind])

/-- A clause with a condition stands with another condition. -/
theorem all_restriction {n : Restriction Bare → Node Bare} {keyword : Token} {d e : Bare}
    (kind : n = .whereClause ∨ n = .havingClause) (all : (mk () (n ⟨keyword, d⟩)).All (Node.Renews Token.Standard))
    (operand : Operand Token.Standard e) : (mk () (n ⟨keyword, e⟩)).All (Node.Renews Token.Standard) := by
  have word : keyword.Standard := by
    refine all.node.restores.words keyword (.inl ?_)
    rcases kind with rfl | rfl <;> exact List.mem_cons_self
  have slots : (n ⟨keyword, d⟩).Slots (Rule.glance node) := all.node.restores.regular.2.1
  rcases kind with rfl | rfl
  all_goals
    refine all_renews ⟨nofun, ⟨slots.1, operand.isExpression⟩, trivial⟩ nofun ?_ ?_
    · rintro _ (_ | ⟨_, ⟨⟩⟩)
      exact operand
    · rintro _ (_ | ⟨_, _ | ⟨_, ⟨⟩⟩⟩)
      exact word

/-- A merged clause can be folded again from its text where both clauses can. -/
theorem Joins.renews (joins : Joins old other new) (first : old.enclosed.All (Node.Renews Token.Standard))
    (second : other.enclosed.All (Node.Renews Token.Standard)) : new.enclosed.All (Node.Renews Token.Standard) := by
  cases joins with
  | filter a b place =>
    rw [enclosed_whereClause] at first second ⊢
    have operand := first.operand rfl List.mem_cons_self first.node.restores.regular.2.1.2
    have operand' := second.operand rfl List.mem_cons_self second.node.restores.regular.2.1.2
    rw [enclosed_both]
    exact all_restriction (.inl rfl) first (operand.both operand' place)
  | having a b place =>
    rw [enclosed_havingClause] at first second ⊢
    have operand := first.operand rfl List.mem_cons_self first.node.restores.regular.2.1.2
    have operand' := second.operand rfl List.mem_cons_self second.node.restores.regular.2.1.2
    rw [enclosed_both]
    exact all_restriction (.inr rfl) first (operand.both operand' place)
  | grouping a b =>
    rw [enclosed_groupBy] at first second ⊢
    obtain ⟨group, byKeyword, isExpression⟩ := first.node.restores.regular.2.1
    have isExpression' := second.node.restores.regular.2.1.2.2
    have filled : a.expressions.map enclosed ≠ [] := first.node.restores.regular.2.2
    have operands : ∀ e ∈ a.expressions.map enclosed, Operand Token.Standard e := fun e listed =>
      first.operand rfl (by rwa [Node.children_groupBy]) (isExpression e listed)
    have operands' : ∀ e ∈ b.expressions.map enclosed, Operand Token.Standard e := fun e listed =>
      second.operand rfl (by rwa [Node.children_groupBy]) (isExpression' e listed)
    have words : ∀ t, t = a.group ∨ t = a.byKeyword → t.Standard := by
      intro t word
      have shows : Layout.Shows t ((Node.groupBy ⟨a.group, a.byKeyword, a.expressions.map enclosed⟩).layout
          Render.isGlued) := by
        simp only [Node.layout, Layout.shows_append, Layout.shows_words, List.mem_cons, List.not_mem_nil, or_false]
        exact .inl word
      exact first.node.restores.words t shows
    have all : ∀ e ∈ (a.expressions ++ b.expressions).map enclosed, Operand Token.Standard e := by
      intro e listed
      rw [List.map_append] at listed
      exact (List.mem_append.mp listed).elim (operands e) (operands' e)
    refine all_renews ⟨by simp [Node.kind], ⟨group, byKeyword, fun e listed => (all e listed).isExpression⟩, ?_⟩
      (by simp [Node.kind]) ?_ ?_
    · intro none
      rw [List.map_append] at none
      exact filled (List.append_eq_nil_iff.mp none).1
    · rwa [Node.children_groupBy]
    · intro t part
      exact words t (by simpa [Node.parts] using part)

/-- Clauses of one kind that can be merged are not told apart by the rules. -/
theorem Peers.of_mergeable {t u : Bare} (mergeable : t.kind.isMergeable = true) (kind : u.kind = t.kind)
    (all : t.All (Node.Renews P)) (all' : u.All (Node.Renews P)) : Peers t u := by
  have glance {v : Bare} (mergeable : v.kind.isMergeable = true) (all : v.All (Node.Renews P)) :
      Rule.glance node v = ⟨v.kind, false, false⟩ := by
    have slots := all.node.restores.regular.2.1
    obtain ⟨⟨⟩, n⟩ := v
    have operands : ∀ e ∈ n.children, e.kind.isExpression = true := by
      cases n with
      | whereClause c =>
        rintro _ (_ | ⟨_, ⟨⟩⟩)
        exact slots.2
      | havingClause c =>
        rintro _ (_ | ⟨_, ⟨⟩⟩)
        exact slots.2
      | groupBy g =>
        rw [Node.children_groupBy]
        exact slots.2.2
      | _ => cases mergeable
    have distinct : n.children.head?.any (Rule.leafIs node .distinctKw) = false := by
      cases subs : n.children with
      | nil => rfl
      | cons e es => exact Row.leafIs_of_isExpression (operands e (subs ▸ List.mem_cons_self)) .distinctKw
    have assigns : Rule.isAssignment node (Tree.mk () n) = false := by
      cases n <;> first | rfl | cases mergeable
    exact congr (congrArg (Glance.mk n.kind) assigns) distinct
  refine ⟨?_, ?_⟩
  · revert mergeable
    generalize t.kind = kind
    cases kind <;> decide
  · rw [glance mergeable all, glance (kind ▸ mergeable) all', kind]

theorem Joins.kind_ne_root (joins : Joins old other new) : old.kind ≠ .root ∧ other.kind ≠ .root := by
  cases joins <;> exact ⟨nofun, nofun⟩

/-- The rules do not tell a merged clause from the first one. -/
theorem Joins.peers (joins : Joins old other new) (all : old.enclosed.All (Node.Renews P))
    (all' : new.enclosed.All (Node.Renews P)) : Peers old.enclosed new.enclosed := by
  have kinds : old.kind.isMergeable = true ∧ new.kind = old.kind := by
    cases joins <;> exact ⟨rfl, rfl⟩
  refine .of_mergeable ?_ ?_ all all'
  · rw [kind_enclosed, kinds.1]
  · rw [kind_enclosed, kind_enclosed, kinds.2]

end Joins

/-! ## Trees -/

namespace Replaces

variable {old new t u : Bare}

theorem operandOf (peers : Peers old new) (replaces : Replaces old new t u) (outer : NodeKind) :
    Replaces old new (t.operandOf outer) (u.operandOf outer) := by
  rw [Tree.operandOf, Tree.operandOf, (replaces.like peers).kind]
  split
  · have pair : ∀ c ∈ (Node.bracket ⟨.opening, .closing, [(t, u)]⟩).children, Replaces old new c.1 c.2 := by
      rintro _ (_ | ⟨_, _ | ⟨_, ⟨⟩⟩⟩)
      exact replaces
    exact .layer pair
  · exact replaces

/-- Where a clause is replaced in a tree, it is replaced with the brackets in both. -/
theorem enclosed (peers : Peers old.enclosed new.enclosed) (replaces : Replaces old new t u) :
    Replaces old.enclosed new.enclosed t.enclosed u.enclosed := by
  induction replaces with
  | here => exact .here
  | same => exact .same _
  | @layer m each ih =>
    rw [enclosed_mk, enclosed_mk, Node.kind_map, Node.kind_map, Node.map_map, Node.map_map]
    exact .of_map fun c listed => (ih c listed).operandOf peers m.kind

end Replaces

end Tree

end SqlFold
