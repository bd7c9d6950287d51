import SqlFold.Proofs.Nesting
import SqlFold.Proofs.Rows.Regrouping
import SqlFold.Proofs.Statements

/-!
# Expressions in their context

Rules look at the neighbours of a sibling, so it has to be shown that an expression is folded between brackets,
behind `SELECT` or in a clause as it is folded alone. The word before it is one at which no rule on operands
looks (`Row.separates`), and the rules on clauses and statements have nothing to do in an expression
(`Row.RestsAll.of_expression`). So tokens that are parsed to one expression are parsed to the same expression in
every `Context` (`Context.parses`), whatever their number and the depth of their brackets is.
-/

namespace SqlFold

open Forest

/-! ## Contexts -/

/-- A token of a kind. -/
abbrev Word (kind : TokenKind) : Type := {t : Token // t.kind = kind}

/-- The words of `SELECT column FROM source`. -/
structure Query where
  select : Word .selectKw
  column : Word .symbol
  from_ : Word .fromKw
  source : Word .symbol

/-- The words that introduce an expression behind a query. -/
inductive Place where
  | filter (keyword : Word .whereKw)
  | grouping (group : Word .groupKw) (byKeyword : Word .byKw)
  | having (keyword : Word .havingKw)
  | ordering (order : Word .orderKw) (byKeyword : Word .byKw)
  | join (join : Word .joinKw) (source : Word .symbol) (on : Word .onKw)

/-- The words around an expression. -/
inductive Context where
  | bracket (opening : Word .bracketOpen) (closing : Word .bracketClose)
  | call (name : Word .symbol) (opening : Word .bracketOpen) (closing : Word .bracketClose)
  | select (keyword : Word .selectKw)
  | query (query : Query) (place : Place)

namespace Query

variable (q : Query)

/-- The words of a query. -/
def tokens : List Token := [q.select, q.column, q.from_, q.source]

/-- A query without further clauses. -/
def plain : Select Bare where
  keyword := q.select
  distinct := none
  items := [⟨.mk () (.column ⟨none, none, q.column⟩), none⟩]
  source := some (.mk () (.fromClause ⟨q.from_, .mk () (.table ⟨none, q.source⟩), none⟩))
  joins := []
  filter := none
  grouping := none
  having := none
  ordering := none

end Query

namespace Place

/-- The words before the last one. -/
def front : Place → List Token
  | filter _ => []
  | grouping group _ => [group]
  | having _ => []
  | ordering order _ => [order]
  | join word source _ => [word, source]

/-- The word right before the expression. -/
def last : Place → Token
  | filter keyword => keyword
  | grouping _ byKeyword => byKeyword
  | having keyword => keyword
  | ordering _ byKeyword => byKeyword
  | join _ _ on => on

/-- The clause of an expression. -/
def clause (e : Bare) : Place → Node Bare
  | filter keyword => .whereClause ⟨keyword, e⟩
  | grouping group byKeyword => .groupBy ⟨group, byKeyword, [e]⟩
  | having keyword => .havingClause ⟨keyword, e⟩
  | ordering order byKeyword => .orderBy ⟨order, byKeyword, [⟨e, none⟩]⟩
  | join word source on => .join ⟨[word], .mk () (.table ⟨none, source⟩), none, some ⟨on, e⟩⟩

/-- A query with an expression in a place. -/
def plug (q : Query) (e : Bare) (place : Place) : Select Bare :=
  let clause := .mk () (place.clause e)
  match place with
  | filter _ => { q.plain with filter := some clause }
  | grouping _ _ => { q.plain with grouping := some clause }
  | having _ => { q.plain with having := some clause }
  | ordering _ _ => { q.plain with ordering := some clause }
  | join _ _ _ => { q.plain with joins := [clause] }

end Place

namespace Context

/-- The tokens of an expression in a context. -/
def tokens (ts : List Token) : Context → List Token
  | bracket opening closing => opening :: (ts ++ [closing.val])
  | call name opening closing => name :: opening :: (ts ++ [closing.val])
  | select keyword => keyword :: ts
  | query q place => q.tokens ++ place.front ++ place.last :: ts

/-- The tree of an expression in a context. -/
def plug (e : Bare) : Context → Bare
  | bracket opening closing => .mk () (.bracket ⟨opening, closing, [e]⟩)
  | call name opening closing => .mk () (.call ⟨name, false, .mk () (.bracket ⟨opening, closing, [e]⟩)⟩)
  | select keyword => .mk () (.select ⟨keyword, none, [⟨e, none⟩], none, [], none, none, none, none⟩)
  | query q place => .mk () (.select (place.plug q e))

end Context

namespace Row

variable {row row' : Row} {e : Bare} {ts : List Token}

/-! ## Brackets -/

/-- Inside a span of brackets it does not matter what stands behind it. -/
theorem splitAtClosing?_inside {depth : Nat} {inner after : Row} {closing : Token}
    (split : Rule.splitAtClosing? Tree.node depth row = some (inner, closing, after)) (more : Nat) (rest : Row) :
    Rule.splitAtClosing? Tree.node (depth + more) (inner ++ rest) =
      (Rule.splitAtClosing? Tree.node more rest).map fun (inner', closing, after) =>
        (inner ++ inner', closing, after) := by
  induction row generalizing depth inner with
  | nil => simp [Rule.splitAtClosing?] at split
  | cons t row ih =>
    -- A sibling that belongs to the content is passed, whatever the depth behind it is.
    have passed {depth' : Nat} (within : Rule.splitAtClosing?.within Tree.node depth' t row = some (inner, closing, after))
        (goesOn : ∀ rest, Rule.splitAtClosing? Tree.node (depth + more) (t :: rest) =
          Rule.splitAtClosing?.within Tree.node (depth' + more) t rest) :
        Rule.splitAtClosing? Tree.node (depth + more) (inner ++ rest) =
          (Rule.splitAtClosing? Tree.node more rest).map fun (inner', closing, after) =>
            (inner ++ inner', closing, after) := by
      rw [Rule.splitAtClosing?.within, Option.map_eq_some_iff] at within
      obtain ⟨⟨inner', closing', after'⟩, split, eq⟩ := within
      cases eq
      rw [List.cons_append, goesOn, Rule.splitAtClosing?.within, ih split]
      cases Rule.splitAtClosing? Tree.node more rest <;> rfl
    rw [Rule.splitAtClosing?.eq_def] at split
    dsimp only at split
    cases shown : t.node.token? with
    | none =>
      simp only [shown] at split
      exact passed split fun _ => by simp only [Rule.splitAtClosing?, shown]
    | some token =>
      simp only [shown] at split
      by_cases opening : token.kind = .bracketOpen
      · rw [if_pos opening] at split
        refine passed split fun _ => ?_
        simp only [Rule.splitAtClosing?, shown, if_pos opening, Nat.add_right_comm]
      · rw [if_neg opening] at split
        by_cases isClosing : token.kind = .bracketClose
        · rw [if_pos isClosing] at split
          cases depth with
          | zero =>
            cases split
            rw [Nat.zero_add, List.nil_append]
            cases Rule.splitAtClosing? Tree.node more rest <;> rfl
          | succ depth =>
            refine passed split fun _ => ?_
            rw [Nat.add_right_comm]
            simp only [Rule.splitAtClosing?, shown, if_neg opening, if_pos isClosing]
        · rw [if_neg isClosing] at split
          refine passed split fun _ => ?_
          simp only [Rule.splitAtClosing?, shown, if_neg opening, if_neg isClosing]

/-- Leaves whose brackets can be grouped are balanced. -/
theorem Grouped.balanced {S : Row → Row → Prop} {previous : Option Bare} (grouped : Grouped S previous row row')
    (leaves : ∀ t ∈ row, t.node.kind = .tokenLeaf) : Balanced row := by
  have leaf {t : Bare} (leaf : t.node.kind = .tokenLeaf) : ∃ token, t = .mk () (.leaf token) := by
    obtain ⟨⟨⟩, n⟩ := t
    cases n with
    | leaf token => exact ⟨token, rfl⟩
    | _ => cases leaf
  induction grouped with
  | nil => exact .nil
  | cons _ opened closed _ ih =>
    obtain ⟨here, others⟩ := List.forall_mem_cons.mp leaves
    obtain ⟨token, rfl⟩ := leaf here
    exact (Balanced.leaf opened closed).append (ih others)
  | @span _ t opening closing row inner content after _ shown isOpening split _ _ _ ih =>
    obtain ⟨c, rfl, shown', isClosing⟩ := Rule.splitAtClosing?_some split
    obtain ⟨⟨⟩, _⟩ := t
    obtain rfl := shown
    obtain ⟨⟨⟩, _⟩ := c
    obtain rfl := shown'
    have balanced : Balanced inner := fun depth rest => by
      simpa using splitAtClosing?_inside split depth rest
    have behind := ih fun t mem => leaves t (by simp [mem])
    simpa using (balanced.span isOpening isClosing).append behind

/-! ## Rules on clauses and statements -/

/-- The rules on clauses and statements leave a row as it is, or a clause or a statement stands in it. -/
theorem RestsAll.clause_of_change {rules : List Rule} (rests : RestsAll rules row row')
    (listed : rules ⊆ Rule.clauseRules ++ Rule.statementRules) : row' = row ∨ ∃ t ∈ row', t.kind.isClause = true := by
  have folded {rule : Rule} {row row' : Row} (rests : Rests rule row row')
      (listed : rule ∈ Rule.clauseRules ++ Rule.statementRules) : row' = row ∨ ∃ t ∈ row', t.kind.isClause = true := by
    induction rests with
    | rest => exact .inl rfl
    | @fold _ _ _ _ fold _ answer _ ih =>
      rcases ih with rfl | clause
      · refine .inr ⟨fold.tree, by simp [Fold.row], ?_⟩
        rw [Rule.kind_tree answer]
        revert listed
        cases rule <;> decide
      · exact .inr clause
  induction rests with
  | nil => exact .inl rfl
  | cons first _ ih =>
    obtain ⟨here, listed⟩ := List.cons_subset.mp listed
    rcases ih listed with rfl | clause
    · exact folded first here
    · exact .inr clause

/-- An expression that stands alone in the end was made by the rules on operands and conjunctions. -/
theorem RestsAll.of_expression (rests : RestsAll Rule.standard.tail row [e]) (isExpression : e.kind.isExpression = true) :
    RestsAll (Rule.operandRules ++ [Rule.conjunction]) row [e] := by
  obtain ⟨between, terms, rest⟩ :=
    @RestsAll.of_append _ _ (Rule.operandRules ++ [Rule.conjunction]) (Rule.clauseRules ++ Rule.statementRules) rests
  rcases rest.clause_of_change (List.Subset.refl _) with rfl | ⟨t, mem, clause⟩
  · exact terms
  · cases List.mem_singleton.mp mem
    cases isExpression.symm.trans (NodeKind.not_isExpression_of_isClause clause)

/-! ## Words before an expression -/

/-- The rules on operands and conjunctions make a row of words and names. -/
structure Prepares (ts : List Token) (row : Row) : Prop where
  plain : ∀ t ∈ ts, opens (.mk () (.leaf t)) = false ∧ closes (.mk () (.leaf t)) = false
  rests : RestsAll (Rule.operandRules ++ [.conjunction]) (leaves ts) row

namespace Prepares

variable {us : List Token}

theorem nil : Prepares [] [] := ⟨nofun, restsAll_nil _⟩

/-- A name is a column. -/
theorem name (word : Word .symbol) : Prepares [word] [.mk () (.column ⟨none, none, word⟩)] := by
  obtain ⟨t, isSymbol⟩ := word
  have idle {rule : Rule} (other : rule.startsAtLeaf .symbol = false) : Rests rule (leaves [t]) (leaves [t]) := by
    have idle : Idle rule (leaves [t]) := idle_leaves (List.forall_mem_singleton.mpr (isSymbol ▸ other))
    simpa using (Turns.passes idle .nil).rests
  refine ⟨List.forall_mem_singleton.mpr ?_, .cons (.rest (declined_call nofun)) (.cons (idle rfl) (.cons (idle rfl) ?_))⟩
  · show (some t.kind == some .bracketOpen) = false ∧ (some t.kind == some .bracketClose) = false
    rw [isSymbol]
    exact ⟨rfl, rfl⟩
  · have folded := @rests_aliasRow (some t) (by simpa using isSymbol) [] idle_nil nofun
    have alone : RestsAll [Rule.membership, .operation, .conjunction] [.mk () (.column ⟨none, none, t⟩)]
        [.mk () (.column ⟨none, none, t⟩)] := restsAll_alone rfl (by decide)
    exact .cons folded alone

/-- Words and names go on behind a word at which the rules do not look. -/
theorem join {A B : Row} (first : Prepares ts A) (second : Prepares us B) {t : Token} (separate : separates t.kind = true) :
    Prepares (ts ++ t :: us) (A ++ .mk () (.leaf t) :: B) := by
  have plain := plain_sunder (Bool.and_eq_true_iff.mp separate).1
  refine ⟨List.forall_mem_append.mpr ⟨first.plain, List.forall_mem_cons.mpr ⟨plain, second.plain⟩⟩, ?_⟩
  rw [leaves_append, leaves_cons]
  exact (restsAll_split (divideAll_terms.divides rfl separate)).mpr ⟨A, B, first.rests, second.rests, rfl⟩

/-- Nothing is grouped before the brackets of an expression. -/
theorem grouped {S : Row → Row → Prop} {A : Row} (prepares : Prepares ts A) {t : Token} (separate : separates t.kind = true)
    (grouped : Grouped S none row row') (previous : Option Bare) :
    Grouped S previous (leaves (ts ++ [t]) ++ row) (leaves (ts ++ [t]) ++ row') := by
  have plain := prepares.plain
  clear prepares
  induction ts generalizing previous with
  | nil =>
    obtain ⟨opened, closed⟩ := plain_sunder (Bool.and_eq_true_iff.mp separate).1
    refine .cons rfl opened closed (grouped.change ?_)
    show false = (some t.kind == some .symbol)
    revert separate
    generalize t.kind = kind
    cases kind <;> decide
  | cons u ts ih =>
    obtain ⟨⟨opened, closed⟩, plain⟩ := List.forall_mem_cons.mp plain
    exact .cons rfl opened closed (ih _ plain)

/-- What is folded alone is folded behind words and names too. -/
theorem terms {A B γ : Row} (prepares : Prepares ts A) {t : Token} (separate : separates t.kind = true)
    (grouped : Grouped Parses none (leaves us) γ) (terms : RestsAll (Rule.operandRules ++ [Rule.conjunction]) γ B) :
    Grouped Parses none (leaves (ts ++ t :: us)) (leaves (ts ++ [t]) ++ γ) ∧
      RestsAll (Rule.operandRules ++ [Rule.conjunction]) (leaves (ts ++ [t]) ++ γ) (A ++ .mk () (.leaf t) :: B) := by
  have tokens : leaves (ts ++ t :: us) = leaves (ts ++ [t]) ++ leaves us := by
    rw [← leaves_append, List.append_assoc, List.singleton_append]
  refine ⟨tokens ▸ prepares.grouped separate grouped none, ?_⟩
  rw [leaves_append, List.append_assoc]
  exact (restsAll_split (divideAll_terms.divides rfl separate)).mpr ⟨A, B, prepares.rests, terms, rfl⟩

end Prepares

/-- The layers of a parsed tree are as they should be. -/
theorem Parses.regular {row : Row} (parses : Parses (leaves ts) row) : ∀ t ∈ row, t.All Tree.Regular := by
  intro t mem
  have layers := (parses.sound (allSound_leaves ts) t mem).all.and (parses.nests (leaf_of_mem_leaves ts) t mem)
  exact layers.imp fun _ layer => ⟨layer.1.1, layer.1.2, layer.2⟩

/-! ## Expressions in a context -/

/-- An expression is no leaf. -/
theorem leafIs_of_isExpression (isExpression : e.kind.isExpression = true) (kind : TokenKind) :
    Rule.leafIs Tree.node kind e = false := by
  obtain ⟨⟨⟩, n⟩ := e
  cases n with
  | leaf => cases isExpression
  | _ => rfl

variable (parses : Parses (leaves ts) [e]) (isExpression : e.kind.isExpression = true)

include parses isExpression

/-- Between brackets. -/
theorem parses_bracket {opening closing : Token} (isOpening : opening.kind = .bracketOpen)
    (isClosing : closing.kind = .bracketClose) (previous : Option Bare) :
    Grouped Parses previous (leaves (opening :: (ts ++ [closing]))) [span opening closing [e]] := by
  obtain @⟨_, _, _, grouped, _⟩ := id parses
  have balanced := grouped.balanced (leaf_of_mem_leaves ts)
  have item : Rule.isItem Tree.node e = true := by
    rw [Rule.isItem, Rule.isOperand, Node.isExpression, show e.node.kind.isExpression = true from isExpression]
    rfl
  have noWord := leafIs_of_isExpression isExpression .distinctKw
  have whole : leaves (opening :: (ts ++ [closing])) =
      .mk () (.leaf opening) :: (leaves ts ++ Tree.mk () (.leaf closing) :: []) := by
    rw [leaves_cons, leaves_append]
    rfl
  rw [whole]
  refine .span rfl isOpening (balanced.split isClosing) parses ?_ .nil
  simp [Rule.checkContent, Rule.checkItems, noWord, item]

/-- As the last expression of a statement, where `front` and `word` come before it. -/
theorem parses_statement {n : Node Bare} {front : List Token} {A : Row} {word : Token} (prepares : Prepares front A)
    (separate : separates word.kind = true) (statement : n.kind.isStatement = true) (regular : Tree.Regular n)
    (below : ∀ c ∈ n.children, Tree.Regular c.node)
    (whole : Layout.staged Rule.clauseRules (Layout.pieces (n.layout Render.isGlued)) = A ++ .mk () (.leaf word) :: [e]) :
    Parses (leaves (front ++ word :: ts)) [.mk () n] := by
  obtain ⟨grouped, rests⟩ := parses
  obtain ⟨grouped, terms⟩ := prepares.terms separate grouped (rests.of_expression isExpression)
  refine .mk grouped (terms.append ?_)
  have folded := @restsAll_staged _ [] statement regular below fun _ _ => idle_nil
  rwa [List.nil_append, List.nil_append, whole] at folded

end Row

namespace Query

open Row

/-- What the words of a query stand for. -/
def row (q : Query) : Row :=
  [.mk () (.leaf q.select), .mk () (.column ⟨none, none, q.column⟩), .mk () (.leaf q.from_),
    .mk () (.column ⟨none, none, q.source⟩)]

/-- The words of a query make its columns. -/
theorem prepares (q : Query) : Prepares q.tokens q.row := by
  have select : separates q.select.val.kind = true := by rw [q.select.property]; rfl
  have from_ : separates q.from_.val.kind = true := by rw [q.from_.property]; rfl
  exact Prepares.nil.join ((Prepares.name q.column).join (.name q.source) from_) select

end Query

namespace Tree

variable (name : Word .symbol)

theorem regular_column : Regular (.column ⟨none, none, name⟩) :=
  ⟨nofun, ⟨List.forall_mem_singleton.mpr name.property, nofun⟩, trivial⟩

theorem regular_table : Regular (.table ⟨none, name⟩) :=
  ⟨nofun, List.forall_mem_singleton.mpr name.property, trivial⟩

theorem regular_source (keyword : Word .fromKw) {source : Bare} (isSource : source.kind = .table ∨ source.kind = .bracket) :
    Regular (.fromClause ⟨keyword, source, none⟩) :=
  ⟨nofun, ⟨keyword.property, isSource, nofun⟩, trivial⟩

end Tree

namespace Place

open Row

variable {q : Query} {place : Place} {e : Bare} (isExpression : e.kind.isExpression = true)

theorem separates_last (place : Place) : separates place.last.kind = true := by
  cases place with
  | filter keyword => rw [last, keyword.property]; rfl
  | grouping group byKeyword => rw [last, byKeyword.property]; rfl
  | having keyword => rw [last, keyword.property]; rfl
  | ordering order byKeyword => rw [last, byKeyword.property]; rfl
  | join word source on => rw [last, on.property]; rfl

include isExpression

theorem regular_clause : Tree.Regular (place.clause e) := by
  cases place with
  | filter keyword => exact ⟨nofun, ⟨keyword.property, isExpression⟩, trivial⟩
  | grouping group byKeyword =>
    exact ⟨nofun, ⟨group.property, byKeyword.property, List.forall_mem_singleton.mpr isExpression⟩, nofun⟩
  | having keyword => exact ⟨nofun, ⟨keyword.property, isExpression⟩, trivial⟩
  | ordering order byKeyword =>
    exact ⟨nofun, ⟨order.property, byKeyword.property, List.forall_mem_singleton.mpr ⟨isExpression, nofun⟩⟩, nofun⟩
  | join word source on =>
    refine ⟨nofun, ⟨⟨[], word, rfl, word.property, nofun⟩, .inl rfl, nofun, ?_⟩, trivial⟩
    rintro _ ⟨⟩
    exact .inl ⟨on.property, isExpression⟩

omit isExpression in
theorem clause_mem : (place.clause e).kind ∈ Rule.clauseRules.map Rule.makes := by
  cases place <;> simp [clause, Node.kind, Rule.clauseRules, Rule.makes]

/-- What the words of a place and the expression stand for behind a query. -/
theorem prepares (q : Query) : ∃ A, Prepares (q.tokens ++ place.front) (q.row ++ A) ∧
    Layout.row ((place.clause e).layout Render.isGlued) = A ++ [.mk () (.leaf place.last), e] := by
  have bare : Piece.bare (.child e) = e := Piece.bare_expression isExpression
  have plain : Prepares (q.tokens ++ []) (q.row ++ []) := by simpa using q.prepares
  have word {kind : TokenKind} (word : Word kind) (separate : separates kind = true) {us : List Token} {B : Row}
      (behind : Prepares us B) : Prepares (q.tokens ++ word.val :: us) (q.row ++ .mk () (.leaf word) :: B) :=
    q.prepares.join behind (by rw [word.property]; exact separate)
  cases place with
  | filter keyword => exact ⟨_, plain, by simp [clause, last, Node.layout, Layout.restriction, bare]⟩
  | grouping group byKeyword =>
    exact ⟨_, word group rfl .nil, by simp [clause, last, Node.layout, Layout.listed, bare, leaves]⟩
  | having keyword => exact ⟨_, plain, by simp [clause, last, Node.layout, Layout.restriction, bare]⟩
  | ordering order byKeyword =>
    exact ⟨_, word order rfl .nil, by simp [clause, last, Node.layout, Layout.listed, bare, leaves]⟩
  | join join source on =>
    exact ⟨_, word join rfl (.name source), by simp [clause, last, Node.layout, bare]; rfl⟩

end Place

namespace Query

open Row

variable {place : Place} {e : Bare}

/-- What a query with an expression in a place stands for, its clauses taken apart. -/
theorem staged_plug (q : Query) (place : Place) (e : Bare) :
    Layout.staged Rule.clauseRules (Layout.pieces ((Node.select (place.plug q e)).layout Render.isGlued)) =
      q.row ++ Layout.row ((place.clause e).layout Render.isGlued) := by
  have pieces : Layout.pieces ((Node.select (place.plug q e)).layout Render.isGlued) =
      [.token q.select, .child (.mk () (.column ⟨none, none, q.column⟩)),
        .child (.mk () (.fromClause ⟨q.from_, .mk () (.table ⟨none, q.source⟩), none⟩)), .child (.mk () (place.clause e))] := by
    cases place <;> simp [Place.plug, plain, Node.layout, Layout.listed, Layout.projection]
  have source : Layout.stage Rule.clauseRules (.child (.mk () (.fromClause ⟨q.from_, .mk () (.table ⟨none, q.source⟩), none⟩))) =
      [.mk () (.leaf q.from_), .mk () (.column ⟨none, none, q.source⟩)] := by
    rw [stage_pending (by simp [Tree.kind, Tree.node, Node.kind, Rule.clauseRules, Rule.makes])]
    simp [Node.layout, Piece.bare, Tree.node, Layout.aliasRow]
  have clause : Layout.stage Rule.clauseRules (.child (.mk () (place.clause e))) =
      Layout.row ((place.clause e).layout Render.isGlued) := stage_pending Place.clause_mem
  have column : Layout.stage Rule.clauseRules (.child (.mk () (.column ⟨none, none, q.column⟩))) =
      [.mk () (.column ⟨none, none, q.column⟩)] := rfl
  have select : Layout.stage Rule.clauseRules (.token q.select) = [.mk () (.leaf q.select)] := rfl
  simp [row, pieces, Layout.staged, source, clause, column, select]

end Query

namespace Context

open Row

variable {ts : List Token} {e : Bare}

/-- A query with an expression in a place is a statement as it should be. -/
theorem regular_plug (q : Query) (place : Place) (isExpression : e.kind.isExpression = true) :
    Tree.Regular (.select (place.plug q e)) ∧
      ∀ c ∈ (Node.select (place.plug q e)).children, Tree.Regular c.node := by
  have column := Tree.regular_column q.column
  have source : Tree.Regular (.fromClause ⟨q.from_, .mk () (.table ⟨none, q.source⟩), none⟩) :=
    Tree.regular_source q.from_ (.inl rfl)
  have clause := @Place.regular_clause place _ isExpression
  have items : ∀ i ∈ [(⟨.mk () (.column ⟨none, none, q.column⟩), none⟩ : Projection Bare)],
      (Rule.glance Tree.node i.expression).kind.isExpression = true ∧ ∀ t ∈ i.aliasName, t.kind = .symbol :=
    List.forall_mem_singleton.mpr ⟨rfl, nofun⟩
  have children : (Node.select (place.plug q e)).children = [.mk () (.column ⟨none, none, q.column⟩),
      .mk () (.fromClause ⟨q.from_, .mk () (.table ⟨none, q.source⟩), none⟩), .mk () (place.clause e)] := by
    cases place <;> simp [Place.plug, Query.plain]
  rw [children]
  refine ⟨?_, by simpa using ⟨column, source, clause⟩⟩
  cases place <;>
    refine ⟨nofun, ⟨q.select.property, nofun, items, ?_⟩, nofun⟩ <;>
    simp [Place.plug, Query.plain] <;>
    exact ⟨rfl, rfl⟩

/-- An expression is parsed to the same tree in every context. -/
theorem parses (ctx : Context) (parses : Parses (leaves ts) [e]) (isExpression : e.kind.isExpression = true) :
    Parses (leaves (ctx.tokens ts)) [ctx.plug e] := by
  have regular := (Parses.regular parses e List.mem_cons_self).node
  have bare : Piece.bare (.child e) = e := Piece.bare_expression isExpression
  have glance : (Rule.glance Tree.node e).kind.isExpression = true := isExpression
  cases ctx with
  | bracket opening closing =>
    have grouped := parses_bracket parses isExpression opening.property closing.property none
    exact .mk grouped (restsAll_alone rfl (by decide))
  | call name opening closing =>
    have grouped := parses_bracket parses isExpression opening.property closing.property (some (.mk () (.leaf name)))
    have answer : Rule.apply Tree.node .call ⟨[], .mk () (.leaf name), [span opening closing [e]]⟩ =
        .ok (some ⟨[], .call ⟨name, false, .sibling (span opening closing [e])⟩, []⟩) := by
      have noWord := leafIs_of_isExpression isExpression .distinctKw
      have isBracket : Rule.isNode Tree.node .bracket (span opening closing [e]) = true := rfl
      have shown : (Tree.node (span opening closing [e])).children = [e] := Node.children_bracket _
      simp [Rule.apply, Rule.applyCall, leaf?_leaf name.property, isBracket, shown, noWord, Rule.fold]
    have folded : Rests .call [.mk () (.leaf name), span opening closing [e]]
        [.mk () (.call ⟨name, false, span opening closing [e]⟩)] :=
      @Rests.fold _ [] _ _ _ _ (fun _ _ _ _ few => absurd few (Nat.not_lt_zero _)) answer (.rest (declined_alone rfl (by decide)))
    refine .mk (.cons rfl ?_ ?_ grouped) (.cons folded (restsAll_alone rfl (by decide)))
    · show (some name.val.kind == some .bracketOpen) = false
      rw [name.property]
      rfl
    · show (some name.val.kind == some .bracketClose) = false
      rw [name.property]
      rfl
  | select keyword =>
    have separate : separates keyword.val.kind = true := by rw [keyword.property]; rfl
    refine parses_statement parses isExpression .nil separate rfl ⟨by simp [Node.kind], ?_, ?_⟩ ?_ ?_
    · simp [Node.Slots, keyword.property, glance]
    · simp [Node.Nests]
    · simpa using regular
    · have plain : Layout.stage Rule.clauseRules (.child e) = [e] := by
        rw [stage_folded, bare]
        rintro c ⟨⟩
        exact not_clause_of_isExpression isExpression
      have word : Layout.stage Rule.clauseRules (.token keyword) = [.mk () (.leaf keyword)] := rfl
      simp [Node.layout, Layout.staged, Layout.listed, Layout.projection, plain, word]
  | query q place =>
    obtain ⟨A, prepares, row⟩ := @Place.prepares place _ isExpression q
    obtain ⟨regular, below⟩ := regular_plug q place isExpression
    refine parses_statement parses isExpression prepares place.separates_last rfl regular below ?_
    rw [q.staged_plug, row, List.append_assoc]

end Context

namespace Folding

end Folding

end SqlFold
