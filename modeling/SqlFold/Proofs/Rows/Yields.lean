import SqlFold.Proofs.Rows.Spread

/-!
# What operands are made of

The operands in a parsed statement are made of rows of leaves and brackets that the rules on operands fold
to nothing but the operand (`Row.Yields`). In such a row a `*` stands where the scanner leaves one, and the
content of a bracket can be checked where it stands (`Row.Fits`).

`Node.Reads` says of a layer that such operands are in its slots, or conjunctions of them, and of a bracket
that its content is one that brackets can have. So it is in all layers of a row that is parsed, if that row
is made of statements, or of whatever else stands by itself (`Row.Parses.reads`).
-/

namespace SqlFold

theorem NodeKind.not_isExpression_of_isClause {kind : NodeKind} (clause : kind.isClause = true) :
    kind.isExpression = false := by
  cases kind <;> first | rfl | cases clause

theorem NodeKind.not_isPhrase_of_isExpression {kind : NodeKind} (isExpression : kind.isExpression = true)
    (other : kind ≠ .conjunction) : kind.isPhrase = false := by
  cases kind <;> first | rfl | exact absurd rfl other | cases isExpression

namespace Row

variable {P : Token → Prop} {previous previous' : Option Bare} {row row' : Row}

/-! ## What stands in a row of leaves and brackets -/

/-- Whether a `*` behind a leaf or a bracket multiplies. -/
def multiplies (t : Bare) : Bool :=
  match t.node with
  | .leaf u => u.kind.beforeProduct
  | .bracket _ => true
  | _ => false

/-- Content that can stand between brackets that are no argument list. -/
def Proper (content : Row) : Prop := content.isEmpty = false ∧ content.startsDistinct = false

/-- What leaves and brackets look like behind `previous`. -/
inductive Fits (P : Token → Prop) (previous : Option Bare) : Bare → Prop
  | leaf {t : Token} : P t → (t.kind = .star → previous.any multiplies = false) →
      (t.kind = .operator → t.lexeme = "*" → previous.any multiplies = true) → Fits P previous (.mk () (.leaf t))
  | span {opening closing : Token} {content : Row} :
      (previous.any (Rule.leafIs Tree.node .symbol) = false → Proper content) →
        Fits P previous (span opening closing content)

/-- What is found between brackets that are no argument list. -/
theorem proper_of_checked {t : Bare} {content : Row}
    (checked : Rule.checkContent Tree.node t content false = .ok ()) : Proper content := by
  unfold Rule.checkContent at checked
  cases content with
  | nil => exact (Rule.object_ne checked).elim
  | cons a rest =>
    refine ⟨rfl, ?_⟩
    rw [startsDistinct, List.head?_cons, Option.any_some]
    by_contra distinct
    obtain ⟨word, shown, _⟩ := Rule.leafIs_iff.mp (Bool.eq_true_of_not_eq_false distinct)
    have noItem : Rule.isItem Tree.node a = false := by
      rw [Rule.isItem, Rule.isOperand, Rule.isNode, shown]
      rfl
    simp only [Bool.false_and, Bool.false_eq_true, if_false, List.isEmpty_cons, Rule.checkItems, if_true, noItem] at checked
    exact Rule.object_ne checked

/-- Every content is allowed in an argument list that is allowed elsewhere. -/
theorem checked_arguments {t : Bare} {content : Row} {arguments : Bool}
    (checked : Rule.checkContent Tree.node t content arguments = .ok ()) :
    Rule.checkContent Tree.node t content true = .ok () := by
  cases arguments with
  | true => exact checked
  | false =>
    obtain ⟨some, noDistinct⟩ := proper_of_checked checked
    cases content with
    | nil => cases some
    | cons a rest =>
      rw [startsDistinct, List.head?_cons, Option.any_some] at noDistinct
      unfold Rule.checkContent at checked ⊢
      simpa [noDistinct] using checked

/-- Content that is allowed in an argument list is allowed elsewhere, if it is proper. -/
theorem checked_of_proper {t : Bare} {content : Row} (checked : Rule.checkContent Tree.node t content true = .ok ())
    (proper : Proper content) (arguments : Bool) : Rule.checkContent Tree.node t content arguments = .ok () := by
  obtain ⟨some, noDistinct⟩ := proper
  cases content with
  | nil => cases some
  | cons a rest =>
    rw [startsDistinct, List.head?_cons, Option.any_some] at noDistinct
    unfold Rule.checkContent at checked ⊢
    simpa [noDistinct] using checked

/-- Where brackets are grouped what stands there fits still, and so does what stood between the brackets. -/
theorem Grouped.fits {S : Row → Row → Prop} (grouped : Grouped S previous row row')
    (fits : Chained (Fits P) previous' row) (alike : previous.any multiplies = previous'.any multiplies) :
    Chained (Fits P) previous row' ∧
      Grouped (fun inner content => S inner content ∧ Chained (Fits P) none inner) previous row row' := by
  induction grouped generalizing previous' with
  | nil => exact ⟨trivial, .nil⟩
  | @cons previous t row row' plain opened closed _ ih =>
    obtain ⟨here, behind⟩ := fits
    obtain ⟨fits, grouped⟩ := ih behind rfl
    refine ⟨⟨?_, fits⟩, .cons plain opened closed grouped⟩
    cases here with
    | leaf holds star product => exact .leaf holds (alike ▸ star) (alike ▸ product)
    | span => cases plain
  | @span previous t opening closing row inner content after row' node kind split settled checked _ ih =>
    obtain ⟨last, rfl, shown, isClosing⟩ := Rule.splitAtClosing?_some split
    obtain ⟨_, behind⟩ := fits
    obtain ⟨inside, _, behind⟩ := chained_append.mp behind
    have opens : multiplies t = false := by
      rw [multiplies, node]
      show opening.kind.beforeProduct = false
      rw [kind]
      rfl
    have closes : multiplies last = true := by
      rw [multiplies, show last.node = _ from shown]
      show closing.kind.beforeProduct = true
      rw [isClosing]
      rfl
    have ends : (some (Row.span opening closing content)).any multiplies = (some last).any multiplies := closes.symm
    obtain ⟨fits, grouped⟩ := ih behind ends
    have inside : Chained (Fits P) none inner := by
      refine inside.change fun u first => ?_
      have fit : Fits P (some t) u := by
        cases inner with
        | nil => cases first
        | cons v inner =>
          cases first
          exact inside.1
      cases fit with
      | leaf holds _ product =>
        refine .leaf holds (fun _ => rfl) fun isOperator star => ?_
        have behindOpening := product isOperator star
        rw [Option.any_some, opens] at behindOpening
        cases behindOpening
      | span proper =>
        refine .span fun _ => proper ?_
        rw [Option.any_some, Rule.leafIs, node]
        show (some opening.kind == some .symbol) = false
        rw [kind]
        rfl
    refine ⟨⟨.span fun noName => ?_, fits⟩, .span node kind split ⟨settled, inside⟩ checked grouped⟩
    rw [noName] at checked
    exact proper_of_checked checked

/-! ## Operands -/

/-- The rules on operands make an operand, and nothing else, of a row of leaves and brackets. -/
structure Yields (P : Token → Prop) (σ : Row) (e : Bare) : Prop where
  rests : RestsAll Rule.operandRules σ [e]
  fits : Chained (Fits P) none σ
  plain : ∀ t ∈ σ, opens t = false ∧ closes t = false

/-- A tree that is made of leaves and brackets by the rules on operands alone. -/
def IsAtom (P : Token → Prop) (e : Bare) : Prop := ∃ σ, Yields P σ e

/-- A tree that can stand where an expression belongs: an operand or a conjunction. -/
def IsTerm (P : Token → Prop) (e : Bare) : Prop := e.kind = .conjunction ∨ IsAtom P e

/-- Rules that do not fold brackets have found a leading bracket where it stands. -/
theorem RestsAll.head_bracket {rules : List Rule} {c : Bare} {B : Row} (rests : RestsAll rules row (c :: B))
    (others : Rule.bracket ∉ rules) (bracket : c.kind = .bracket) : ∃ B₀, row = c :: B₀ := by
  have first {rule : Rule} {row B : Row} (rests : Rests rule row (c :: B)) (other : rule ≠ .bracket) :
      ∃ B₀, row = c :: B₀ := by
    generalize whole : c :: B = row' at rests
    induction rests with
    | rest => exact ⟨B, whole.symm⟩
    | @fold left right _ here fold _ answer _ ih =>
      obtain ⟨B₀, eq⟩ := ih whole
      obtain ⟨back, ahead, split, _⟩ := Rule.row_split answer
      rw [split]
      rw [Fold.row] at eq
      cases before : fold.left.reverse with
      | nil =>
        rw [before, List.nil_append] at eq
        have made := Rule.kind_tree answer
        rw [(List.cons.inj eq).1, bracket] at made
        exact absurd (@makes_injective .bracket _ made) (Ne.symm other)
      | cons a before' =>
        rw [before, List.cons_append] at eq
        obtain ⟨rfl, _⟩ := List.cons.inj eq
        exact ⟨_, rfl⟩
  generalize whole : c :: B = row' at rests
  induction rests generalizing B with
  | nil => exact ⟨B, whole.symm⟩
  | cons here _ ih =>
    rw [List.mem_cons, not_or] at others
    obtain ⟨B₀, rfl⟩ := ih others.2 whole
    exact first here (Ne.symm others.1)

/-- A rule leaves an item alone that stands by itself. -/
theorem declined_alone {rule : Rule} {e : Bare} (item : Rule.isItem Tree.node e = true) (other : rule ≠ .bracket) :
    Declined rule [e] := by
  intro left here right split
  obtain ⟨rfl, rfl, rfl⟩ : left = [] ∧ here = e ∧ right = [] := by
    rcases List.eq_nil_or_concat' left with rfl | ⟨left, a, rfl⟩
    · obtain ⟨rfl, rfl⟩ := List.cons.inj split
      exact ⟨rfl, rfl, rfl⟩
    · simp at split
  exact Rule.apply_of_between (.item item nofun nofun) fun bracket => absurd bracket other

/-- Rules leave an item alone that stands by itself. -/
theorem restsAll_alone {rules : List Rule} {e : Bare} (item : Rule.isItem Tree.node e = true)
    (others : Rule.bracket ∉ rules) : RestsAll rules [e] [e] := by
  induction rules with
  | nil => exact .nil
  | cons rule rules ih =>
    rw [List.mem_cons, not_or] at others
    exact .cons (.rest (declined_alone item (Ne.symm others.1))) (ih others.2)

/-- A row with one tree of a kind that rules do not make was the row before. -/
theorem RestsAll.eq_alone {rules : List Rule} {e : Bare} (rests : RestsAll rules row [e])
    (others : ∀ rule ∈ rules, e.kind ≠ rule.makes) : row = [e] := by
  have single {rule : Rule} {row : Row} (rests : Rests rule row [e]) (other : e.kind ≠ rule.makes) : row = [e] := by
    generalize whole : [e] = row' at rests ⊢
    induction rests with
    | rest => rfl
    | @fold left _ _ _ fold _ answer _ ih =>
      have mem : fold.tree ∈ fold.row := by simp [Fold.row]
      rw [ih whole, ← whole, List.mem_singleton] at mem
      exact absurd (mem ▸ Rule.kind_tree answer) other
  generalize whole : [e] = row' at rests ⊢
  induction rests with
  | nil => rfl
  | cons first _ ih =>
    obtain ⟨here, later⟩ := List.forall_mem_cons.mp others
    rw [ih later whole, ← whole] at first
    rw [single first here, whole]

/-- A fold at the front of a row that leaves one operand. -/
theorem Rests.alone {rule : Rule} {here e : Bare} {right : Row} {node : Node (Origin Bare)} (other : rule ≠ .bracket)
    (answer : rule.apply Tree.node ⟨[], here, right⟩ = .ok (some ⟨[], node, []⟩))
    (made : Fold.tree ⟨[], node, []⟩ = e) (operand : Rule.isOperand Tree.node e = true) :
    Rests rule (here :: right) [e] := by
  subst made
  exact @Rests.fold _ [] _ _ _ ⟨[], node, []⟩ (fun _ _ _ _ few => absurd few (Nat.not_lt_zero _)) answer
    (.rest (declined_alone (Rule.isItem_of_isOperand operand) other))

/-- A bracket is made of itself, if its content can stand between brackets that are no argument list. -/
theorem isAtom_span {opening closing : Token} {content : Row} (proper : Proper content) :
    IsAtom P (span opening closing content) := by
  refine ⟨[span opening closing content], restsAll_alone rfl (by decide), ⟨.span fun _ => proper, trivial⟩, ?_⟩
  simp only [List.mem_singleton, forall_eq]
  exact ⟨rfl, rfl⟩

theorem divideAll_operandRules : DivideAll Rule.operandRules sunders := by
  intro rule listed
  have spared : ∀ kind, sunders kind = true → Rule.beside kind = false := fun kind sunder => by
    rwa [sunders, Bool.not_eq_true'] at sunder
  refine ⟨?_, fun kind sunder => ?_⟩
  · rintro rfl
    revert listed
    decide
  · have spared := spared kind sunder
    revert listed spared
    cases rule <;> cases kind <;> decide

/-- Behind a leaf at which no rule on operands looks a row may start as well. -/
theorem Chained.fits_front {A B : Row} (fits : Chained (Fits P) none (A ++ B))
    (edge : Rule.Edge Tree.node sunders A.reverse) : Chained (Fits P) none B := by
  have behind := (chained_append.mp fits).2
  rw [Option.or_none, ← List.head?_reverse] at behind
  refine behind.change fun t first => ?_
  have fit : Fits P A.reverse.head? t := by
    cases B with
    | nil => cases first
    | cons u B =>
      cases first
      exact behind.1
  have plain : A.reverse.head?.any multiplies = false ∧ A.reverse.head?.any (Rule.leafIs Tree.node .symbol) = false := by
    cases before : A.reverse.head? with
    | none => exact ⟨rfl, rfl⟩
    | some a =>
      obtain ⟨u, shown, sunder⟩ := edge a before
      rw [Option.any_some, Option.any_some, multiplies, Rule.leafIs, show a.node = _ from shown]
      revert sunder
      show sunders u.kind = true → u.kind.beforeProduct = false ∧ (some u.kind == some .symbol) = false
      generalize u.kind = kind
      cases kind <;> decide
  cases fit with
  | leaf holds _ product =>
    refine .leaf holds (fun _ => rfl) fun isOperator star => ?_
    rw [plain.1] at product
    cases product isOperator star
  | span proper => exact .span fun _ => proper plain.2

section Stands

variable {ρ μ : Row} (rests : RestsAll Rule.operandRules ρ μ) (fits : Chained (Fits P) none ρ)
  (plain : ∀ t ∈ ρ, opens t = false ∧ closes t = false)

include rests fits plain

/-- An operand that stands alone was made of what stood between two leaves. -/
theorem Stands.isAtom {e : Bare} (stands : Stands μ [.child e]) (noPhrase : e.kind.isPhrase = false)
    (noTable : e.kind ≠ .table) : e ∈ μ ∧ IsAtom P e := by
  obtain ⟨A, front, B, rfl, starts, ends, spread⟩ := stands
  obtain ⟨_, rfl, none⟩ := spread.of_whole noPhrase noTable
  cases none
  obtain ⟨A₀, σ, B₀, rfl, rests, starts, _⟩ := rests.isolate divideAll_operandRules starts ends
  refine ⟨by simp, σ, rests, ?_, fun t mem => plain t (by simp [mem])⟩
  rw [List.append_assoc] at fits
  exact (chained_append.mp (fits.fits_front starts)).1

/-- So was a bracket behind which something else may stand. -/
theorem Stands.isAtom_bracket {c : Bare} {rest : List (Piece Bare)} (stands : Stands μ (.child c :: rest))
    (bracket : c.kind = .bracket) : c ∈ μ ∧ IsAtom P c := by
  obtain ⟨A, front, B, rfl, starts, ends, spread⟩ := stands
  obtain ⟨back, rfl, _⟩ := spread.of_whole (by rw [bracket]; rfl) (by rw [bracket]; exact nofun)
  obtain ⟨A₀, B₀, rfl, starts⟩ : ∃ A₀ B₀, ρ = A₀ ++ c :: B₀ ∧ Rule.Edge Tree.node sunders A₀.reverse := by
    rw [List.append_assoc, List.cons_append] at rests
    rcases List.eq_nil_or_concat' A with rfl | ⟨A, s, rfl⟩
    · obtain ⟨B₀, eq⟩ := rests.head_bracket (by decide) bracket
      exact ⟨[], B₀, eq, Rule.edge_nil⟩
    · rw [List.reverse_concat] at starts
      obtain ⟨t, shown, sunder⟩ := Rule.edge_cons.mp starts
      rw [List.append_assoc, List.singleton_append] at rests
      obtain ⟨A₀, B₀, rfl, _, rests⟩ := rests.split_result (divideAll_operandRules.divides shown sunder)
      obtain ⟨B₀, rfl⟩ := rests.head_bracket (by decide) bracket
      refine ⟨A₀ ++ [s], B₀, by simp, ?_⟩
      rw [List.reverse_concat]
      exact Rule.edge_cons.mpr ⟨t, shown, sunder⟩
  refine ⟨by simp, ?_⟩
  have fit := (fits.fits_front starts).1
  obtain ⟨⟨⟩, n⟩ := c
  cases fit with
  | leaf => cases bracket
  | span proper => exact isAtom_span (proper rfl)

/-- What stands in a slot for an expression is an operand or a conjunction. -/
theorem Placed.isTerm {c : Bare} (placed : Placed μ c) (isExpression : c.kind.isExpression = true) : IsTerm P c := by
  cases placed with
  | leaf leaf => rw [leaf] at isExpression; cases isExpression
  | table table => rw [table] at isExpression; cases isExpression
  | alone _ stands =>
    by_cases conjunction : c.kind = .conjunction
    · exact .inl conjunction
    · refine .inr (stands.isAtom rests fits plain ?_ ?_).2
      · exact NodeKind.not_isPhrase_of_isExpression isExpression conjunction
      · exact fun table => Bool.noConfusion (isExpression.symm.trans (congrArg NodeKind.isExpression table))
  | source bracket stands => exact .inr (stands.isAtom_bracket rests fits plain bracket).2
  | clause clause => exact absurd isExpression (Bool.eq_false_iff.mp (NodeKind.not_isExpression_of_isClause clause))

end Stands

/-! ## Ends of statements -/

/-- Behind a statement nothing stands but a semicolon. -/
def Ends (previous : Option Bare) (t : Bare) : Prop :=
  previous.any (fun s => s.kind.isStatement) = true → Rule.leafIs Tree.node .semicolon t = true

/-- A folded `UPDATE` reaches from its keyword to the end of the statement. -/
theorem applyUpdate_fold {left right : Row} {here : Bare} {fold : Fold Bare}
    (answer : Rule.applyUpdate Tree.node ⟨left, here, right⟩ = .ok (some fold)) :
    fold.left = left ∧ Rule.endsStatement Tree.node fold.right = true := by
  unfold Rule.applyUpdate at answer
  split at answer
  · cases answer
  · obtain ⟨source, _, answer⟩ := Rule.bind_eq_ok answer
    split at answer
    · cases answer
    · obtain ⟨⟨aliasName, rest⟩, _, answer⟩ := Rule.bind_eq_ok answer
      dsimp only at answer
      split at answer
      · cases answer
      · split at answer
        · cases answer
        · obtain ⟨assignments, _, answer⟩ := Rule.bind_eq_ok answer
          split at answer
          · next ends =>
            cases answer
            exact ⟨rfl, ends⟩
          · cases answer

/-- The rules that fold statements find their ends. -/
theorem Rests.ends {rule : Rule} (rests : Rests rule row row') (chained : Chained Ends none row)
    (statement : rule = .select ∨ rule = .update) : Chained Ends none row' := by
  refine rests.keeps (I := Chained Ends none) (fun left here right fold answer chained => ?_) chained
  obtain ⟨left_eq, ends⟩ : fold.left = left ∧ Rule.endsStatement Tree.node fold.right = true := by
    rcases statement with rfl | rfl
    · obtain ⟨left_eq, ends, _⟩ := applySelect_fold answer
      exact ⟨left_eq, ends⟩
    · exact applyUpdate_fold answer
  refine Rule.chained_row answer chained (fun statementBefore => ?_) fun u first _ => ?_
  · -- The word that starts the statement is no semicolon.
    rw [left_eq, ← List.getLast?_reverse] at statementBefore
    have here_ends := (chained_append.mp chained).2.1
    rw [Option.or_none] at here_ends
    obtain ⟨t, shown, kind⟩ := Rule.leafIs_iff.mp (here_ends statementBefore)
    have declined : rule.apply Tree.node ⟨left, here, right⟩ = .ok none := by
      refine Rule.apply_of_leaf shown ?_
      rw [kind]
      rcases statement with rfl | rfl <;> rfl
    cases declined.symm.trans answer
  · cases behind : fold.right with
    | nil => rw [behind] at first; cases first
    | cons s rest =>
      rw [behind] at first ends
      cases first
      exact ends

/-- Where there is no statement nothing stands behind one. -/
theorem chained_ends (plain : ∀ t ∈ row, t.kind.isStatement = false)
    (first : previous.any (fun s => s.kind.isStatement) = false) : Chained Ends previous row := by
  induction row generalizing previous with
  | nil => trivial
  | cons t row ih =>
    obtain ⟨here, behind⟩ := List.forall_mem_cons.mp plain
    exact ⟨fun statement => Bool.noConfusion (statement.symm.trans first), ih behind here⟩

/-- In a parsed row nothing stands behind a statement but a semicolon. -/
theorem RestsAll.ends (rests : RestsAll Rule.standard.tail row row') (fresh : Fresh Rule.standard.tail row) :
    Chained Ends none row' := by
  have statement_of_makes {kind : NodeKind} (statement : kind.isStatement = true) :
      kind = Rule.select.makes ∨ kind = Rule.update.makes := by
    cases kind <;> first | exact .inl rfl | exact .inr rfl | cases statement
  have plain : ∀ t ∈ row, t.kind.isStatement = false := fun t mem => by
    by_contra statement
    rcases statement_of_makes (Bool.eq_true_of_not_eq_false statement) with select | update
    · exact fresh t mem .select (by decide) select
    · exact fresh t mem .update (by decide) update
  refine rests.keepsFresh (I := Chained Ends none) (List.suffix_cons _ _) fresh ?_ (chained_ends plain rfl)
  intro rule _ row row' rests fresh chained
  by_cases statement : rule = .select ∨ rule = .update
  · exact rests.ends chained statement
  · -- The rules before those make no statements, and there are none yet.
    rw [not_or] at statement
    have later : Rule.select ∈ rule.onwards ∧ Rule.update ∈ rule.onwards := by
      revert statement
      cases rule <;> decide
    refine chained_ends (fun t mem => ?_) rfl
    by_contra isStatement
    have kind := statement_of_makes (Bool.eq_true_of_not_eq_false isStatement)
    have absent : ∀ t ∈ row', t.kind ≠ Rule.select.makes ∧ t.kind ≠ Rule.update.makes := by
      refine rests.keeps (I := fun row => ∀ t ∈ row, t.kind ≠ Rule.select.makes ∧ t.kind ≠ Rule.update.makes)
        (fun _ _ _ _ answer all => Rule.forall_row answer all ?_)
        fun t mem => ⟨fresh t mem .select later.1, fresh t mem .update later.2⟩
      rw [Rule.kind_tree answer]
      exact ⟨fun same => statement.1 (makes_injective same), fun same => statement.2 (makes_injective same)⟩
    exact kind.elim (absent t mem).1 (absent t mem).2

end Row

/-! ## Layers -/

/-- Every slot for an expression has an operand in it or a conjunction of operands, and between brackets
stands what may stand there, with a statement at the end only. -/
def Node.Reads (P : Token → Prop) (n : Node Bare) : Prop :=
  match n with
  | .bracket p =>
    Rule.checkContent Tree.node (.mk () (.bracket p)) p.children true = .ok () ∧
      (∀ c ∈ p.children, c.kind.isExpression = true → Row.IsTerm P c) ∧
        Row.Chained Row.Ends none p.children
  | n => n.kind.isPhrase = true → ∀ c ∈ n.children, c.kind.isExpression = true → Row.IsTerm P c

namespace Row

variable {P : Token → Prop} {row row' : Row}

/-- Layers that hold no expressions read as they should. -/
theorem reads_of_plain {n : Node Bare} (noPhrase : n.kind.isPhrase = false) (noBracket : n.kind ≠ .bracket) :
    n.Reads P := by
  cases n with
  | bracket => exact absurd rfl noBracket
  | _ => exact fun isPhrase => Bool.noConfusion (isPhrase.symm.trans noPhrase)

section Stands

variable {ρ μ : Row} (rests : RestsAll Rule.operandRules ρ μ) (fits : Chained (Fits P) none ρ)
  (plain : ∀ t ∈ ρ, opens t = false ∧ closes t = false)

include rests fits plain

/-- What stands in its place in a statement reads as it should, down to the operands. -/
theorem Placed.reads {t : Bare} (placed : Placed μ t) (slots : t.All fun n => n.Slots (Rule.glance Tree.node))
    (operands : ∀ e ∈ μ, e.All (Node.Reads P)) : t.All (Node.Reads P) := by
  induction t using Tree.induction with
  | step tag n ih =>
    have phrase (isPhrase : n.kind.isPhrase = true) (placed : ∀ c ∈ n.children, Placed μ c) :
        (Tree.mk tag n).All (Node.Reads P) := by
      refine .mk ?_ fun c mem => ih c mem (placed c mem) (slots.children c mem)
      cases n with
      | bracket => cases isPhrase
      | _ => exact fun _ c mem isExpression => (placed c mem).isTerm rests fits plain isExpression
    have childless (kind : n.kind = .tokenLeaf ∨ n.kind = .table) : (Tree.mk tag n).All (Node.Reads P) := by
      cases n with
      | leaf => exact .of_children_nil (reads_of_plain rfl nofun) (Node.children_leaf _)
      | table => exact .of_children_nil (reads_of_plain rfl nofun) (Node.children_table _)
      | _ => simp [Node.kind] at kind
    cases placed with
    | leaf leaf => exact childless (.inl leaf)
    | table table => exact childless (.inr table)
    | alone isExpression stands =>
      by_cases conjunction : n.kind = .conjunction
      · refine phrase (by rw [conjunction]; rfl) ?_
        cases n with
        | conjunction c =>
          have slots := slots.node
          rw [Node.children_conjunction, List.forall_mem_map]
          exact fun j mem => .alone (slots.1 j mem) (stands.juncts slots j mem)
        | _ => cases conjunction
      · refine operands _ (stands.isAtom rests fits plain ?_ ?_).1
        · exact NodeKind.not_isPhrase_of_isExpression isExpression conjunction
        · exact fun table => Bool.noConfusion (isExpression.symm.trans (congrArg NodeKind.isExpression table))
    | source bracket stands => exact operands _ (stands.isAtom_bracket rests fits plain bracket).1
    | clause clause opened =>
      exact phrase (NodeKind.isPhrase_of_isClause clause)
        (opened.children slots.node clause fun c mem => (slots.children c mem).node)

end Stands

/-! ## Whole rows -/

/-- Rows of statements with semicolons between them. -/
def Statements (row : Row) : Prop :=
  ∀ t ∈ row, t.kind.isStatement = true ∨ Rule.leafIs Tree.node .semicolon t = true

/-- Of two neighbours in a row one is a semicolon, so whatever else stands there stands by itself. -/
def Apart (row : Row) : Prop :=
  row.IsChain fun s t => Rule.leafIs Tree.node .semicolon s = true ∨ Rule.leafIs Tree.node .semicolon t = true

/-- Statements stand by themselves. -/
theorem Statements.apart (statements : Statements row) (ends : Chained Ends previous row) : Apart row := by
  induction row generalizing previous with
  | nil => exact .nil
  | cons t row ih =>
    obtain ⟨here, statements⟩ := List.forall_mem_cons.mp statements
    cases row with
    | nil => exact .singleton t
    | cons s row => exact List.isChain_cons_cons.mpr ⟨here.symm.imp_right ends.2.1, ih statements ends.2⟩

/-- What is parsed so that every layer of it can be read: a row in which all stands apart, and what stands between
brackets. -/
def Framed (row : Row) : Prop := Apart row ∨ Rule.Content Tree.node row

section Placed

variable {μ : Row} (stands : Stands μ (row.map .child))
  (slots : ∀ t ∈ row, t.kind ≠ .root ∧ t.node.Slots (Rule.glance Tree.node))

/-- What stands by itself stands in its place. -/
theorem Stands.placed {a : Bare} (stands : Stands μ [.child a])
    (slots : a.kind ≠ .root ∧ a.node.Slots (Rule.glance Tree.node)) : Placed μ a := by
  have kinds : a.kind.isExpression = true ∨ a.kind = .tokenLeaf ∨ a.kind = .table ∨ a.kind.isClause = true := by
    have noRoot := slots.1
    revert noRoot
    generalize a.kind = kind
    cases kind <;> decide
  rcases kinds with operand | leaf | table | clause
  · exact .alone operand stands
  · exact .leaf leaf
  · exact .table table
  · exact (@Stands.clauses [] _ [a] _ stands (by simpa using .inr ⟨clause, slots.2⟩)).2 a (List.mem_singleton_self a)

include stands slots

theorem Apart.placed (apart : Apart row) : ∀ t ∈ row, Placed μ t := by
  have leaf {t : Bare} {ps : List (Piece Bare)} {rest : Row} (semicolon : Rule.leafIs Tree.node .semicolon t = true)
      (stands : Stands μ (ps ++ Piece.child t :: rest.map .child)) :
      Placed μ t ∧ Stands μ ps ∧ Stands μ (rest.map .child) := by
    obtain ⟨⟨⟩, n⟩ := t
    obtain ⟨u, rfl, kind⟩ := Rule.leafIs_iff.mp semicolon
    exact ⟨.leaf rfl, stands.leaf.cut (by rw [kind]; rfl)⟩
  induction row using List.twoStepInduction with
  | nil => exact nofun
  | singleton t => exact List.forall_mem_singleton.mpr (stands.placed (slots t List.mem_cons_self))
  | cons_cons t s rest ih ih' =>
    obtain ⟨beside, apart⟩ := List.isChain_cons_cons.mp apart
    obtain ⟨here, others⟩ := List.forall_mem_cons.mp slots
    rcases beside with semicolon | semicolon
    · obtain ⟨placed, _, behind⟩ := @leaf t [] (s :: rest) semicolon stands
      exact List.forall_mem_cons.mpr ⟨placed, ih' s behind others apart⟩
    · obtain ⟨placed, before, behind⟩ := @leaf s [.child t] rest semicolon stands
      have later := ih behind (List.forall_mem_cons.mp others).2 (List.isChain_of_isChain_cons apart)
      exact List.forall_mem_cons.mpr ⟨before.placed here, List.forall_mem_cons.mpr ⟨placed, later⟩⟩

theorem placed_of_items (items : Rule.Items Tree.node row) : ∀ t ∈ row, Placed μ t := by
  induction items with
  | @last a isItem =>
    rw [List.forall_mem_singleton] at slots ⊢
    exact stands.placed slots
  | @next a comma rest isItem isComma _ ih =>
    rw [List.forall_mem_cons, List.forall_mem_cons] at slots ⊢
    obtain ⟨⟨⟩, n⟩ := comma
    obtain ⟨u, rfl, kind⟩ := Rule.leafIs_iff.mp isComma
    have sunder : sunders u.kind = true := by rw [kind]; rfl
    obtain ⟨here, behind⟩ := (@Stands.leaf [.child a] _ _ _ stands).cut sunder
    exact ⟨here.placed slots.1, .leaf rfl, ih behind slots.2.2⟩

theorem placed_of_content (content : Rule.Content Tree.node row) : ∀ t ∈ row, Placed μ t := by
  cases content with
  | empty => exact nofun
  | items items => exact placed_of_items stands slots items
  | @distinct word as isWord items =>
    rw [List.forall_mem_cons] at slots ⊢
    obtain ⟨⟨⟩, n⟩ := word
    obtain ⟨u, rfl, kind⟩ := Rule.leafIs_iff.mp isWord
    have sunder : sunders u.kind = true := by rw [kind]; rfl
    exact ⟨.leaf rfl, placed_of_items ((@Stands.leaf [] _ _ _ stands).cut sunder).2 slots.2 items⟩

theorem Framed.placed (framed : Framed row) : ∀ t ∈ row, Placed μ t :=
  framed.elim (·.placed stands slots) (placed_of_content stands slots)

end Placed

/-- Rules come to rest one part of the list after the other. -/
theorem RestsAll.of_append {rules rules' : List Rule} (rests : RestsAll (rules ++ rules') row row') :
    ∃ between, RestsAll rules row between ∧ RestsAll rules' between row' := by
  induction rules generalizing row with
  | nil => exact ⟨row, .nil, rests⟩
  | cons rule rules ih =>
    cases rests with
    | cons first rests =>
      obtain ⟨between, earlier, later⟩ := ih rests
      exact ⟨between, .cons first earlier, later⟩

/-- All layers of a row in which all stands apart, or of what stands between brackets, read as they should, and in
the row itself stand terms. -/
theorem Parses.reads (parses : Parses row row') (leaves : ∀ t ∈ row, t.kind = .tokenLeaf)
    (fits : Chained (Fits P) none row) (framed : Framed row') :
    ∀ t ∈ row', t.All (Node.Reads P) ∧ (t.kind.isExpression = true → IsTerm P t) := by
  refine (parses.induction (Q := fun row row' => Chained Ends none row' ∧ (Chained (Fits P) none row → Framed row' →
    ∀ t ∈ row', t.All (Node.Reads P) ∧ (t.kind.isExpression = true → IsTerm P t))) ?_ leaves).2 fits framed
  intro raw ρ row' leaves grouped rests
  refine ⟨rests.ends (grouped.fresh leaves), fun fits framed => ?_⟩
  have parses : Parses raw row' := .mk (grouped.imp fun _ _ _ _ _ _ _ inner => inner.1) rests
  have sound : ∀ t ∈ row', t.All fun n => n.kind ≠ .root ∧ n.Slots (Rule.glance Tree.node) := fun t mem =>
    (parses.sound (fun u mem => by
      obtain ⟨⟨⟩, n⟩ := u
      have leaf : n.kind = .tokenLeaf := leaves _ mem
      cases n with
      | leaf => exact .leaf trivial
      | _ => cases leaf) t mem).all
  have plain : ∀ t ∈ ρ, opens t = false ∧ closes t = false := by
    obtain ⟨noOpen, noClose⟩ := grouped.not_mem_leafKinds
    refine fun t mem => ⟨?_, ?_⟩
    · by_contra opens
      exact noOpen (List.mem_filterMap.mpr ⟨t, mem, beq_iff_eq.mp (Bool.eq_true_of_not_eq_false opens)⟩)
    · by_contra closes
      exact noClose (List.mem_filterMap.mpr ⟨t, mem, beq_iff_eq.mp (Bool.eq_true_of_not_eq_false closes)⟩)
  obtain ⟨fits, grouped⟩ := grouped.fits fits rfl
  have below : ∀ t ∈ ρ, t.kind.isPhrase = false ∧ t.All (Node.Reads P) := by
    intro t mem
    rcases grouped.mem t mem with
      stood | ⟨opening, closing, inner, content, _, rfl, _, _, ⟨⟨_, ends, reads⟩, fits⟩, checked⟩
    · obtain ⟨⟨⟩, n⟩ := t
      have leaf : n.kind = .tokenLeaf := leaves _ stood
      cases n with
      | leaf => exact ⟨rfl, .of_children_nil (reads_of_plain rfl nofun) (Node.children_leaf _)⟩
      | _ => cases leaf
    · have reads := reads fits (.inr (Rule.checkContent_ok checked))
      refine ⟨rfl, .mk ⟨checked_arguments checked, fun c listed => (reads c listed).2, ends⟩ ?_⟩
      rw [Node.children_bracket]
      exact fun c listed => (reads c listed).1
  obtain ⟨μ, operands, phrases⟩ := @RestsAll.of_append _ _ Rule.operandRules Rule.phraseRules rests
  have kinds : ∀ t ∈ μ, t.kind.isPhrase = false ∧ t.All (Node.Reads P) := by
    refine operands.keeps (I := fun row => ∀ t ∈ row, t.kind.isPhrase = false ∧ t.All (Node.Reads P))
      (fun rule listed left here right fold answer all => Rule.forall_row answer all ?_) below
    have plain : rule.makes.isPhrase = false ∧ rule.makes ≠ .bracket := by
      revert listed
      cases rule <;> decide
    rw [← Rule.kind_tree answer] at plain
    exact ⟨plain.1, .of_node (reads_of_plain plain.1 plain.2)
      (Rule.all_children (fun _ => reads_of_plain rfl nofun) answer fun t mem => (all t mem).2)⟩
  have stands : Stands μ (row'.map .child) :=
    ⟨[], μ, [], by simp, Rule.edge_nil, Rule.edge_nil, phrases.spread fun t mem => (kinds t mem).1⟩
  intro t mem
  have placed := framed.placed stands (fun t mem => (sound t mem).node) t mem
  have slots := (sound t mem).imp fun _ layer => layer.2
  exact ⟨placed.reads operands fits plain slots fun e mem => (kinds e mem).2, placed.isTerm operands fits plain⟩

end Row

end SqlFold
