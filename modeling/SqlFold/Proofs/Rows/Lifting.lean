import SqlFold.Proofs.Rows.Staging

/-!
# Rows of operands made of leaves again

`Row.Lifts` says that rules make a row of a row of leaves and brackets in which every `*` is where the scanner
would leave it. Such rows can be put together around leaves that divide them (`Row.Lifts.join`). A `Row.Cell`
is what the rules on operands and conjunctions can make: a term (`Row.cell_term`), a name, or a source with its
alias (`Row.cell_source`), and rows of those with words and commas between them.
-/

namespace SqlFold

/-- A layer that can be folded again from what it is rendered as, with tokens of the sort `P`. -/
structure Node.Restores (P : Token → Prop) (n : Node Bare) : Prop where
  regular : Tree.Regular n
  reads : n.Reads P
  words : ∀ t, .token t ∈ Layout.pieces (n.layout Render.isGlued) ∨ .name t ∈ Layout.pieces (n.layout Render.isGlued) → P t

namespace Row

open Layout

variable {P : Token → Prop} {rules : List Rule} {row row' ρ ν A B A' B' : Row}

/-- Rules make a row of a row of leaves and brackets. -/
structure Lifts (P : Token → Prop) (rules : List Rule) (ρ ν : Row) : Prop where
  rests : RestsAll rules ρ ν
  fits : Chained (Fits P) none ρ
  plain : ∀ t ∈ ρ, opens t = false ∧ closes t = false

theorem restsAll_nil (rules : List Rule) : RestsAll rules [] [] := by
  induction rules with
  | nil => exact .nil
  | cons rule rules ih => exact .cons (.rest fun l h r split => by simp at split) ih

/-- Behind a leaf that ends no operand a row stands as at the start. -/
theorem Chained.fits_behind {u : Token} (fits : Chained (Fits P) none row) (ends : u.kind.beforeProduct = false) :
    Chained (Fits P) (some (.mk () (.leaf u))) row := by
  refine fits.change fun t first => ?_
  have fit : Fits P none t := by
    cases row with
    | nil => cases first
    | cons v row =>
      cases first
      exact fits.1
  cases fit with
  | leaf holds _ product => exact .leaf holds (fun _ => ends) fun isOperator star => nomatch product isOperator star
  | span proper => exact .span fun _ => proper rfl

theorem beforeProduct_sunder {kind : TokenKind} (sunder : sunders kind = true) : kind.beforeProduct = false := by
  revert sunder
  cases kind <;> decide

theorem fits_sunder {t : Token} {previous : Option Bare} (holds : P t) (sunder : sunders t.kind = true) :
    Fits P previous (.mk () (.leaf t)) := by
  refine .leaf holds (fun star => ?_) fun isOperator => ?_
  · rw [star] at sunder
    cases sunder
  · rw [isOperator] at sunder
    cases sunder

theorem plain_sunder {t : Token} (sunder : sunders t.kind = true) :
    opens (.mk () (.leaf t)) = false ∧ closes (.mk () (.leaf t)) = false := by
  show (some t.kind == some .bracketOpen) = false ∧ (some t.kind == some .bracketClose) = false
  revert sunder
  generalize t.kind = kind
  cases kind <;> decide

/-- Rows are put together around a leaf that divides them. -/
theorem Lifts.join {t : Token} (lifts : Lifts P rules A A') (lifts' : Lifts P rules B B') (holds : P t)
    (sunder : sunders t.kind = true) (divides : ∀ rule ∈ rules, Divides rule (.mk () (.leaf t))) :
    Lifts P rules (A ++ .mk () (.leaf t) :: B) (A' ++ .mk () (.leaf t) :: B') := by
  refine ⟨(restsAll_split divides).mpr ⟨A', B', lifts.rests, lifts'.rests, rfl⟩, ?_, ?_⟩
  · exact chained_append.mpr ⟨lifts.fits, fits_sunder holds sunder, lifts'.fits.fits_behind (beforeProduct_sunder sunder)⟩
  · exact List.forall_mem_append.mpr ⟨lifts.plain, List.forall_mem_cons.mpr ⟨plain_sunder sunder, lifts'.plain⟩⟩

/-! ## Conjunctions -/

theorem takeJuncts_row {js : List (Junct Bare)} (operands : ∀ j ∈ js, Rule.isOperand Tree.node j.expression = true)
    (words : ∀ j ∈ js, ∃ t, j.operator = some t ∧ Rule.joinsOperands t.kind = true) :
    Rule.takeJuncts Tree.node (Layout.row (js.flatMap junct)) = .ok (js.map (·.map .sibling), []) := by
  induction js with
  | nil => rfl
  | cons j js ih =>
    obtain ⟨o, e⟩ := j
    obtain ⟨operand, later⟩ := List.forall_mem_cons.mp operands
    obtain ⟨⟨t, shown, joins⟩, laterWords⟩ := List.forall_mem_cons.mp words
    obtain rfl : o = some t := shown
    have read : Rule.leafOf? Tree.node Rule.joinsOperands (.mk () (.leaf t) : Bare) = some t :=
      Rule.leafOf?_eq_some.mpr ⟨rfl, joins⟩
    simp only [List.flatMap_cons, junct, List.cons_append, List.nil_append, row_cons, bare_token,
      Piece.bare_expression operand, Rule.takeJuncts, read, operand, if_true, ih later laterWords]
    rfl

/-- `Rule.conjunction` folds its row again. -/
theorem rests_conjunction {c : Conjunction Bare} (slots : (Node.conjunction c).Slots (Rule.glance Tree.node)) :
    Rests .conjunction (Layout.row ((Node.conjunction c).layout Render.isGlued)) [.mk () (.conjunction c)] := by
  obtain ⟨operands, noWord, words⟩ := slots
  obtain ⟨⟨o, e⟩, second, rest⟩ := c
  obtain rfl : o = none := noWord
  have operand : Rule.isOperand Tree.node e = true := operands _ List.mem_cons_self
  have taken := @takeJuncts_row (second :: rest) (fun j mem => operands j (List.mem_cons_of_mem _ mem)) words
  have whole : Layout.row ((Node.conjunction ⟨⟨none, e⟩, second, rest⟩).layout Render.isGlued) =
      e :: Layout.row ((second :: rest).flatMap junct) := by
    simp [Node.layout, Conjunction.parts, junct, Piece.bare_expression operand]
  rw [whole]
  refine @Rests.fold _ [] _ _ _ ⟨[], .conjunction ⟨⟨none, .sibling e⟩, second.map .sibling, rest.map (·.map .sibling)⟩, []⟩
    (fun _ _ _ _ few => absurd few (Nat.not_lt_zero _)) ?_ ?_
  · have token : (Tree.node e).token? = none := by
      obtain ⟨⟨⟩, n⟩ := e
      cases n with
      | leaf => cases operand
      | _ => rfl
    simp only [Rule.apply, Rule.applyConjunction, token, operand, if_true, taken, bind, Except.bind]
    rfl
  · have row : Fold.row ⟨[], .conjunction ⟨⟨none, .sibling e⟩, second.map .sibling, rest.map (·.map .sibling)⟩, []⟩ =
        [.mk () (.conjunction ⟨⟨none, e⟩, second, rest⟩)] := by
      have back : Junct.map (Origin.bare id) ∘ Junct.map Origin.sibling = (id : Junct Bare → Junct Bare) := rfl
      simp only [Fold.row, Fold.tree, Node.map, List.map_map, back, List.map_id]
      rfl
    rw [row]
    exact .rest (declined_alone rfl (by decide))

/-- The operands of a conjunction and the words between them are made of leaves and brackets. -/
theorem lifts_juncts {e : Bare} {js : List (Junct Bare)} (first : IsAtom P e)
    (atoms : ∀ j ∈ js, IsAtom P j.expression ∧ Rule.isOperand Tree.node j.expression = true)
    (words : ∀ j ∈ js, ∃ t, j.operator = some t ∧ P t ∧ Rule.joinsOperands t.kind = true) :
    ∃ ρ, Lifts P Rule.operandRules ρ (e :: Layout.row (js.flatMap junct)) := by
  induction js generalizing e with
  | nil =>
    obtain ⟨σ, rests, fits, plain⟩ := first
    exact ⟨σ, rests, fits, plain⟩
  | cons j js ih =>
    obtain ⟨o, e'⟩ := j
    obtain ⟨⟨second, operand⟩, later⟩ := List.forall_mem_cons.mp atoms
    obtain ⟨⟨t, shown, holds, joins⟩, laterWords⟩ := List.forall_mem_cons.mp words
    obtain rfl : o = some t := shown
    obtain ⟨σ, rests, fits, plain⟩ := first
    obtain ⟨ρ, lifts⟩ := ih second later laterWords
    have sunder : sunders t.kind = true := by
      revert joins
      generalize t.kind = kind
      cases kind <;> decide
    refine ⟨σ ++ .mk () (.leaf t) :: ρ, ?_⟩
    have joined := Lifts.join ⟨rests, fits, plain⟩ lifts holds sunder
      (divideAll_operandRules.divides (s := .mk () (.leaf t)) rfl sunder)
    simpa [junct, Piece.bare_expression operand] using joined

/-! ## Cells -/

/-- A row that is made of leaves and brackets by the rules on operands and conjunctions. -/
def Cell (P : Token → Prop) (ν : Row) : Prop := ∃ ρ, Lifts P (Rule.operandRules ++ [.conjunction]) ρ ν

/-- An operand stands in a cell. -/
theorem IsAtom.cell {e : Bare} (atom : IsAtom P e) (isExpression : e.kind.isExpression = true) : Cell P [e] := by
  obtain ⟨σ, rests, fits, plain⟩ := atom
  have item : Rule.isItem Tree.node e = true := by
    rw [Rule.isItem, Rule.isOperand, Node.isExpression, show e.node.kind.isExpression = true from isExpression]
    rfl
  exact ⟨σ, rests.append (restsAll_alone item (by decide)), fits, plain⟩

/-- A term stands in a cell. -/
theorem IsTerm.cell {e : Bare} (term : IsTerm P e) (isExpression : e.kind.isExpression = true)
    (restores : e.node.Restores P) : Cell P [e] := by
  rcases term with conjunction | atom
  · obtain ⟨⟨⟩, n⟩ := e
    cases n with
    | conjunction c =>
      have restores : (Node.conjunction c).Restores P := restores
      obtain ⟨⟨_, slots, nests⟩, reads, words⟩ := restores
      have reads := reads rfl
      have written : pieces ((Node.conjunction c).layout Render.isGlued) =
          c.parts.flatMap fun j => Piece.ofToken? j.operator ++ [Piece.child j.expression] := pieces_juncts c.parts
      have atoms : ∀ j ∈ c.parts, IsAtom P j.expression ∧ Rule.isOperand Tree.node j.expression = true := fun j mem =>
        ⟨(reads j.expression (by
          rw [Node.children_conjunction]
          exact List.mem_map.mpr ⟨j, mem, rfl⟩) (slots.1 j mem)).resolve_left (nests j mem), slots.1 j mem⟩
      obtain ⟨first, others⟩ := List.forall_mem_cons.mp atoms
      obtain ⟨ρ, rests, fits, plain⟩ := lifts_juncts first.1 others fun j mem => by
        obtain ⟨t, shown, isWord⟩ := slots.2.2 j mem
        refine ⟨t, shown, words t (.inl ?_), isWord⟩
        rw [written, List.mem_flatMap]
        exact ⟨j, List.mem_cons_of_mem _ mem, by simp [shown, Piece.ofToken?]⟩
      have folded := rests_conjunction slots
      have starts : Layout.row ((Node.conjunction c).layout Render.isGlued) =
          c.first.expression :: Layout.row ((c.second :: c.rest).flatMap junct) := by
        have noWord := slots.2.1
        obtain ⟨⟨o, e⟩, second, rest⟩ := c
        obtain rfl : o = none := noWord
        simp [Node.layout, Conjunction.parts, junct, Piece.bare_expression first.2]
      rw [starts] at folded
      exact ⟨ρ, rests.append (.cons folded .nil), fits, plain⟩
    | _ => cases conjunction
  · exact atom.cell isExpression

/-! ## Sources and names -/

/-- The leaves of a name with a qualifier perhaps. -/
def nameRow (qualifier : Option Token) (name : Token) : Row := leaves ((qualifier.toList ++ [name]).intersperse .point)

/-- `Rule.column` folds a name again. -/
theorem rests_column {qualifier : Option Token} {name : Token} (symbols : ∀ t ∈ qualifier.toList ++ [name], t.kind = .symbol)
    {front after : Row} (idle : Idle .column front) (noPoint : ∀ t ∈ front.getLast?, Rule.leafIs Tree.node .dot t = false)
    (ends : ∀ t ∈ after.head?, Rule.leafIs Tree.node .dot t = false)
    (rests : Rests .column (front ++ .mk () (.column ⟨none, qualifier, name⟩) :: after) row) :
    Rests .column (front ++ (nameRow qualifier name ++ after)) row := by
  have last (room : Nat) : Rule.takeNames Tree.node room after = .ok ([], after) := by
    rw [Rule.takeNames.eq_def]
    cases after with
    | nil => rfl
    | cons t after => simp [ends t rfl]
  have behind : (front.reverse.head?.any (Rule.leafIs Tree.node .dot)) = false := by
    rw [List.head?_reverse]
    cases last : front.getLast? with
    | none => rfl
    | some t => exact noPoint t last
  have fold (first : Token) (rest : Row) (isFirst : first.kind = .symbol)
      (whole : nameRow qualifier name = .mk () (.leaf first) :: rest) (names : List Token)
      (read : Rule.takeNames Tree.node 2 (rest ++ after) = .ok (names, after))
      (same : Rule.columnName first names = ⟨none, qualifier, name⟩) :
      Rests .column (front ++ (nameRow qualifier name ++ after)) row := by
    have answer : Rule.apply Tree.node .column ⟨front.reverse, .mk () (.leaf first), rest ++ after⟩ =
        .ok (some ⟨front.reverse, .column ⟨none, qualifier, name⟩, after⟩) := by
      simp only [Rule.apply, Rule.applyColumn, leaf?_leaf isFirst, behind, Bool.false_eq_true, if_false, read, bind,
        Except.bind, same]
      rfl
    have idle : Idle .column front.reverse := fun t mem => idle t (List.mem_reverse.mp mem)
    have folded := Rests.fold idle.declinedBefore answer (by simpa [Fold.row, Fold.tree, Node.map] using rests)
    simpa [whole] using folded
  cases qualifier with
  | none => exact fold name [] (symbols name (by simp)) rfl [] (last 2) rfl
  | some q =>
    have isName : name.kind = .symbol := symbols name (by simp)
    refine fold q [.mk () (.leaf .point), .mk () (.leaf name)] (symbols q (by simp)) rfl [name] ?_ rfl
    have isPoint : Rule.leafIs Tree.node .dot (.mk () (.leaf .point) : Bare) = true := rfl
    simp only [List.cons_append, List.nil_append, Rule.takeNames, isPoint, if_true, leaf?_leaf isName, last 1]
    rfl

/-- `Rule.column` folds an alias again. -/
theorem rests_aliasRow {aliasName : Option Token} (isSymbol : ∀ t ∈ aliasName, t.kind = .symbol) {front : Row}
    (idle : Idle .column front) (noPoint : ∀ t ∈ front.getLast?, Rule.leafIs Tree.node .dot t = false) :
    Rests .column (front ++ leaves aliasName.toList) (front ++ aliasRow aliasName) := by
  have rest {row : Row} (idle : Idle .column row) : Rests .column row row := by
    simpa using (Turns.passes idle .nil).rests
  cases aliasName with
  | none => simpa [leaves, aliasRow] using rest idle
  | some t =>
    have folded := @rests_column _ none t (by simpa using isSymbol) _ [] idle noPoint (by simp)
      (rest (idle_append.mpr ⟨idle, idle_cons.mpr ⟨rfl, idle_nil⟩⟩))
    simpa [nameRow, aliasRow] using folded

/-- `Rule.call` declines where brackets do not stand behind anything. -/
theorem declined_call (apart : ∀ t ∈ row.tail, t.kind ≠ .bracket) : Declined .call row := by
  rintro left here right rfl
  unfold Rule.apply Rule.applyCall
  dsimp only
  split
  · next arguments after _ =>
    have other : Rule.isNode Tree.node .bracket arguments = false := by
      rw [Rule.isNode, beq_eq_false_iff_ne]
      refine apart arguments ?_
      cases left.reverse <;> simp
    rw [other]
    rfl
  · rfl

/-- The rules on operators decline where there are no leaves. -/
theorem declined_noLeaf {rule : Rule} (listed : rule ∈ [Rule.membership, .operation, .conjunction])
    (noLeaf : ∀ t ∈ row, t.node.token? = none) : Declined rule row := by
  rintro left here right rfl
  have here_none := noLeaf here (by simp)
  have leaf (kind : TokenKind) : Rule.takeLeaf? Tree.node kind right = none := by
    cases right with
    | nil => rfl
    | cons t right => simp [Rule.takeLeaf?, Rule.leaf?, noLeaf t (by simp)]
  simp only [List.mem_cons, List.not_mem_nil, or_false] at listed
  rcases listed with rfl | rfl | rfl
  · simp only [Rule.apply, Rule.applyMembership, leaf]
    split <;> rfl
  · have none : Rule.takeOperator? Tree.node right = none := by
      cases right with
      | nil => rfl
      | cons t right => simp [Rule.takeOperator?, noLeaf t (by simp)]
    simp only [Rule.apply, Rule.applyOperation, here_none, none]
    split <;> rfl
  · have none : Rule.takeJuncts Tree.node right = .ok ([], right) := by
      cases right with
      | nil => rfl
      | cons t right =>
        have read : Rule.leafOf? Tree.node Rule.joinsOperands t = .none := by
          rw [Rule.leafOf?, noLeaf t (by simp)]
          rfl
        cases right <;> simp [Rule.takeJuncts, read]
    simp only [Rule.apply, Rule.applyConjunction, here_none, none]
    split <;> rfl

/-- `Rule.membership` declines where there is no `IN`. -/
theorem declined_of_noIn (noIn : ∀ t ∈ row, Rule.leafIs Tree.node .inKw t = false) : Declined .membership row := by
  rintro left here right rfl
  have none {rest : Row} (behind : rest ⊆ right) : Rule.takeLeaf? Tree.node .inKw rest = none := by
    cases rest with
    | nil => rfl
    | cons t rest =>
      have other := noIn t (by simp [behind List.mem_cons_self])
      rw [Rule.takeLeaf?, Option.map_eq_none_iff, Option.eq_none_iff_forall_ne_some]
      intro u shown
      obtain ⟨shown, kind⟩ := Rule.leaf?_eq_some.mp shown
      rw [Rule.leafIs_iff.mpr ⟨u, shown, kind⟩] at other
      cases other
  unfold Rule.apply Rule.applyMembership
  dsimp only
  split
  · cases read : Rule.takeLeaf? Tree.node .notKw right with
    | none => simp only [none (List.Subset.refl right)]; rfl
    | some found =>
      obtain ⟨_, rfl, _⟩ := Rule.takeLeaf?_some read
      simp only [none (List.subset_cons_self _ _)]
      rfl
  · rfl

/-- A bracket that is made of leaves and brackets has content that can stand between brackets. -/
theorem IsAtom.proper {p : Bracket Bare} (atom : IsAtom P (.mk () (.bracket p))) : Proper p.children := by
  obtain ⟨σ, rests, fits, _⟩ := atom
  obtain ⟨B, rfl⟩ := rests.head_bracket (by decide) rfl
  have fit := fits.1
  cases fit with
  | span proper => exact proper rfl

/-- The rules on operands and conjunctions fold names only, where names stand alone or behind a bracket. -/
theorem restsAll_names (column : Rests .column ρ ν) (apart : ∀ t ∈ ρ.tail, t.kind ≠ .bracket)
    (idle : ∀ rule ∈ [Rule.literal, .allColumns], Idle rule ρ) (noLeaf : ∀ t ∈ ν, t.node.token? = none) :
    RestsAll (Rule.operandRules ++ [Rule.conjunction]) ρ ν := by
  have rest {rule : Rule} (listed : rule ∈ [Rule.literal, .allColumns]) : Rests rule ρ ρ := by
    simpa using (Turns.passes (idle rule listed) .nil).rests
  exact .cons (.rest (declined_call apart)) <| .cons (rest (by decide)) <| .cons (rest (by decide)) <| .cons column <|
    .cons (.rest (declined_noLeaf (by decide) noLeaf)) <| .cons (.rest (declined_noLeaf (by decide) noLeaf)) <|
      .cons (.rest (declined_noLeaf (by decide) noLeaf)) .nil

theorem noLeaf_aliasRow (aliasName : Option Token) : ∀ t ∈ aliasRow aliasName, t.node.token? = none := by
  cases aliasName with
  | none => exact nofun
  | some t => exact List.forall_mem_singleton.mpr rfl

/-- Whether a token is part of a name. -/
def isNamePart (t : Token) : Prop := t.kind = .symbol ∨ t.kind = .dot

/-- What rules see of the leaves of names. -/
theorem leaf_namePart {t : Token} (part : isNamePart t) :
    opens (.mk () (.leaf t)) = false ∧ closes (.mk () (.leaf t)) = false ∧
      ∀ rule ∈ [Rule.literal, .allColumns], rule.startsAt (Node.leaf t : Node Bare) = false := by
  show (some t.kind == some .bracketOpen) = false ∧ (some t.kind == some .bracketClose) = false ∧
    ∀ rule ∈ [Rule.literal, .allColumns], rule.startsAtLeaf t.kind = false
  rcases part with symbol | point
  · rw [symbol]
    decide
  · rw [point]
    decide

theorem not_bracket_of_mem_leaves {ts : List Token} : ∀ t ∈ leaves ts, t.kind ≠ .bracket :=
  List.forall_mem_map.mpr fun _ _ => nofun

theorem chained_nameParts {ts : List Token} {previous : Option Bare} (holds : ∀ t ∈ ts, P t)
    (parts : ∀ t ∈ ts, isNamePart t) : Chained (Fits P) previous (leaves ts) := by
  induction ts generalizing previous with
  | nil => trivial
  | cons t ts ih =>
    obtain ⟨here, holds⟩ := List.forall_mem_cons.mp holds
    obtain ⟨part, parts⟩ := List.forall_mem_cons.mp parts
    have other {kind : TokenKind} (same : t.kind = kind) (word : kind ≠ .symbol) (mark : kind ≠ .dot) : False :=
      part.elim (fun symbol => word (same.symm.trans symbol)) fun point => mark (same.symm.trans point)
    exact ⟨.leaf here (fun star => (other star nofun nofun).elim) fun isOperator => (other isOperator nofun nofun).elim,
      ih holds parts⟩

section Alias

variable {aliasName : Option Token} (isSymbol : ∀ t ∈ aliasName, t.kind = .symbol) (holds : ∀ t ∈ aliasName, P t)

include isSymbol holds

/-- A row stands in a cell with an alias behind it. -/
theorem cell_labelled {front front' : Row}
    (column : Rests .column (front ++ leaves aliasName.toList) (front' ++ aliasRow aliasName))
    (apart : ∀ t ∈ front.tail, t.kind ≠ .bracket) (idle : ∀ rule ∈ [Rule.literal, .allColumns], Idle rule front)
    (noLeaf : ∀ t ∈ front', t.node.token? = none) (fits : Chained (Fits P) none front)
    (plain : ∀ t ∈ front, opens t = false ∧ closes t = false) : Cell P (front' ++ aliasRow aliasName) := by
  have parts : ∀ t ∈ aliasName.toList, isNamePart t := fun t mem => .inl (isSymbol t (Option.mem_toList.mp mem))
  refine ⟨_, restsAll_names column ?_ (fun rule listed => ?_) ?_, ?_, ?_⟩
  · cases front with
    | nil => exact fun t mem => not_bracket_of_mem_leaves t (List.mem_of_mem_tail mem)
    | cons u front => exact List.forall_mem_append.mpr ⟨apart, not_bracket_of_mem_leaves⟩
  · exact idle_append.mpr ⟨idle rule listed, List.forall_mem_map.mpr fun t mem => (leaf_namePart (parts t mem)).2.2 rule listed⟩
  · exact List.forall_mem_append.mpr ⟨noLeaf, noLeaf_aliasRow aliasName⟩
  · exact chained_append.mpr ⟨fits, chained_nameParts (fun t mem => holds t (Option.mem_toList.mp mem)) parts⟩
  · refine List.forall_mem_append.mpr ⟨plain, List.forall_mem_map.mpr fun t mem => ?_⟩
    have seen := leaf_namePart (parts t mem)
    exact ⟨seen.1, seen.2.1⟩

/-- An alias stands in a cell. -/
theorem cell_aliasRow : Cell P (aliasRow aliasName) :=
  @cell_labelled _ _ isSymbol holds [] [] (@rests_aliasRow _ isSymbol [] nofun nofun) nofun
    (fun _ _ => nofun) nofun trivial nofun

/-- A subquery with its alias stands in a cell. -/
theorem cell_bracket {p : Bracket Bare} (proper : Proper p.children) : Cell P (.mk () (.bracket p) :: aliasRow aliasName) := by
  refine @cell_labelled _ _ isSymbol holds [.mk () (.bracket p)] [.mk () (.bracket p)]
    (rests_aliasRow isSymbol (idle_cons.mpr ⟨rfl, idle_nil⟩) (by rintro _ ⟨⟩; rfl)) nofun ?_ ?_ ⟨.span fun _ => proper, trivial⟩ ?_
  · intro rule listed
    refine idle_cons.mpr ⟨?_, idle_nil⟩
    revert listed
    cases rule <;> simp [Rule.startsAt, Rule.startsAtNode, Tree.node]
  · exact List.forall_mem_singleton.mpr rfl
  · exact List.forall_mem_singleton.mpr ⟨rfl, rfl⟩

/-- A table with its alias stands in a cell. -/
theorem cell_table {q : Option Token} {n : Token} (symbols : ∀ t ∈ q.toList ++ [n], t.kind = .symbol)
    (names : ∀ t ∈ (q.toList ++ [n]).intersperse .point, P t) :
    Cell P (.mk () (.column ⟨none, q, n⟩) :: aliasRow aliasName) := by
  have parts : ∀ t ∈ (q.toList ++ [n]).intersperse .point, isNamePart t := by
    cases q with
    | none => simpa [isNamePart] using .inl (symbols n (by simp))
    | some q =>
      have first := symbols q (by simp)
      have second := symbols n (by simp)
      simp [isNamePart, first, second, Token.point]
  have seen := fun t mem => leaf_namePart (parts t mem)
  refine @cell_labelled _ _ isSymbol holds (nameRow q n) [.mk () (.column ⟨none, q, n⟩)] ?_ ?_ ?_ ?_ ?_ ?_
  · have later := @rests_aliasRow _ isSymbol [.mk () (.column ⟨none, q, n⟩)] (idle_cons.mpr ⟨rfl, idle_nil⟩)
      (by rintro _ ⟨⟩; rfl)
    refine @rests_column _ _ _ symbols [] _ nofun nofun ?_ later
    cases aliasName with
    | none => exact nofun
    | some t =>
      rintro _ ⟨⟩
      show (some t.kind == some .dot) = false
      rw [isSymbol t rfl]
      rfl
  · exact fun t mem => not_bracket_of_mem_leaves t (List.mem_of_mem_tail mem)
  · exact fun rule listed => List.forall_mem_map.mpr fun t mem => (seen t mem).2.2 rule listed
  · exact List.forall_mem_singleton.mpr rfl
  · exact chained_nameParts names parts
  · exact List.forall_mem_map.mpr fun t mem => ⟨(seen t mem).1, (seen t mem).2.1⟩

end Alias

end Row

end SqlFold
