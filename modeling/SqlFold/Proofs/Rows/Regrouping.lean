import Mathlib.Data.List.Chain
import SqlFold.Proofs.Rows.Cells
import SqlFold.Proofs.Rows.Rest

/-!
# Rows parsed again

The brackets that a row is made of stand below its trees when the rules have come to rest
(`Row.RestsAll.brackets`). So a row can be made of leaves, if the content of every bracket below it can be, and
by induction on trees (`Tree.all_remade`) every row of statements in which all layers can be folded again is
parsed from leaves with the wording of the row (`Row.Statements.remakes`).
-/

namespace SqlFold

/-- What is said of a tree is said of everything below it. -/
theorem Tree.All.subtrees {C : Node Bare → Prop} {t : Bare} (all : t.All C) : ∀ u ∈ t.subtrees, u.All C := by
  induction all with
  | mk here below ih =>
    rw [Tree.subtrees_eq, List.forall_mem_cons]
    refine ⟨.mk here below, fun u mem => ?_⟩
    obtain ⟨c, listed, mem⟩ := List.mem_flatMap.mp mem
    exact ih c listed u mem

namespace Row

variable {P : Token → Prop} {rules : List Rule} {row row' ρ : Row}

/-! ## Brackets below trees -/

theorem mem_subtrees_self (t : Bare) : t ∈ t.subtrees := by
  rw [Tree.subtrees_eq]
  exact List.mem_cons_self

theorem subtrees_of_children_nil {t : Bare} (none : t.children = []) : t.subtrees = [t] := by
  rw [Tree.subtrees_eq, none]
  rfl

/-- Where a bracket stands below a tree that is folded, it stands below the tree that is made. -/
theorem mem_subtrees_of_matches {ps : List (Piece (Origin Bare))} {as : Row} (matched : Rule.MatchesAll Tree.node ps as)
    {u b : Bare} (taken : u ∈ as) (bracket : b.kind = .bracket) (below : b ∈ u.subtrees) :
    .child (.sibling u) ∈ ps := by
  induction matched with
  | nil => cases taken
  | @cons p a ps as made _ ih =>
    rcases List.mem_cons.mp taken with rfl | later
    · obtain ⟨⟨⟩, n⟩ := u
      have alone {m : Node Bare} (shown : n = m) (none : m.children = []) (other : m.kind ≠ .bracket) : False := by
        subst shown
        rw [subtrees_of_children_nil (t := .mk () n) none, List.mem_singleton] at below
        rw [below] at bracket
        exact other bracket
      cases made with
      | leaf shown => exact (alone shown (Node.children_leaf _) nofun).elim
      | name shown => exact (alone shown (Node.children_column _) nofun).elim
      | sibling => exact List.mem_cons_self
      | table shown => exact (alone shown (Node.children_column _) nofun).elim
    · exact List.mem_cons_of_mem _ (ih later)

/-- The brackets of a row stand below the trees that rules make of it. -/
theorem RestsAll.brackets (rests : RestsAll rules ρ row) :
    ∀ b ∈ ρ, b.kind = .bracket → ∃ u ∈ row, b ∈ u.subtrees := by
  refine rests.keeps (I := fun row => ∀ b ∈ ρ, b.kind = .bracket → ∃ u ∈ row, b ∈ u.subtrees)
    (fun rule _ left here right fold answer found b mem bracket => ?_) fun b mem _ => ⟨b, mem, mem_subtrees_self b⟩
  obtain ⟨u, stood, below⟩ := found b mem bracket
  obtain ⟨back, ahead, covers⟩ := Rule.apply_covers answer
  obtain ⟨ps, written, matched⟩ := covers.written
  have left_eq : left = back ++ fold.left := covers.left
  have right_eq : right = ahead ++ fold.right := covers.right
  have split : left.reverse ++ here :: right = fold.left.reverse ++ ((back.reverse ++ here :: ahead) ++ fold.right) := by
    rw [left_eq, right_eq]
    simp
  rw [split, List.mem_append, List.mem_append] at stood
  rcases stood with before | taken | behind
  · exact ⟨u, List.mem_append_left _ before, below⟩
  · refine ⟨fold.tree, List.mem_append_right _ List.mem_cons_self, ?_⟩
    rw [Tree.subtrees_eq]
    refine List.mem_cons_of_mem _ (List.mem_flatMap.mpr ⟨u, ?_, below⟩)
    have child := mem_subtrees_of_matches matched taken bracket below
    rw [Fold.tree, Tree.children, Tree.node, Node.children_map]
    refine List.mem_map.mpr ⟨.sibling u, ?_, rfl⟩
    rw [← written.children]
    exact List.mem_filterMap.mpr ⟨_, child, rfl⟩
  · exact ⟨u, List.mem_append_right _ (List.mem_cons_of_mem _ behind), below⟩

/-! ## Balanced rows -/

/-- In a row every bracket is opened and closed. -/
def Balanced (row : Row) : Prop :=
  ∀ depth rest, Rule.splitAtClosing? Tree.node depth (row ++ rest) =
    (Rule.splitAtClosing? Tree.node depth rest).map fun (inner, closing, after) => (row ++ inner, closing, after)

namespace Balanced

theorem nil : Balanced [] := fun depth rest => by
  rw [List.nil_append]
  cases Rule.splitAtClosing? Tree.node depth rest <;> rfl

theorem append (balanced : Balanced row) (balanced' : Balanced row') : Balanced (row ++ row') := fun depth rest => by
  rw [List.append_assoc, balanced, balanced']
  cases Rule.splitAtClosing? Tree.node depth rest with
  | none => rfl
  | some s => simp

theorem leaf {t : Token} (opened : opens (.mk () (.leaf t)) = false) (closed : closes (.mk () (.leaf t)) = false) :
    Balanced [.mk () (.leaf t)] := fun depth rest => by
  have notOpen : t.kind ≠ .bracketOpen := fun same =>
    Bool.noConfusion (opened.symm.trans (Rule.leafIs_iff.mpr ⟨t, rfl, same⟩))
  have notClose : t.kind ≠ .bracketClose := fun same =>
    Bool.noConfusion (closed.symm.trans (Rule.leafIs_iff.mpr ⟨t, rfl, same⟩))
  rw [List.singleton_append, Rule.splitAtClosing?.eq_def]
  simp only [Tree.node, Node.token?, if_neg notOpen, if_neg notClose, Rule.splitAtClosing?.within]
  rfl

/-- A span of brackets ends at the bracket that closes it. -/
theorem split {inner after : Row} {closing : Token} (balanced : Balanced inner) (isClosing : closing.kind = .bracketClose) :
    Rule.splitAtClosing? Tree.node 0 (inner ++ .mk () (.leaf closing) :: after) = some (inner, closing, after) := by
  rw [balanced, Rule.splitAtClosing?.eq_def]
  simp [Tree.node, Node.token?, isClosing]

theorem span {inner : Row} {opening closing : Token} (balanced : Balanced inner) (isOpening : opening.kind = .bracketOpen)
    (isClosing : closing.kind = .bracketClose) :
    Balanced (.mk () (.leaf opening) :: inner ++ [Tree.mk () (.leaf closing)]) := fun depth rest => by
  have opened : Rule.splitAtClosing? Tree.node depth (.mk () (.leaf opening) :: (inner ++ .mk () (.leaf closing) :: rest)) =
      Rule.splitAtClosing?.within Tree.node (depth + 1) (.mk () (.leaf opening)) (inner ++ .mk () (.leaf closing) :: rest) := by
    rw [Rule.splitAtClosing?.eq_def]
    simp only [Tree.node, Node.token?, if_pos isOpening]
  have closed : Rule.splitAtClosing? Tree.node (depth + 1) (.mk () (.leaf closing) :: rest) =
      Rule.splitAtClosing?.within Tree.node depth (.mk () (.leaf closing)) rest := by
    have notOpen : closing.kind ≠ .bracketOpen := by
      rw [isClosing]
      decide
    rw [Rule.splitAtClosing?.eq_def]
    simp only [Tree.node, Node.token?, if_neg notOpen, if_pos isClosing]
  rw [List.cons_append, List.cons_append, List.append_assoc, List.singleton_append, opened,
    Rule.splitAtClosing?.within, balanced, closed, Rule.splitAtClosing?.within]
  cases Rule.splitAtClosing? Tree.node depth rest with
  | none => rfl
  | some s => simp

end Balanced

/-! ## Rows of leaves -/

/-- Tokens of the sort `P` from which a row is parsed, with the wording of the row. -/
structure Remakes (P : Token → Prop) (ts : List Token) (row : Row) : Prop where
  parses : Parses (leaves ts) row
  alike : Alike ts row.wording
  fits : Chained (Fits P) none (leaves ts)
  balanced : Balanced (leaves ts)

end Row

/-- A bracket whose content can be parsed again. -/
def Node.Remade (P : Token → Prop) (n : Node Bare) : Prop :=
  match n with
  | .bracket p =>
    (p.opening.kind = .bracketOpen ∧ p.closing.kind = .bracketClose) ∧ (P p.opening ∧ P p.closing) ∧
      Rule.checkContent Tree.node (.mk () (.bracket p)) p.children true = .ok () ∧ ∃ ts, Row.Remakes P ts p.children
  | _ => True

namespace Row

variable {P : Token → Prop} {previous previous' : Option Bare} {row row' ρ : Row}

theorem leaves_cons (t : Token) (ts : List Token) : leaves (t :: ts) = .mk () (.leaf t) :: leaves ts := rfl

theorem leaves_append (ts us : List Token) : leaves (ts ++ us) = leaves ts ++ leaves us := List.map_append

theorem alike_cons (t : Token) {ts us : List Token} (alike : Alike ts us) : Alike (t :: ts) (t :: us) :=
  congrArg (Token.unplaced t :: ·) alike

/-- A row of leaves and brackets is grouped from leaves, if the content of the brackets can be parsed again. -/
theorem grouped_of_fits (fits : Chained (Fits P) previous ρ) (plain : ∀ t ∈ ρ, opens t = false ∧ closes t = false)
    (remade : ∀ t ∈ ρ, t.node.Remade P) (alike : previous.any multiplies = previous'.any multiplies) :
    ∃ ts, Grouped Parses previous (leaves ts) ρ ∧ Alike ts ρ.wording ∧ Chained (Fits P) previous' (leaves ts) ∧
      Balanced (leaves ts) := by
  induction ρ generalizing previous previous' with
  | nil => exact ⟨[], .nil, .rfl', trivial, .nil⟩
  | cons t ρ ih =>
    obtain ⟨here, later⟩ := fits
    obtain ⟨⟨opened, closed⟩, plainLater⟩ := List.forall_mem_cons.mp plain
    obtain ⟨remadeHere, remadeLater⟩ := List.forall_mem_cons.mp remade
    cases here with
    | @leaf t holds star product =>
      obtain ⟨ts, grouped, words, fits, balanced⟩ := ih later plainLater remadeLater rfl
      exact ⟨t :: ts, .cons rfl opened closed grouped, alike_cons t words,
        ⟨.leaf holds (alike ▸ star) (alike ▸ product), fits⟩, (Balanced.leaf opened closed).append balanced⟩
    | @span opening closing content proper =>
      obtain ⟨⟨isOpening, isClosing⟩, ⟨holdsOpening, holdsClosing⟩, checked, us, remakes⟩ := remadeHere
      have ends : (some (Row.span opening closing content)).any multiplies =
          (some (.mk () (.leaf closing))).any multiplies := by
        show true = closing.kind.beforeProduct
        rw [isClosing]
        rfl
      obtain ⟨ts, grouped, words, fits, balanced⟩ := ih later plainLater
        remadeLater ends
      have whole : leaves (opening :: (us ++ closing :: ts)) =
          .mk () (.leaf opening) :: (leaves us ++ .mk () (.leaf closing) :: leaves ts) := by
        rw [leaves_cons, leaves_append, leaves_cons]
      have checked : Rule.checkContent Tree.node (Row.span opening closing content) content
          (previous.any (Rule.leafIs Tree.node .symbol)) = .ok () := by
        cases behindName : previous.any (Rule.leafIs Tree.node .symbol) with
        | true => exact checked
        | false => exact checked_of_proper checked (proper behindName) false
      have mark {t : Token} {kind : TokenKind} {previous : Option Bare} (holds : P t) (same : t.kind = kind)
          (noStar : kind ≠ .star) (noOperator : kind ≠ .operator) : Fits P previous (.mk () (.leaf t)) :=
        .leaf holds (fun star => absurd (same.symm.trans star) noStar)
          fun isOperator => absurd (same.symm.trans isOperator) noOperator
      refine ⟨opening :: (us ++ closing :: ts), ?_, ?_, ?_, ?_⟩
      · rw [whole]
        exact .span rfl isOpening (remakes.balanced.split isClosing) remakes.parses checked grouped
      · rw [wording_cons, Tree.wording_span]
        simpa using alike_cons opening (remakes.alike.append (alike_cons closing words))
      · rw [whole]
        refine ⟨mark holdsOpening isOpening nofun nofun, chained_append.mpr
          ⟨remakes.fits.fits_behind (by rw [isOpening]; rfl), mark holdsClosing isClosing nofun nofun, fits⟩⟩
      · rw [whole]
        simpa using (remakes.balanced.span isOpening isClosing).append balanced

/-- A row is parsed from leaves again, if the brackets below it can be. -/
theorem Lifts.remakes (lifts : Lifts P Rule.standard.tail ρ row) (alike : Alike row.wording ρ.wording)
    (remade : ∀ t ∈ row, t.All (Node.Remade P)) : ∃ ts, Remakes P ts row := by
  have below : ∀ t ∈ ρ, t.node.Remade P := fun t mem => by
    obtain ⟨previous, fit⟩ := lifts.fits.exists_of_mem mem
    cases fit with
    | leaf => trivial
    | span =>
      obtain ⟨u, stands, below⟩ := lifts.rests.brackets _ mem rfl
      exact ((remade u stands).subtrees _ below).node
  obtain ⟨ts, grouped, words, fits, balanced⟩ := grouped_of_fits lifts.fits lifts.plain below rfl
  exact ⟨ts, .mk grouped lifts.rests, words.trans alike.symm, fits, balanced⟩

end Row

/-- In a tree in which all layers can be folded again the content of all brackets can be parsed again. -/
theorem Tree.all_remade {P : Token → Prop} (points : ∀ t, P t → t.kind = .dot → t.lexeme = ".") {t : Bare}
    (restores : t.All (Node.Restores P)) : t.All (Node.Remade P) := by
  induction restores with
  | @mk n here below ih =>
    refine .mk ?_ ih
    cases n with
    | bracket p =>
      obtain ⟨⟨_, slots, _⟩, ⟨checked, terms, ends⟩, words⟩ := here
      simp only [Node.children_bracket] at below ih
      obtain ⟨front, last, whole, segment⟩ := Row.segment_of_content (Rule.checkContent_ok checked) ends below terms
      have lifts := segment.lifts (fun t mem => below t (by rw [whole]; simp [Option.mem_def.mp mem])) points
      rw [← whole] at lifts
      obtain ⟨ρ, lifts, alike⟩ := lifts
      refine ⟨slots, ⟨words _ (.inl ?_), words _ (.inl ?_)⟩, checked, lifts.remakes alike ih⟩
      · simp [Node.layout]
      · simp [Node.layout]
    | _ => trivial

namespace Row

variable {P : Token → Prop} {row A B : Row}

/-! ## What stands by itself -/

section Alone

variable (points : ∀ t, P t → t.kind = .dot → t.lexeme = ".") {t : Bare} (restores : t.All (Node.Restores P))

include points restores

theorem remakes_statement (statement : t.kind.isStatement = true) : ∃ ts, Remakes P ts [t] := by
  obtain ⟨ρ, lifts, alike⟩ := @Segment.lifts P [] (some t)
    ⟨cell_nil, fun _ _ => idle_nil, by rintro _ ⟨⟩; exact statement⟩ (by rintro _ ⟨⟩; exact restores) points
  exact lifts.remakes alike (List.forall_mem_singleton.mpr (Tree.all_remade points restores))

theorem remakes_operand (isExpression : t.kind.isExpression = true) (term : IsTerm P t) : ∃ ts, Remakes P ts [t] := by
  have cell := term.cell isExpression restores.node
  have idle : ∀ rule ∈ Rule.clauseRules ++ Rule.statementRules, Idle rule [t] := fun rule listed => by
    rw [← Piece.bare_expression isExpression]
    exact idle_cons.mpr ⟨startsAt_operand listed isExpression, idle_nil⟩
  obtain ⟨ρ, lifts, alike⟩ := cell.lifts (restsAll_of_idle idle) rfl points
  exact lifts.remakes alike (List.forall_mem_singleton.mpr (Tree.all_remade points restores))

theorem remakes_clause (clause : t.kind ∈ Rule.clauseRules.map Rule.makes) : ∃ ts, Remakes P ts [t] := by
  obtain ⟨ρ, lifts, alike⟩ := lifts_clause clause restores points
  exact lifts.remakes alike (List.forall_mem_singleton.mpr (Tree.all_remade points restores))

end Alone

/-- A leaf that was parsed to itself is parsed so again. -/
theorem remakes_leaf {u : Token} (holds : P u) {raw : Row} (parses : Parses raw [.mk () (.leaf u)])
    (sound : AllSound raw) : ∃ ts, Remakes P ts [.mk () (.leaf u)] := by
  have kind {kind : TokenKind} (gone : kind = .bracketOpen ∨ kind = .bracketClose ∨ Rule.isConsumed kind = true) :
      u.kind ≠ kind := by
    rintro rfl
    exact parses.not_mem_leafKinds gone (List.mem_singleton_self _)
  have plain : opens (.mk () (.leaf u)) = false ∧ closes (.mk () (.leaf u)) = false :=
    ⟨beq_false_of_ne fun same => kind (.inl rfl) (Option.some.inj same),
      beq_false_of_ne fun same => kind (.inr (.inl rfl)) (Option.some.inj same)⟩
  have rests : RestsAll Rule.standard.tail [.mk () (.leaf u)] [.mk () (.leaf u)] := by
    have declined : ∀ rule ∈ Rule.standard.tail, Declined rule [.mk () (.leaf u)] := fun rule listed =>
      parses.declined sound (by rintro rfl; revert listed; decide)
    generalize Rule.standard.tail = rules at declined
    induction rules with
    | nil => exact .nil
    | cons rule rules ih =>
      obtain ⟨here, declined⟩ := List.forall_mem_cons.mp declined
      exact .cons (.rest here) (ih declined)
  have fit : Fits P none (.mk () (.leaf u)) :=
    .leaf holds (fun _ => rfl) fun isOperator => absurd isOperator (kind (.inr (.inr rfl)))
  exact ⟨[u], .mk (.cons rfl plain.1 plain.2 .nil) rests, rfl, ⟨fit, trivial⟩, .leaf plain.1 plain.2⟩

/-- Whatever stands apart in a parsed row was parsed by itself. -/
theorem Parses.exists_alone {ts : List Token} (parses : Parses (leaves ts) row) (apart : Apart row) :
    ∀ t ∈ row, Rule.leafIs Tree.node .semicolon t = false → ∃ us, Parses (leaves us) [t] := by
  generalize bound : ts.length = size
  induction size using Nat.strongRecOn generalizing ts row with
  | ind size ih =>
    subst bound
    intro t mem other
    by_cases semicolon : ∃ u ∈ ts, u.kind = .semicolon
    · -- What stands before a semicolon and behind it was parsed by itself.
      obtain ⟨u, stands, isSemi⟩ := semicolon
      obtain ⟨before, behind, rfl⟩ := List.append_of_mem stands
      have semi : Rule.leafIs Tree.node .semicolon (.mk () (.leaf u) : Bare) = true := Rule.leafIs_iff.mpr ⟨u, rfl, isSemi⟩
      rw [leaves_append, leaves_cons, parses_semicolon semi] at parses
      obtain ⟨A, B, parsesA, parsesB, rfl⟩ := parses
      obtain ⟨apartA, apartB, _⟩ := List.isChain_append.mp apart
      rcases List.mem_append.mp mem with memA | memB
      · exact ih before.length (by simp) parsesA apartA rfl t memA other
      · rcases List.mem_cons.mp memB with rfl | memB
        · cases semi.symm.trans other
        · exact ih behind.length (by simp only [List.length_append, List.length_cons]; omega) parsesB
            (List.isChain_of_isChain_cons apartB) rfl t memB other
    · have none : ∀ t ∈ row, Rule.leafIs Tree.node .semicolon t = false := by
        refine parses.forall_mem (fun _ _ _ _ _ _ _ _ => rfl) (fun _ _ _ _ _ _ answer _ => leafIs_tree answer .semicolon)
          fun t mem => ?_
        obtain ⟨u, listed, rfl⟩ := List.mem_map.mp mem
        exact beq_false_of_ne fun same => semicolon ⟨u, listed, Option.some.inj same⟩
      have alone : row = [t] := by
        match row, mem, none, apart with
        | [_], mem, _, _ => rw [List.mem_singleton.mp mem]
        | s :: s' :: _, _, none, apart =>
          have beside := (List.isChain_cons_cons.mp apart).1
          rw [none s (by simp), none s' (by simp)] at beside
          simp at beside
      exact ⟨ts, alone ▸ parses⟩

/-- No table stands in a parsed row, but below it. -/
theorem Parses.no_table {ts : List Token} (parses : Parses (leaves ts) row) : ∀ t ∈ row, t.kind ≠ .table := by
  refine parses.forall_mem (fun _ _ _ _ _ _ _ _ => nofun) (fun rule _ _ _ _ _ answer _ => ?_) fun t mem => ?_
  · rw [Rule.kind_tree answer]
    cases rule <;> decide
  · have leaf : t.kind = .tokenLeaf := leaf_of_mem_leaves ts t mem
    rw [leaf]
    decide

/-- Whatever stands apart in a parsed row is parsed again by itself, if its layers can be folded again. -/
theorem Parses.remakes {ts : List Token} (parses : Parses (leaves ts) row) (apart : Apart row)
    (points : ∀ t, P t → t.kind = .dot → t.lexeme = ".") (restores : ∀ t ∈ row, t.All (Node.Restores P))
    (terms : ∀ t ∈ row, t.kind.isExpression = true → IsTerm P t) {t : Bare} (mem : t ∈ row)
    (other : Rule.leafIs Tree.node .semicolon t = false) : ∃ us, Remakes P us [t] := by
  have restores := restores t mem
  have kinds : t.kind.isExpression = true ∨ t.kind = .tokenLeaf ∨ t.kind.isStatement = true ∨
      t.kind ∈ Rule.clauseRules.map Rule.makes := by
    have noRoot : t.kind ≠ .root := restores.node.regular.1
    have noTable := parses.no_table t mem
    revert noRoot noTable
    generalize t.kind = kind
    cases kind <;> decide
  rcases kinds with isExpression | leaf | statement | clause
  · exact remakes_operand points restores isExpression (terms t mem isExpression)
  · obtain ⟨us, alone⟩ := parses.exists_alone apart t mem other
    obtain ⟨⟨⟩, n⟩ := t
    cases n with
    | leaf u => exact remakes_leaf (restores.node.words u (.inl (List.mem_singleton_self _))) alone (allSound_leaves us)
    | _ => cases leaf
  · exact remakes_statement points restores statement
  · exact remakes_clause points restores clause

/-- Rows are parsed again with a semicolon between them. -/
theorem Remakes.join {ts us : List Token} {semi : Token} (remakes : Remakes P ts A) (remakes' : Remakes P us B)
    (isSemi : semi.kind = .semicolon) (holds : P semi) : Remakes P (ts ++ semi :: us) (A ++ .mk () (.leaf semi) :: B) := by
  have semicolon : Rule.leafIs Tree.node .semicolon (.mk () (.leaf semi) : Bare) = true :=
    Rule.leafIs_iff.mpr ⟨semi, rfl, isSemi⟩
  have sunder : sunders semi.kind = true := by rw [isSemi]; rfl
  have whole : leaves (ts ++ semi :: us) = leaves ts ++ .mk () (.leaf semi) :: leaves us := by
    rw [leaves_append, leaves_cons]
  refine ⟨?_, ?_, ?_, ?_⟩
  · rw [whole]
    exact (parses_semicolon semicolon).mpr ⟨A, B, remakes.parses, remakes'.parses, rfl⟩
  · rw [wording_append, wording_cons]
    exact remakes.alike.append (alike_cons semi remakes'.alike)
  · rw [whole]
    exact chained_append.mpr ⟨remakes.fits, fits_sunder holds sunder,
      remakes'.fits.fits_behind (beforeProduct_sunder sunder)⟩
  · rw [whole]
    have plain := plain_sunder sunder
    exact remakes.balanced.append ((Balanced.leaf plain.1 plain.2).append remakes'.balanced)

/-- A row in which all stands apart is parsed from leaves again, if all that stands there is. -/
theorem Apart.remakes (apart : Apart row) (restores : ∀ t ∈ row, t.All (Node.Restores P))
    (alone : ∀ t ∈ row, Rule.leafIs Tree.node .semicolon t = false → ∃ ts, Remakes P ts [t]) :
    ∃ ts, Remakes P ts row := by
  have nothing : Remakes P [] [] := ⟨.mk .nil (restsAll_nil _), rfl, trivial, .nil⟩
  have join {s : Bare} {front rest : Row} (semicolon : Rule.leafIs Tree.node .semicolon s = true)
      (restores : s.All (Node.Restores P)) (before : ∃ ts, Remakes P ts front) (behind : ∃ ts, Remakes P ts rest) :
      ∃ ts, Remakes P ts (front ++ s :: rest) := by
    obtain ⟨semi, rfl, isSemi, holds⟩ := restores_leaf semicolon restores
    obtain ⟨ts, remakes⟩ := before
    obtain ⟨us, remakes'⟩ := behind
    exact ⟨_, remakes.join remakes' isSemi holds⟩
  induction row using List.twoStepInduction with
  | nil => exact ⟨[], nothing⟩
  | singleton t =>
    rw [List.forall_mem_singleton] at restores alone
    cases semicolon : Rule.leafIs Tree.node .semicolon t with
    | false => exact alone semicolon
    | true => exact join semicolon restores ⟨[], nothing⟩ ⟨[], nothing⟩
  | cons_cons t s rest ih ih' =>
    obtain ⟨beside, apart⟩ := List.isChain_cons_cons.mp apart
    obtain ⟨restoresHere, restores⟩ := List.forall_mem_cons.mp restores
    obtain ⟨aloneHere, alone⟩ := List.forall_mem_cons.mp alone
    cases semicolon : Rule.leafIs Tree.node .semicolon t with
    | true => exact join semicolon restoresHere ⟨[], nothing⟩ (ih' s apart restores alone)
    | false =>
      have next := beside.resolve_left (by simp [semicolon])
      obtain ⟨restoresNext, restores⟩ := List.forall_mem_cons.mp restores
      exact join next restoresNext (aloneHere semicolon)
        (ih (List.isChain_of_isChain_cons apart) restores (List.forall_mem_cons.mp alone).2)

/-- A row of statements is parsed from leaves again, if all its layers can be folded again. -/
theorem Statements.remakes (points : ∀ t, P t → t.kind = .dot → t.lexeme = ".") (statements : Statements row)
    {previous : Option Bare} (ends : Chained Ends previous row) (restores : ∀ t ∈ row, t.All (Node.Restores P)) :
    ∃ ts, Remakes P ts row := by
  refine (statements.apart ends).remakes restores fun t mem other => ?_
  have statement := (statements t mem).resolve_right (by simp [other])
  exact remakes_statement points (restores t mem) statement

end Row

end SqlFold
