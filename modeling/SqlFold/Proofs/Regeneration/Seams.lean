import Mathlib.Data.List.Chain
import SqlFold.Proofs.Lexing.Cursors
import SqlFold.Proofs.Rows.Yields

/-!
# Numbers and names

A scanner that stands behind a number takes the letters that follow for a name, even where they spell a keyword. In
a row in which all stands apart no name follows a number: between the two there is always a word, an operator, a
comma, a semicolon or a bracket (`Tree.seams`). So all tokens of such a row are found again elsewhere (`Script.Lexed.standard`).
-/

namespace SqlFold

/-- No name stands right behind a number. -/
def Token.Seam (t u : Token) : Prop := t.kind = .numericLiteral → u.kind ≠ .symbol

/-- Where no name follows a number, every token is found again elsewhere. -/
theorem Script.Lexed.standard {ts : List Token} {previous : Option TokenKind} (lexed : Lexed previous ts)
    (seams : ts.IsChain Token.Seam) (first : ∀ t ∈ ts.head?, previous = some .numericLiteral → t.kind ≠ .symbol) :
    ∀ t ∈ ts, t.Standard := by
  induction ts generalizing previous with
  | nil => nofun
  | cons t ts ih =>
    obtain ⟨here, _, _, later⟩ := lexed
    obtain ⟨next, seams⟩ := List.isChain_cons.mp seams
    refine List.forall_mem_cons.mpr ⟨here (first t rfl), ih later seams fun u isNext number => ?_⟩
    exact next u isNext (Option.some.inj number)

/-! ## Where numbers end and names start -/

namespace Tree

/-- Whether a number may be the last token of a tree. -/
def endsNumber (t : Bare) : Bool :=
  match t.node with
  | .leaf u => u.kind == .numericLiteral
  | n => n.kind ∉ [.column, .bracket, .call, .allColumns, .table]

/-- Whether a name may be the first token of a tree. -/
def startsName (t : Bare) : Bool :=
  match t.node with
  | .leaf u => u.kind == .symbol
  | n => n.kind != .bracket && !n.kind.isClause

theorem endsNumber_of_kind {t : Bare} (quiet : t.kind ∈ [NodeKind.column, .bracket, .call, .allColumns, .table]) :
    t.endsNumber = false := by
  obtain ⟨⟨⟩, n⟩ := t
  cases n with
  | leaf => exact absurd quiet (by simp [kind, node, Node.kind])
  | _ => exact decide_eq_false (not_not_intro quiet)

theorem startsName_of_kind {t : Bare} (light : t.kind = .bracket ∨ t.kind.isClause = true) : t.startsName = false := by
  obtain ⟨⟨⟩, n⟩ := t
  cases n <;> revert light <;> simp [kind, node, Node.kind, startsName, NodeKind.isClause, NodeKind.isPhrase]

theorem seam_leaf {t : Bare} {kind : TokenKind} (isLeaf : Rule.leafIs node kind t = true) :
    t.endsNumber = (kind == .numericLiteral) ∧ t.startsName = (kind == .symbol) := by
  obtain ⟨u, shown, rfl⟩ := Rule.leafIs_iff.mp isLeaf
  rw [endsNumber, startsName, shown]
  exact ⟨rfl, rfl⟩

end Tree

namespace Piece

/-- Whether a number may be the last token of a piece. -/
def endsNumber : Piece Bare → Bool
  | .token t => t.kind == .numericLiteral
  | .name t => t.kind == .numericLiteral
  | .child c => c.endsNumber

/-- Whether a name may be the first token of a piece. -/
def startsName : Piece Bare → Bool
  | .token t => t.kind == .symbol
  | .name t => t.kind == .symbol
  | .child c => c.startsName

end Piece

/-! ## Layers -/

/-- Behind a piece that may end with a number no piece stands that may start with a name. -/
def Sewn : (number : Bool) → List (Piece Bare) → Prop
  | _, [] => True
  | number, p :: ps => (number = true → p.startsName = false) ∧ Sewn p.endsNumber ps

namespace Sewn

variable {b : Bool} {ps qs : List (Piece Bare)}

theorem weaken (sewn : Sewn true ps) : Sewn b ps := by
  cases ps with
  | nil => trivial
  | cons p ps => exact ⟨fun _ => sewn.1 rfl, sewn.2⟩

theorem append (sewn : Sewn b ps) (light : Sewn true qs) : Sewn b (ps ++ qs) := by
  induction ps generalizing b with
  | nil => exact light.weaken
  | cons p ps ih => exact ⟨sewn.1, ih sewn.2⟩

/-- Behind what does not end with a number anything may stand. -/
theorem quiet (quiets : ∀ p ∈ ps, p.endsNumber = false) (sewn : Sewn false qs) : Sewn false (ps ++ qs) := by
  induction ps with
  | nil => exact sewn
  | cons p ps ih =>
    obtain ⟨here, others⟩ := List.forall_mem_cons.mp quiets
    refine ⟨nofun, ?_⟩
    rw [here]
    exact ih others

theorem of_quiet (quiets : ∀ p ∈ ps, p.endsNumber = false) : Sewn false ps := by
  simpa using @quiet ps [] quiets trivial

/-- What does not start with a name may stand behind anything. -/
theorem light (lights : ∀ p ∈ ps, p.startsName = false) (sewn : Sewn true qs) : Sewn true (ps ++ qs) := by
  induction ps with
  | nil => exact sewn
  | cons p ps ih =>
    obtain ⟨here, others⟩ := List.forall_mem_cons.mp lights
    exact ⟨fun _ => here, (ih others).weaken⟩

theorem of_light (lights : ∀ p ∈ ps, p.startsName = false) : Sewn true ps := by
  simpa using @light ps [] lights trivial

/-- A word may stand behind anything, and anything behind it. -/
theorem word {t : Token} (noNumber : t.kind ≠ .numericLiteral) (noName : t.kind ≠ .symbol) (sewn : Sewn false ps) :
    Sewn b (.token t :: ps) := by
  refine ⟨fun _ => beq_false_of_ne noName, ?_⟩
  rw [show Piece.endsNumber (.token t) = false from beq_false_of_ne noNumber]
  exact sewn

/-- Any piece may stand where no number ends. -/
theorem cons {p : Piece Bare} (sewn : Sewn p.endsNumber ps) : Sewn false (p :: ps) :=
  ⟨fun number => absurd number Bool.false_ne_true, sewn⟩

/-- A single piece at the front. -/
theorem single (p : Piece Bare) : Sewn false [p] := .cons trivial

end Sewn

/-- The names of a dotted name are written without numbers. -/
theorem Dotted.quiet {names : List Token} {ps : List (Piece Bare)} (dotted : Dotted names ps)
    (noNumber : ∀ t ∈ names, (t.kind == .numericLiteral) = false) : ∀ p ∈ ps, p.endsNumber = false := by
  induction dotted with
  | single name =>
    rintro _ (_ | ⟨_, ⟨⟩⟩)
    exact noNumber name List.mem_cons_self
  | @cons name point _ _ isPoint _ ih =>
    obtain ⟨here, others⟩ := List.forall_mem_cons.mp noNumber
    refine List.forall_mem_cons.mpr ⟨here, List.forall_mem_cons.mpr ⟨?_, ih others⟩⟩
    rw [Piece.endsNumber, isPoint]
    rfl

/-- The entries of a list stand between commas. -/
theorem Listed.sewn {β : Type} {entry : β → List (Piece Bare) → Prop} {bs : List β} {ps : List (Piece Bare)}
    (listed : Listed entry bs ps) (each : ∀ b ∈ bs, ∀ qs, entry b qs → Sewn false qs) : Sewn false ps := by
  induction listed with
  | single here => exact each _ List.mem_cons_self _ here
  | @cons b bs comma ps qs here isComma _ ih =>
    obtain ⟨first, others⟩ := List.forall_mem_cons.mp each
    refine (first ps here).append (.word ?_ ?_ (ih others))
    all_goals
      rw [isComma]
      nofun

/-- An alias ends with a name. -/
theorem Aliased.quiet {required : Bool} {aliasName : Option Token} {ps : List (Piece Bare)} (aliased : Aliased required aliasName ps)
    (isSymbol : ∀ t ∈ aliasName, t.kind = .symbol) : ∀ p ∈ ps, p.endsNumber = false := by
  have name {t : Token} (symbol : t.kind = .symbol) : (Piece.name t).endsNumber = false := by
    rw [Piece.endsNumber, symbol]
    rfl
  cases aliased with
  | none => nofun
  | bare =>
    rintro _ (_ | ⟨_, ⟨⟩⟩)
    exact name (isSymbol _ rfl)
  | worded isWord =>
    refine List.forall_mem_cons.mpr ⟨?_, ?_⟩
    · rw [Piece.endsNumber, isWord]
      rfl
    · rintro _ (_ | ⟨_, ⟨⟩⟩)
      exact name (isSymbol _ rfl)

namespace Node

variable {n : Node Bare} {ps : List (Piece Bare)}

theorem quiet_source {c : Bare} (source : (Rule.glance Tree.node c).IsSource) : (Piece.child c).endsNumber = false :=
  Tree.endsNumber_of_kind (source.elim (fun table => by simp [show c.kind = .table from table])
    fun bracket => by simp [show c.kind = .bracket from bracket])

theorem sewn_clauses {cs : Row} {kind : NodeKind} (same : ∀ c ∈ cs, (Rule.glance Tree.node c).kind = kind)
    (clause : kind.isClause = true) : Sewn true (cs.map .child) := by
  refine .of_light fun p mem => ?_
  obtain ⟨c, listed, rfl⟩ := List.mem_map.mp mem
  exact Tree.startsName_of_kind (.inr ((show c.kind = kind from same c listed) ▸ clause))

theorem sewn_clause {c? : Option Bare} {kind : NodeKind} (same : ∀ c ∈ c?, (Rule.glance Tree.node c).kind = kind)
    (clause : kind.isClause = true) : Sewn true (Piece.ofChild? c?) :=
  sewn_clauses (fun c mem => same c (Option.mem_toList.mp mem)) clause

/-- What stands between brackets stands between commas. -/
theorem sewn_items {row : Row} (items : Rule.Items Tree.node row) : Sewn false (row.map .child) := by
  induction items with
  | last => exact .single _
  | @next a comma rest _ isComma _ ih =>
    obtain ⟨noNumber, noName⟩ := Tree.seam_leaf isComma
    refine .cons ⟨fun _ => noName, ?_⟩
    rw [Piece.endsNumber, noNumber]
    exact ih

theorem sewn_content {row : Row} (content : Rule.Content Tree.node row) : Sewn false (row.map .child) := by
  cases content with
  | empty => trivial
  | items items => exact sewn_items items
  | @distinct word _ isWord items =>
    refine .cons ?_
    rw [Piece.endsNumber, (Tree.seam_leaf isWord).1]
    exact sewn_items items

/-- Semicolons stand between what stands apart. -/
theorem sewn_apart {row : Row} (apart : row.Apart) : Sewn false (row.map .child) := by
  induction row using List.twoStepInduction with
  | nil => trivial
  | singleton => exact .single _
  | cons_cons t s rest ih ih' =>
    obtain ⟨beside, apart⟩ := List.isChain_cons_cons.mp apart
    rcases beside with semicolon | semicolon
    · refine .cons ?_
      rw [Piece.endsNumber, (Tree.seam_leaf semicolon).1]
      exact ih' s apart
    · obtain ⟨noNumber, noName⟩ := Tree.seam_leaf semicolon
      refine .cons ⟨fun _ => noName, ?_⟩
      rw [Piece.endsNumber, noNumber]
      exact ih (List.isChain_of_isChain_cons apart)

/-- The pieces of a layer fit together. -/
theorem Written.sewn (written : n.Written ps) (slots : n.Slots (Rule.glance Tree.node))
    (apart : ∀ cs, n = .root cs → Row.Apart cs) (reads : n.Reads fun _ => True) : Sewn false ps := by
  -- A word is known by its kind.
  have word {t : Token} {kind : TokenKind} {b : Bool} {qs : List (Piece Bare)} (same : t.kind = kind)
      (plain : kind ≠ .numericLiteral ∧ kind ≠ .symbol) (sewn : Sewn false qs) : Sewn b (.token t :: qs) :=
    .word (same ▸ plain.1) (same ▸ plain.2) sewn
  cases written with
  | leaf t => exact .single _
  | column dotted =>
    exact .of_quiet (dotted.quiet fun t mem => by rw [slots.symbols t mem]; rfl)
  | literal l =>
    refine .quiet (fun p mem => ?_) (.single _)
    obtain ⟨s, isSign, rfl⟩ := List.mem_map.mp mem
    have sign := (slots.2 s (Option.mem_toList.mp isSign)).1
    rw [Rule.isSign, Bool.and_eq_true, beq_iff_eq] at sign
    rw [Piece.endsNumber, sign.1]
    rfl
  | operation o =>
    obtain ⟨_, _, shape⟩ := slots
    rcases o with ⟨left, operator, right⟩
    refine .cons ?_
    cases shape with
    | @single t starts =>
      refine word rfl ?_ (.single _)
      revert starts
      generalize t.kind = kind
      cases kind <;> decide
    | isNot isIs isNot => exact word isIs (by decide) (word isNot (by decide) (.single _))
    | notLike isNot last =>
      refine word isNot (by decide) ?_
      rcases last with isLike | isIn
      · exact word isLike (by decide) (.single _)
      · exact word isIn (by decide) (.single _)
  | membership o =>
    obtain ⟨_, _, isNot, isIn⟩ := slots
    rcases o with ⟨left, _ | t, keyword, list⟩
    · exact .cons (word isIn (by decide) (.single _))
    · exact .cons (word (isNot t rfl) (by decide) (word isIn (by decide) (.single _)))
  | conjunction c =>
    obtain ⟨_, first, others⟩ := slots
    rcases c with ⟨⟨_, e⟩, second, rest⟩
    obtain rfl : _ = none := first
    have juncts (js : List (Junct Bare)) (words : ∀ j ∈ js, ∃ t, j.operator = some t ∧ Rule.joinsOperands t.kind = true) :
        Sewn true (js.flatMap fun j => Piece.ofToken? j.operator ++ [Piece.child j.expression]) := by
      induction js with
      | nil => trivial
      | cons j js ih =>
        obtain ⟨here, others⟩ := List.forall_mem_cons.mp words
        obtain ⟨t, shown, joins⟩ := here
        rw [List.flatMap_cons, shown]
        refine word rfl ?_ (.append (.single _) (ih others))
        revert joins
        generalize t.kind = kind
        cases kind <;> decide
    exact .cons (juncts (second :: rest) others).weaken
  | bracket p =>
    obtain ⟨isOpening, isClosing⟩ := slots
    exact word isOpening (by decide) ((sewn_content (Rule.checkContent_ok reads.1)).append (word isClosing (by decide) trivial))
  | call c =>
    refine .of_quiet (List.forall_mem_cons.mpr ⟨by rw [Piece.endsNumber, slots.1]; rfl, ?_⟩)
    rintro _ (_ | ⟨_, ⟨⟩⟩)
    exact quiet_source (.inr slots.2.1)
  | @allColumns a _ dotted =>
    refine .of_quiet (dotted.quiet fun t mem => ?_)
    rcases List.mem_append.mp mem with isName | isStar
    · rw [slots.1 t isName]
      rfl
    · rw [List.mem_singleton.mp isStar, slots.2.2]
      rfl
  | table dotted =>
    refine .of_quiet (dotted.quiet fun t mem => ?_)
    rw [slots t mem]
    rfl
  | fromClause aliased =>
    obtain ⟨isFrom, source, isSymbol⟩ := slots
    refine word isFrom (by decide) (.of_quiet (List.forall_mem_cons.mpr ⟨quiet_source source, aliased.quiet isSymbol⟩))
  | @join j as aliased =>
    obtain ⟨⟨modifiers, last, keywords, isJoin, areModifiers⟩, source, isSymbol, conditions⟩ := slots
    rw [List.append_assoc]
    refine .quiet (fun p mem => ?_) (@Sewn.quiet (.child j.source :: as) _ ?_ ?_)
    · obtain ⟨t, listed, rfl⟩ := List.mem_map.mp mem
      rw [keywords] at listed
      rcases List.mem_append.mp listed with isModifier | isLast
      · refine beq_false_of_ne fun number => ?_
        have modifier := areModifiers t isModifier
        rw [number] at modifier
        cases modifier
      · rw [List.mem_singleton.mp isLast, Piece.endsNumber, isJoin]
        rfl
    · exact List.forall_mem_cons.mpr ⟨quiet_source source, aliased.quiet isSymbol⟩
    · cases shown : j.condition with
      | none => trivial
      | some c =>
        rcases conditions c shown with ⟨isOn, _⟩ | ⟨isUsing, _⟩
        · exact word isOn (by decide) (.single _)
        · exact word isUsing (by decide) (.single _)
  | whereClause c => exact word slots.1 (by decide) (.single _)
  | havingClause c => exact word slots.1 (by decide) (.single _)
  | groupBy listed =>
    refine word slots.1 (by decide) (word slots.2.1 (by decide) (listed.sewn fun e _ qs here => ?_))
    rw [here]
    exact .single _
  | orderBy listed =>
    refine word slots.1 (by decide) (word slots.2.1 (by decide) (listed.sewn fun i mem qs here => ?_))
    rw [here]
    refine .cons (Sewn.of_light fun p mem => ?_).weaken
    obtain ⟨t, isDirection, rfl⟩ := List.mem_map.mp mem
    refine beq_false_of_ne fun name => ?_
    have direction := (slots.2.2 i ‹_›).2 t (Option.mem_toList.mp isDirection)
    rw [name] at direction
    cases direction
  | @select s ps listed =>
    obtain ⟨isSelect, isDistinct, items, source, joins, filter, grouping, having, ordering⟩ := slots
    have front : Sewn false (.token s.keyword :: Piece.ofToken? s.distinct ++ ps) := by
      refine word isSelect (by decide) (.quiet (fun p mem => ?_) (listed.sewn fun i mem qs entry => ?_))
      · obtain ⟨t, shown, rfl⟩ := List.mem_map.mp mem
        rw [Piece.endsNumber, isDistinct t (Option.mem_toList.mp shown)]
        rfl
      · cases entry with
        | mk aliased =>
          cases aliased with
          | none => exact .single _
          | bare never => cases never
          | worded isWord => exact .cons (word isWord (by decide) (.single _))
    exact (((((front.append (sewn_clause source rfl)).append (sewn_clauses joins rfl)).append
      (sewn_clause filter rfl)).append (sewn_clause grouping rfl)).append (sewn_clause having rfl)).append
      (sewn_clause ordering rfl)
  | @update u as ps aliased listed =>
    obtain ⟨isUpdate, isTable, isSymbol, joins, isSet, _, filter, ordering⟩ := slots
    have assignments : Sewn true (.token u.setKeyword :: ps) :=
      word isSet (by decide) (listed.sewn fun e _ qs here => by rw [here]; exact .single _)
    have target : Sewn false ([Piece.token u.keyword, .child u.table] ++ as ++ u.joins.map .child) := by
      refine Sewn.append (.of_quiet (List.forall_mem_append.mpr ⟨?_, aliased.quiet isSymbol⟩)) (sewn_clauses joins rfl)
      refine List.forall_mem_cons.mpr ⟨by rw [Piece.endsNumber, isUpdate]; rfl, ?_⟩
      rintro _ (_ | ⟨_, ⟨⟩⟩)
      exact quiet_source (.inl isTable)
    exact ((target.append assignments).append (sewn_clause filter rfl)).append (sewn_clause ordering rfl)
  | root cs => exact sewn_apart (apart cs rfl)

end Node

/-! ## Spellings -/

/-- What is known about the tokens of a tree: no name follows a number, also where other trees stand next to it. -/
structure Tree.Seams (t : Bare) (ts : List Token) : Prop where
  some : ts ≠ []
  chain : ts.IsChain Token.Seam
  last : t.endsNumber = false → ∀ u ∈ ts.getLast?, u.kind ≠ .numericLiteral
  first : t.startsName = false → ∀ u ∈ ts.head?, u.kind ≠ .symbol

/-- If the pieces of a layer fit together, so do their tokens. -/
theorem Spelled.seams {b : Bool} {ps : List (Piece Bare)} {ts : List Token} (spelled : Spelled Tree.Spells ps ts)
    (sewn : Sewn b ps) (below : ∀ c ∈ Piece.children ps, ∀ us, c.Spells us → c.Seams us) :
    ts.IsChain Token.Seam ∧ (b = true → ∀ u ∈ ts.head?, u.kind ≠ .symbol) := by
  have token {t : Token} {b : Bool} {rest : List Token} (fits : b = true → (t.kind == .symbol) = false)
      (later : rest.IsChain Token.Seam ∧ ((t.kind == .numericLiteral) = true → ∀ u ∈ rest.head?, u.kind ≠ .symbol)) :
      (t :: rest).IsChain Token.Seam ∧ (b = true → ∀ u ∈ (t :: rest).head?, u.kind ≠ .symbol) := by
    refine ⟨List.isChain_cons.mpr ⟨fun u isNext number => later.2 (beq_iff_eq.mpr number) u isNext, later.1⟩, ?_⟩
    rintro isNumber _ ⟨⟩
    exact ne_of_beq_false (fits isNumber)
  induction ps generalizing b ts with
  | nil =>
    rw [show ts = [] from spelled]
    exact ⟨.nil, nofun⟩
  | cons p ps ih =>
    obtain ⟨fits, sewn⟩ := sewn
    cases p with
    | token t =>
      obtain ⟨rest, rfl, spelled⟩ := spelled
      exact token fits (ih spelled sewn below)
    | name t =>
      obtain ⟨rest, rfl, spelled⟩ := spelled
      exact token fits (ih spelled sewn below)
    | child c =>
      obtain ⟨front, rest, rfl, here, spelled⟩ := spelled
      rw [Piece.children_child] at below
      obtain ⟨belowHere, belowRest⟩ := List.forall_mem_cons.mp below
      have seams := belowHere front here
      obtain ⟨chain, first⟩ := ih spelled sewn belowRest
      constructor
      · refine List.isChain_append.mpr ⟨seams.chain, chain, fun u isLast v isFirst number => ?_⟩
        -- A tree that ends with this number may end with numbers.
        refine first ?_ v isFirst
        by_contra quiet
        exact seams.last (Bool.eq_false_iff.mpr quiet) u isLast number
      · intro isNumber u isFirst
        refine seams.first (fits isNumber) u ?_
        rwa [List.head?_append_of_ne_nil _ seams.some] at isFirst

/-- A dotted name ends with its last name. -/
theorem Dotted.getLast? {names : List Token} {ps : List (Piece Bare)} (dotted : Dotted names ps) {name : Token}
    (last : names.getLast? = some name) : ps.getLast? = some (.token name) := by
  induction dotted with
  | single => simpa using last
  | @cons _ _ names ps _ dotted ih =>
    have some : names ≠ [] ∧ ps ≠ [] := by cases dotted <;> exact ⟨List.cons_ne_nil _ _, List.cons_ne_nil _ _⟩
    rw [List.getLast?_cons_of_ne_nil some.1] at last
    rw [List.getLast?_cons_cons, List.getLast?_cons_of_ne_nil some.2, ih last]

/-- Something is written for every layer but the root. -/
theorem Node.Written.ne_nil {α : Type} {n : Node α} {ps : List (Piece α)} (written : n.Written ps) (noRoot : n.kind ≠ .root) :
    ps ≠ [] := by
  have dotted {names : List Token} {ps : List (Piece α)} (dotted : Dotted names ps) : ps ≠ [] := by
    cases dotted <;> exact List.cons_ne_nil _ _
  cases written with
  | column names => exact dotted names
  | allColumns names => exact dotted names
  | table names => exact dotted names
  | root => exact absurd rfl noRoot
  | _ => simp [Conjunction.parts, Restriction.pieces]

/-- A token that is written last is the last one. -/
theorem Spelled.getLast? {α : Type} {spells : α → List Token → Prop} {ps : List (Piece α)} {ts : List Token} {t : Token}
    (spelled : Spelled spells ps ts) (last : ps.getLast? = some (.token t)) : ts.getLast? = some t := by
  obtain ⟨front, rfl⟩ := List.getLast?_eq_some_iff.mp last
  obtain ⟨before, behind, rfl, _, rest, rfl, rfl⟩ := spelled_append.mp spelled
  exact List.getLast?_concat

/-- No name follows a number in the tokens of a tree. -/
theorem Tree.seams {t : Bare} (all : t.All fun n => n.kind ≠ .root ∧ n.Slots (Rule.glance node) ∧ n.Reads fun _ => True) :
    ∀ ts, t.Spells ts → t.Seams ts := by
  induction all with
  | @mk n here _ ih =>
    obtain ⟨noRoot, slots, reads⟩ := here
    intro ts spells
    obtain ⟨ps, written, spelled⟩ := spells_mk.mp spells
    have below : ∀ c ∈ Piece.children ps, ∀ us, c.Spells us → c.Seams us := by
      rw [written.children]
      exact ih
    obtain ⟨chain, _⟩ := spelled.seams (written.sewn slots (by rintro cs rfl; exact absurd rfl noRoot) reads) below
    have last {u : Token} (isLast : ps.getLast? = some (.token u)) (noNumber : u.kind ≠ .numericLiteral) :
        ∀ v ∈ ts.getLast?, v.kind ≠ .numericLiteral := by
      rw [spelled.getLast? isLast]
      rintro _ ⟨⟩
      exact noNumber
    have some : ts ≠ [] := by
      obtain ⟨p, rest, rfl⟩ := List.exists_cons_of_ne_nil (written.ne_nil noRoot)
      cases p with
      | token t =>
        obtain ⟨_, rfl, _⟩ := spelled
        exact List.cons_ne_nil _ _
      | name t =>
        obtain ⟨_, rfl, _⟩ := spelled
        exact List.cons_ne_nil _ _
      | child c =>
        obtain ⟨front, _, rfl, here, _⟩ := spelled
        exact List.append_ne_nil_of_left_ne_nil (below c (by simp) front here).some _
    refine ⟨some, chain, fun quiet => ?_, fun light => ?_⟩
    · cases written with
      | leaf t => exact last rfl (ne_of_beq_false quiet)
      | column dotted =>
        refine last (dotted.getLast? (List.getLast?_concat ..)) ?_
        rw [slots.symbols _ (List.mem_append_right _ (List.mem_singleton_self _))]
        nofun
      | bracket p => exact last List.getLast?_concat (slots.2 ▸ nofun)
      | call c =>
        obtain ⟨_, rfl, front, _, rfl, here, rfl⟩ := spelled
        have arguments := below c.arguments (by simp) front here
        rw [List.append_nil, List.getLast?_cons_of_ne_nil arguments.some]
        refine arguments.last (endsNumber_of_kind ?_)
        rw [show c.arguments.kind = .bracket from slots.2.1]
        decide
      | allColumns dotted =>
        refine last (dotted.getLast? (List.getLast?_concat ..)) ?_
        rw [slots.2.2]
        nofun
      | table dotted =>
        refine last (dotted.getLast? (List.getLast?_concat ..)) ?_
        rw [slots _ (List.mem_append_right _ (List.mem_singleton_self _))]
        nofun
      | _ => cases quiet
    · by_cases clause : n.kind.isClause = true
      · obtain ⟨word, rest, rfl, sunder⟩ := Row.written_clause written slots clause
        obtain ⟨_, rfl, _⟩ := spelled
        rintro _ ⟨⟩ symbol
        rw [symbol] at sunder
        cases sunder
      · cases written with
        | leaf t =>
          obtain ⟨_, rfl, rfl⟩ := spelled
          rintro _ ⟨⟩
          exact ne_of_beq_false light
        | bracket p =>
          obtain ⟨_, rfl, _⟩ := spelled
          rintro _ ⟨⟩
          exact slots.1 ▸ nofun
        | _ => first | exact absurd rfl clause | cases light

end SqlFold
