import SqlFold.Proofs.Cover.Kinds

/-!
# Which siblings a fold takes

Except for brackets, a fold takes no leaf as a sub-node and no whole statement, and only names take
points (`Rule.Covers.taken`).
-/

namespace SqlFold

variable {α β : Type} {glance : α → Glance}

/-! ## Slots -/

/-- The kinds of node that a slot of a layer other than a branch may hold. -/
def NodeKind.fillsSlot : NodeKind → Bool
  | tokenLeaf | select | update | root => false
  | _ => true

theorem NodeKind.fillsSlot_of_isExpression {kind : NodeKind} (h : kind.isExpression = true) :
    kind.fillsSlot = true := by
  cases kind <;> first | rfl | cases h

/-- What stands in the slots of a layer that is no branch. -/
theorem Node.Slots.fillsSlot {n : Node α} (slots : n.Slots glance) (branch : n.isBranch = false)
    (assigns : ∀ c, (glance c).assigns = true → (glance c).kind = .operation) :
    ∀ c ∈ n.children, (glance c).kind.fillsSlot = true := by
  have source {c : α} (h : (glance c).IsSource) : (glance c).kind.fillsSlot = true := by
    rcases h with h | h <;> rw [h] <;> rfl
  have ofKind {c : α} {kind : NodeKind} (h : (glance c).kind = kind) (fills : kind.fillsSlot = true) :
      (glance c).kind.fillsSlot = true := h ▸ fills
  intro c mem
  cases n with
  | bracket => cases branch
  | root => cases branch
  | operation o =>
    obtain ⟨left, right, _⟩ := slots
    simp only [children_operation, List.mem_cons, List.not_mem_nil, or_false] at mem
    rcases mem with rfl | rfl
    · exact NodeKind.fillsSlot_of_isExpression left
    · exact NodeKind.fillsSlot_of_isExpression right
  | membership o =>
    obtain ⟨left, list, _⟩ := slots
    simp only [children_membership, List.mem_cons, List.not_mem_nil, or_false] at mem
    rcases mem with rfl | rfl
    · exact NodeKind.fillsSlot_of_isExpression left
    · exact ofKind list rfl
  | conjunction o =>
    rw [children_conjunction, List.mem_map] at mem
    obtain ⟨j, mem, rfl⟩ := mem
    exact NodeKind.fillsSlot_of_isExpression (slots.1 j mem)
  | call o =>
    rw [children_call, List.mem_singleton] at mem
    exact ofKind (mem ▸ slots.2.1) rfl
  | fromClause o =>
    rw [children_fromClause, List.mem_singleton] at mem
    exact source (mem ▸ slots.2.1)
  | join o =>
    obtain ⟨_, isSource, _, condition⟩ := slots
    rw [children_join, List.mem_cons] at mem
    rcases mem with rfl | mem
    · exact source isSource
    · rw [Option.mem_toList, Option.map_eq_some_iff] at mem
      obtain ⟨r, shown, rfl⟩ := mem
      rcases condition r shown with ⟨_, expression⟩ | ⟨_, bracket⟩
      · exact NodeKind.fillsSlot_of_isExpression expression
      · exact ofKind bracket rfl
  | whereClause o =>
    rw [children_whereClause, List.mem_singleton] at mem
    exact NodeKind.fillsSlot_of_isExpression (mem ▸ slots.2)
  | havingClause o =>
    rw [children_havingClause, List.mem_singleton] at mem
    exact NodeKind.fillsSlot_of_isExpression (mem ▸ slots.2)
  | groupBy o =>
    rw [children_groupBy] at mem
    exact NodeKind.fillsSlot_of_isExpression (slots.2.2 c mem)
  | orderBy o =>
    rw [children_orderBy, List.mem_map] at mem
    obtain ⟨i, mem, rfl⟩ := mem
    exact NodeKind.fillsSlot_of_isExpression (slots.2.2 i mem).1
  | select o =>
    obtain ⟨_, _, items, source, joins, filter, grouping, having, ordering⟩ := slots
    simp only [children_select, List.mem_append, List.mem_map, Option.mem_toList] at mem
    rcases mem with (((((⟨i, mem, rfl⟩ | mem) | mem) | mem) | mem) | mem) | mem
    · exact NodeKind.fillsSlot_of_isExpression (items i mem).1
    · exact ofKind (source c mem) rfl
    · exact ofKind (joins c mem) rfl
    · exact ofKind (filter c mem) rfl
    · exact ofKind (grouping c mem) rfl
    · exact ofKind (having c mem) rfl
    · exact ofKind (ordering c mem) rfl
  | update o =>
    obtain ⟨_, table, _, joins, _, assignments, filter, ordering⟩ := slots
    simp only [children_update, List.cons_append, List.mem_cons, List.mem_append,
      Option.mem_toList] at mem
    rcases mem with rfl | ((mem | mem) | mem) | mem
    · exact ofKind table rfl
    · exact ofKind (joins c mem) rfl
    · exact ofKind (assigns c (assignments c mem)) rfl
    · exact ofKind (filter c mem) rfl
    · exact ofKind (ordering c mem) rfl
  | _ => simp at mem

/-! ## Pieces -/

namespace Piece

@[simp] theorem token_mem_ofToken? {t : Token} {o : Option Token} :
    .token t ∈ (ofToken? o : List (Piece α)) ↔ o = some t := by
  cases o <;> simp [ofToken?, eq_comm]

@[simp] theorem token_mem_map_token {t : Token} {ts : List Token} :
    .token t ∈ (ts.map token : List (Piece α)) ↔ t ∈ ts := by simp

@[simp] theorem token_mem_ofChild? {t : Token} {o : Option α} : .token t ∉ ofChild? o := by
  cases o <;> simp [ofChild?]

@[simp] theorem token_mem_map_child {t : Token} {cs : List α} : .token t ∉ cs.map child := by simp

end Piece

theorem Aliased.token {required : Bool} {aliasName : Option Token} {ps : List (Piece α)}
    (named : Aliased required aliasName ps) {t : Token} (mem : .token t ∈ ps) : t.kind = .asKw := by
  cases named with
  | none => cases mem
  | bare => simp at mem
  | worded word =>
    simp only [List.mem_cons, Piece.token.injEq, reduceCtorEq, List.not_mem_nil, or_false] at mem
    exact mem ▸ word

/-- A token among entries belongs to one of them or is a comma. -/
theorem Listed.token {entry : β → List (Piece α) → Prop} {bs : List β} {ps : List (Piece α)}
    (entries : Listed entry bs ps) {t : Token} (mem : .token t ∈ ps) :
    t.kind = .comma ∨ ∃ b ∈ bs, ∃ qs, entry b qs ∧ .token t ∈ qs := by
  induction entries with
  | @single b qs first => exact .inr ⟨b, List.mem_singleton_self b, qs, first, mem⟩
  | @cons b bs comma qs rs first isComma _ ih =>
    simp only [List.mem_append, List.mem_cons, Piece.token.injEq] at mem
    rcases mem with here | rfl | later
    · exact .inr ⟨b, List.mem_cons_self, qs, first, here⟩
    · exact .inl isComma
    · rcases ih later with isComma | ⟨c, listed, found⟩
      · exact .inl isComma
      · exact .inr ⟨c, List.mem_cons_of_mem _ listed, found⟩

/-- The kinds of token that layers other than names and brackets may be written with. -/
def TokenKind.isInner (kind : TokenKind) : Bool :=
  !(kind == .dot || kind == .bracketOpen || kind == .bracketClose)

/-- Only names are written with points, and only brackets with brackets. -/
theorem Node.Written.isInner {n : Node α} {ps : List (Piece α)} (written : n.Written ps)
    (slots : n.Slots glance) (other : n.kind ∉ [.tokenLeaf, .column, .allColumns, .table, .bracket]) {t : Token}
    (mem : .token t ∈ ps) : t.kind.isInner = true := by
  have ofKind {u : Token} {kind : TokenKind} (same : u.kind = kind) (inner : kind.isInner = true) :
      u.kind.isInner = true := same ▸ inner
  have restriction {c : Restriction α} {kind : TokenKind} (mem : .token t ∈ c.pieces)
      (same : c.keyword.kind = kind) (inner : kind.isInner = true) : t.kind.isInner = true := by
    simp only [Restriction.pieces, List.mem_cons, Piece.token.injEq, reduceCtorEq, List.not_mem_nil,
      or_false] at mem
    exact ofKind (mem ▸ same) inner
  -- Most sorts of token are sets of kinds, and none of them has one of the three.
  have ofSort {u : Token} {sort : TokenKind → Bool} (sorted : sort u.kind = true)
      (inner : ∀ kind, sort kind = true → kind.isInner = true) : u.kind.isInner = true := inner _ sorted
  cases written with
  | leaf => simp [Node.kind] at other
  | column => simp [Node.kind] at other
  | allColumns => simp [Node.kind] at other
  | table => simp [Node.kind] at other
  | bracket => simp [Node.kind] at other
  | literal l =>
    obtain ⟨value, sign⟩ := slots
    simp only [List.mem_append, Piece.token_mem_ofToken?, List.mem_singleton, Piece.token.injEq] at mem
    rcases mem with signed | rfl
    · have isSign := (sign t signed).1
      rw [Rule.isSign, Bool.and_eq_true, beq_iff_eq] at isSign
      exact ofKind isSign.1 rfl
    · exact ofSort value fun kind => by cases kind <;> decide
  | operation o =>
    obtain ⟨_, _, shape⟩ := slots
    simp only [List.mem_cons, List.mem_append, Piece.token_mem_map_token, reduceCtorEq, false_or,
      List.not_mem_nil, or_false] at mem
    generalize o.operator = words at shape mem
    rcases shape with starts | ⟨isKw, notKw⟩ | ⟨notKw, likeKw⟩
    · rw [List.mem_singleton.mp mem]
      exact ofSort starts fun kind => by cases kind <;> decide
    · rcases List.mem_pair.mp mem with rfl | rfl
      · exact ofKind isKw rfl
      · exact ofKind notKw rfl
    · rcases List.mem_pair.mp mem with rfl | rfl
      · exact ofKind notKw rfl
      · rcases likeKw with kind | kind
        · exact ofKind kind rfl
        · exact ofKind kind rfl
  | membership o =>
    obtain ⟨_, _, negation, keyword⟩ := slots
    simp only [List.mem_cons, List.mem_append, Piece.token_mem_ofToken?, reduceCtorEq, false_or,
      Piece.token.injEq, List.not_mem_nil, or_false] at mem
    rcases mem with negated | rfl
    · exact ofKind (negation t negated) rfl
    · exact ofKind keyword rfl
  | conjunction c =>
    obtain ⟨_, first, others⟩ := slots
    simp only [List.mem_flatMap, List.mem_append, Piece.token_mem_ofToken?, List.mem_singleton,
      reduceCtorEq, or_false] at mem
    obtain ⟨j, listed, word⟩ := mem
    rcases List.mem_cons.mp listed with rfl | listed
    · cases first.symm.trans word
    · obtain ⟨u, shown, joins⟩ := others j listed
      cases shown.symm.trans word
      exact ofSort joins fun kind => by cases kind <;> decide
  | call c =>
    simp only [List.mem_cons, Piece.token.injEq, reduceCtorEq, List.not_mem_nil, or_false] at mem
    rw [mem]
    exact ofKind slots.1 rfl
  | fromClause named =>
    simp only [List.mem_append, List.mem_cons, Piece.token.injEq, reduceCtorEq, List.not_mem_nil,
      or_false] at mem
    rcases mem with rfl | word
    · exact ofKind slots.1 rfl
    · exact ofKind (named.token word) rfl
  | @join j as named =>
    obtain ⟨⟨modifiers, word, keywords, isJoin, each⟩, _, _, condition⟩ := slots
    simp only [List.append_assoc, List.cons_append, List.mem_append, Piece.token_mem_map_token,
      List.mem_cons, reduceCtorEq, false_or] at mem
    rcases mem with keyword | as | restriction
    · rw [keywords, List.mem_append, List.mem_singleton] at keyword
      rcases keyword with modifier | rfl
      · exact ofSort (each t modifier) fun kind => by cases kind <;> decide
      · exact ofKind isJoin rfl
    · exact ofKind (named.token as) rfl
    · cases shown : j.condition with
      | none => simp [shown] at restriction
      | some c =>
        simp only [shown, Option.map_some, Option.getD_some, Restriction.pieces, List.mem_cons,
          Piece.token.injEq, reduceCtorEq, List.not_mem_nil, or_false] at restriction
        rcases condition c shown with ⟨kind, _⟩ | ⟨kind, _⟩
        · rw [restriction]
          exact ofKind kind rfl
        · rw [restriction]
          exact ofKind kind rfl
  | whereClause c => exact restriction mem slots.1 rfl
  | havingClause c => exact restriction mem slots.1 rfl
  | groupBy entries =>
    simp only [List.mem_append, List.mem_cons, Piece.token.injEq, List.not_mem_nil, or_false] at mem
    rcases mem with (rfl | rfl) | entry
    · exact ofKind slots.1 rfl
    · exact ofKind slots.2.1 rfl
    · rcases entries.token entry with comma | ⟨e, _, _, rfl, found⟩
      · exact ofKind comma rfl
      · simp at found
  | orderBy entries =>
    simp only [List.mem_append, List.mem_cons, Piece.token.injEq, List.not_mem_nil, or_false] at mem
    rcases mem with (rfl | rfl) | entry
    · exact ofKind slots.1 rfl
    · exact ofKind slots.2.1 rfl
    · rcases entries.token entry with comma | ⟨i, listed, _, rfl, found⟩
      · exact ofKind comma rfl
      · simp only [List.mem_cons, reduceCtorEq, Piece.token_mem_ofToken?, false_or] at found
        exact ofSort ((slots.2.2 i listed).2 t found) fun kind => by cases kind <;> decide
  | select entries =>
    obtain ⟨keyword, distinct, _⟩ := slots
    simp only [List.append_assoc, List.cons_append, List.mem_cons, Piece.token.injEq, List.mem_append,
      Piece.token_mem_ofToken?, Piece.token_mem_ofChild?, Piece.token_mem_map_child, or_false] at mem
    rcases mem with rfl | word | entry
    · exact ofKind keyword rfl
    · exact ofKind (distinct t word) rfl
    · rcases entries.token entry with comma | ⟨i, listed, _, ⟨named⟩, found⟩
      · exact ofKind comma rfl
      · simp only [List.mem_cons, reduceCtorEq, false_or] at found
        exact ofKind (named.token found) rfl
  | update named entries =>
    obtain ⟨keyword, _, _, _, setKeyword, _⟩ := slots
    simp only [List.append_assoc, List.cons_append, List.nil_append, List.mem_cons, Piece.token.injEq,
      List.mem_append, reduceCtorEq, Piece.token_mem_ofChild?, Piece.token_mem_map_child, or_false,
      false_or] at mem
    rcases mem with rfl | word | rfl | entry
    · exact ofKind keyword rfl
    · exact ofKind (named.token word) rfl
    · exact ofKind setKeyword rfl
    · rcases entries.token entry with comma | ⟨e, _, _, rfl, found⟩
      · exact ofKind comma rfl
      · simp at found
  | root children => simp at mem

/-- Whether tokens of a kind are brackets. -/
def TokenKind.isBracket (kind : TokenKind) : Bool := kind == .bracketOpen || kind == .bracketClose

namespace Piece

variable {t : Token}

@[simp] theorem name_mem_ofToken? {o : Option Token} : .name t ∉ (ofToken? o : List (Piece α)) := by
  cases o <;> simp [ofToken?]

@[simp] theorem name_mem_ofChild? {o : Option α} : .name t ∉ ofChild? o := by
  cases o <;> simp [ofChild?]

end Piece

section Layers

variable {ps : List (Piece α)} {t : Token}

theorem Dotted.no_name {names : List Token} (dotted : Dotted names ps) : .name t ∉ ps := by
  induction dotted with
  | single => simp
  | cons _ _ ih => simpa using ih

/-- A token among dotted names is one of them or a point. -/
theorem Dotted.token {names : List Token} (dotted : Dotted names ps) (mem : .token t ∈ ps) : t ∈ names ∨ t.kind = .dot := by
  induction dotted with
  | single => exact .inl (by simpa using mem)
  | cons isPoint _ ih =>
    simp only [List.mem_cons, Piece.token.injEq] at mem
    rcases mem with rfl | rfl | mem
    · exact .inl List.mem_cons_self
    · exact .inr isPoint
    · exact (ih mem).imp_left (List.mem_cons_of_mem _)

theorem Aliased.name {required : Bool} {aliasName : Option Token} (named : Aliased required aliasName ps)
    (mem : .name t ∈ ps) : aliasName = some t := by
  cases named with
  | none => cases mem
  | bare | worded => simp_all

/-- A name among entries belongs to one of them. -/
theorem Listed.name {entry : β → List (Piece α) → Prop} {bs : List β} (entries : Listed entry bs ps) (mem : .name t ∈ ps) :
    ∃ b ∈ bs, ∃ qs, entry b qs ∧ .name t ∈ qs := by
  induction entries with
  | @single b qs first => exact ⟨b, List.mem_singleton_self b, qs, first, mem⟩
  | @cons b bs comma qs rs first _ _ ih =>
    simp only [List.mem_append, List.mem_cons, reduceCtorEq, false_or] at mem
    rcases mem with here | later
    · exact ⟨b, List.mem_cons_self, qs, first, here⟩
    · obtain ⟨c, listed, found⟩ := ih later
      exact ⟨c, List.mem_cons_of_mem _ listed, found⟩

/-- What stands in a layer as a name is one. -/
theorem Node.Written.symbol_of_name {n : Node α} (written : n.Written ps) (slots : n.Slots glance) (mem : .name t ∈ ps) :
    t.kind = .symbol := by
  cases written with
  | column names => exact absurd mem names.no_name
  | allColumns names => exact absurd mem names.no_name
  | table names => exact absurd mem names.no_name
  | fromClause named =>
    obtain ⟨_, _, symbol⟩ := slots
    exact symbol t (named.name (by simpa using mem))
  | @join j as named =>
    obtain ⟨_, _, symbol, _⟩ := slots
    refine symbol t (named.name ?_)
    cases condition : j.condition <;> simpa [condition, Restriction.pieces] using mem
  | groupBy entries =>
    obtain ⟨_, _, _, rfl, found⟩ := entries.name (by simpa using mem)
    simp at found
  | orderBy entries =>
    obtain ⟨_, _, _, rfl, found⟩ := entries.name (by simpa using mem)
    simp at found
  | select entries =>
    obtain ⟨_, _, items, _⟩ := slots
    obtain ⟨i, listed, _, ⟨named⟩, found⟩ := entries.name (by simpa using mem)
    exact (items _ listed).2 t (named.name (by simpa using found))
  | @update u as ps named entries =>
    obtain ⟨_, _, symbol, _⟩ := slots
    have found : .name t ∈ as ∨ .name t ∈ ps := by simpa using mem
    rcases found with word | entry
    · exact symbol t (named.name word)
    · obtain ⟨_, _, _, rfl, found⟩ := entries.name entry
      simp at found
  | _ => simp [Restriction.pieces] at mem

/-- Only brackets are written with brackets. -/
theorem Node.Written.no_bracket {n : Node α} (written : n.Written ps) (slots : n.Slots glance)
    (other : n.kind ∉ [.tokenLeaf, .bracket]) (mem : .token t ∈ ps ∨ .name t ∈ ps) : t.kind.isBracket = false := by
  have ofKind {kind : TokenKind} (same : t.kind = kind) (plain : kind.isBracket = false) : t.kind.isBracket = false :=
    same ▸ plain
  rcases mem with mem | mem
  · by_cases name : n.kind ∈ [.column, .allColumns, .table]
    · cases written with
      | column names =>
        rcases names.token mem with part | point
        · exact ofKind (slots.symbols t part) rfl
        · exact ofKind point rfl
      | allColumns names =>
        obtain ⟨symbols, _, star⟩ := slots
        rcases names.token mem with part | point
        · rcases List.mem_append.mp part with part | last
          · exact ofKind (symbols t part) rfl
          · exact ofKind (List.mem_singleton.mp last ▸ star) rfl
        · exact ofKind point rfl
      | table names =>
        rcases names.token mem with part | point
        · exact ofKind (slots t part) rfl
        · exact ofKind point rfl
      | _ => simp [Node.kind] at name
    · have inner := written.isInner slots (by simp_all) mem
      revert inner
      generalize t.kind = kind
      cases kind <;> decide
  · exact ofKind (written.symbol_of_name slots mem) rfl

end Layers

namespace Rule

/-! ## Siblings -/

variable {view : α → Node α}

/-- A sibling that assigns is an operation. -/
theorem kind_of_assigns {a : α} (assigns : isAssignment view a = true) : (view a).kind = .operation := by
  rw [isAssignment] at assigns
  split at assigns
  · next shown => rw [shown]; rfl
  · cases assigns

/-- Every sibling is what a piece was made from. -/
theorem MatchesAll.exists_piece {ps : List (Piece (Origin α))} {as : List α}
    (matched : MatchesAll view ps as) {a : α} (mem : a ∈ as) : ∃ p ∈ ps, Matches view p a := by
  induction matched with
  | nil => cases mem
  | @cons p b ps as made _ ih =>
    rcases List.mem_cons.mp mem with rfl | mem
    · exact ⟨p, List.mem_cons_self, made⟩
    · obtain ⟨q, listed, made⟩ := ih mem
      exact ⟨q, List.mem_cons_of_mem _ listed, made⟩

/-- Every piece was made from a sibling. -/
theorem MatchesAll.exists_sibling {ps : List (Piece (Origin α))} {as : List α}
    (matched : MatchesAll view ps as) {p : Piece (Origin α)} (mem : p ∈ ps) :
    ∃ a ∈ as, Matches view p a := by
  induction matched with
  | nil => cases mem
  | @cons q a ps as made _ ih =>
    rcases List.mem_cons.mp mem with rfl | mem
    · exact ⟨a, List.mem_cons_self, made⟩
    · obtain ⟨b, listed, made⟩ := ih mem
      exact ⟨b, List.mem_cons_of_mem _ listed, made⟩

/-- What a fold takes is a leaf or a node that fills a slot. The only rules that take points are those
for brackets and for names. -/
theorem Covers.taken {rule : Rule} {focus : Focus α} {f : Fold α} {back ahead : List α}
    (covers : Covers view focus f back ahead) (answer : rule.apply view focus = .ok (some f))
    (other : rule ≠ .bracket)
    (sound : ∀ a ∈ back.reverse ++ focus.here :: ahead, ∀ c, view a = .column c → c.Sound) {a : α}
    (mem : a ∈ back.reverse ++ focus.here :: ahead) :
    (∃ t, view a = .leaf t ∧ (rule ∉ [.allColumns, .column] → t.kind ≠ .dot)) ∨
      (view a).kind.fillsSlot = true := by
  have made := apply_kind answer
  have branch : f.node.isBranch = false := by
    by_contra branch
    exact other (eq_bracket_of_isBranch answer (by simpa using branch))
  have slots := covers.slots sound
  have assigns (o : Origin α) (assigns : (glanceOrigin view o).assigns = true) :
      (glanceOrigin view o).kind = .operation := by
    cases o with
    | sibling b => exact kind_of_assigns assigns
    | newTable => cases assigns
  obtain ⟨ps, written, matched⟩ := covers.written
  obtain ⟨p, listed, piece⟩ := matched.exists_piece mem
  cases piece with
  | leaf shown =>
    refine .inl ⟨_, shown, fun names dot => ?_⟩
    have inner := written.isInner slots (by rw [made]; cases rule <;> simp [makes] at names other ⊢) listed
    rw [dot] at inner
    cases inner
  | name shown => exact .inr (by rw [shown]; rfl)
  | sibling =>
    refine .inr (slots.fillsSlot branch assigns (.sibling a) ?_)
    rw [← written.children]
    exact List.mem_filterMap.mpr ⟨_, listed, rfl⟩
  | table shown => exact .inr (by rw [shown]; rfl)

end Rule

end SqlFold
