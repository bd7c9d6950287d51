import SqlFold.Proofs.Rows.Phases
import SqlFold.Proofs.Rows.Sound

/-!
# Limits on sweeps

Whether a run with all rules stays within its limit on sweeps can be seen in its result: no rule may
have folded so often in one row (`Row.Within`). So a run over leaves succeeds exactly if the leaves can
be parsed to a row that is within the limit (`Row.settle_ok_iff_within`), and runs with equal results
need equal limits. A limit above the weight of the row is always large enough (`Row.settle_ok_iff`).
-/

namespace SqlFold

/-- Between all brackets at or below a tree every rule has folded less than `limit` times. -/
inductive Tree.Within (limit : Nat) : Bare → Prop
  | mk {n : Node Bare} : (∀ cs : Row, n.branch? = some cs → ∀ rule, cs.made rule < limit) →
      (∀ c ∈ n.children, Within limit c) → Within limit (.mk () n)

/-- In a row and between all brackets in it every rule has folded less than `limit` times. -/
structure Row.Within (limit : Nat) (row : Row) : Prop where
  made : ∀ rule, row.made rule < limit
  trees : ∀ t ∈ row, t.Within limit

variable {limit : Nat}

namespace Tree.Within

variable {t : Bare}

theorem children (within : t.Within limit) : ∀ c ∈ t.node.children, c.Within limit := by
  cases within with
  | mk _ children => exact children

/-- A tree without sub-trees. -/
theorem of_children_nil (plain : t.node.isBranch = false) (none : t.node.children = []) :
    t.Within limit := by
  obtain ⟨tag, n⟩ := t
  refine .mk (fun cs branch => ?_) fun c mem => ?_
  · rw [Node.isBranch, Tree.node, branch] at plain
    cases plain
  · rw [Tree.node] at none
    rw [none] at mem
    cases mem

theorem leaf (kind : t.node.kind = .tokenLeaf) : t.Within limit := by
  obtain ⟨tag, n⟩ := t
  cases n with
  | leaf => exact of_children_nil rfl rfl
  | _ => cases kind

/-- A span is within the limit exactly if its content is. -/
theorem span_iff {opening closing : Token} {content : Row} :
    (Row.span opening closing content).Within limit ↔ content.Within limit := by
  constructor
  · rintro ⟨made, trees⟩
    exact ⟨made content rfl, by simpa using trees⟩
  · rintro ⟨made, trees⟩
    refine .mk (fun cs branch => ?_) (by simpa using trees)
    cases branch
    exact made

end Tree.Within

/-! ## Folds -/

namespace Rule

variable {rule : Rule} {left right : Row} {here : Bare} {fold : Fold Bare}

theorem within_row (answer : rule.apply Tree.node ⟨left, here, right⟩ = .ok (some fold))
    (other : rule ≠ .bracket) (all : ∀ t ∈ left.reverse ++ here :: right, t.Within limit) :
    ∀ t ∈ fold.row, t.Within limit := by
  refine forall_row answer all (.mk (fun cs branch => ?_) fun c mem => ?_)
  · have plain := isBranch_tree answer other
    rw [Node.isBranch, show fold.tree.node.branch? = some cs from branch] at plain
    cases plain
  · rcases mem_children_tree answer c mem with stood | ⟨name, rfl⟩
    · exact all c stood
    · exact .of_children_nil rfl (Node.children_table name)

/-- What a fold takes has no brackets in it, or stays in the new tree. -/
theorem within_of_row (answer : rule.apply Tree.node ⟨left, here, right⟩ = .ok (some fold))
    (all : ∀ t ∈ fold.row, t.Within limit) : ∀ t ∈ left.reverse ++ here :: right, t.Within limit := by
  obtain ⟨back, ahead, covers⟩ := apply_covers answer
  obtain ⟨ps, written, matched⟩ := covers.written
  have left_eq : left = back ++ fold.left := covers.left
  have right_eq : right = ahead ++ fold.right := covers.right
  have taken : ∀ a ∈ back.reverse ++ here :: ahead, a.Within limit := by
    intro a mem
    obtain ⟨p, listed, piece⟩ := matched.exists_piece mem
    have column {c : ColumnName} (shown : a.node = .column c) : a.Within limit :=
      .of_children_nil (by rw [shown]; rfl) (by rw [shown, Node.children_column])
    cases piece with
    | leaf shown => exact .leaf (by rw [shown]; rfl)
    | name shown => exact column shown
    | table shown => exact column shown
    | sibling =>
      refine (all fold.tree (by simp [Fold.row])).children a ?_
      rw [Fold.tree, Tree.node, Node.children_map, List.mem_map]
      exact ⟨.sibling a, written.children ▸ List.mem_filterMap.mpr ⟨_, listed, rfl⟩, rfl⟩
  intro t mem
  rw [left_eq, right_eq, List.reverse_append, List.append_assoc, List.mem_append] at mem
  rcases mem with before | mem
  · exact all t (List.mem_append_left _ before)
  · rw [← List.cons_append, ← List.append_assoc, List.mem_append] at mem
    rcases mem with here | after
    · exact taken t here
    · exact all t (List.mem_append_right _ (List.mem_cons_of_mem _ after))

end Rule

namespace Row

variable {rule : Rule} {row row' : Row}

/-- Rules other than `Rule.bracket` neither bring a tree out of the limit nor back into it. -/
theorem Rests.within_iff (rests : Rests rule row row') (other : rule ≠ .bracket) :
    (∀ t ∈ row', t.Within limit) ↔ ∀ t ∈ row, t.Within limit := by
  induction rests with
  | rest => exact .rfl
  | fold _ answer _ ih =>
    exact ih.trans ⟨Rule.within_of_row answer, Rule.within_row answer other⟩

theorem RestsAll.within_iff {rules : List Rule} (rests : RestsAll rules row row')
    (others : Rule.bracket ∉ rules) :
    (∀ t ∈ row', t.Within limit) ↔ ∀ t ∈ row, t.Within limit := by
  induction rests with
  | nil => exact .rfl
  | cons first _ ih =>
    rw [List.mem_cons, not_or] at others
    exact (ih others.2).trans (first.within_iff (Ne.symm others.1))

section Grouped

variable {S : Row → Row → Prop} {previous : Option Bare} (leaves : ∀ t ∈ row, t.node.kind = .tokenLeaf)

include leaves

/-- Where brackets are grouped only the branches are seen as folds. -/
theorem Grouped.made (grouped : Grouped S previous row row') (rule : Rule) :
    row'.made rule = if rule = .bracket then row'.branches else 0 := by
  induction grouped with
  | nil => split <;> rfl
  | cons plain _ _ _ ih =>
    obtain ⟨leaf, leaves⟩ := List.forall_mem_cons.mp leaves
    rw [made_cons, Rule.made_of_leaf leaf, ih leaves, branches_plain plain, Nat.zero_add]
  | @span _ t opening closing _ _ content _ _ _ _ split _ _ _ ih =>
    obtain ⟨_, rfl, _⟩ := Rule.splitAtClosing?_some split
    have span : (Row.span opening closing content).made rule = if rule = .bracket then 1 else 0 := by
      cases rule <;> simp [Row.span, Tree.made_mk, Rule.madeAt, Node.kind, Node.aliases,
        Node.isBranch, Node.branch?, Rule.makes]
    rw [made_cons, ih fun t mem => leaves t (by simp [mem]), span, branches_span]
    split <;> omega

/-- What is grouped leaves has a property between the brackets that all settled content has. -/
theorem Grouped.content {P : Row → Prop}
    (grouped : Grouped (fun inner content => S inner content ∧ P content) previous row row')
    {opening closing : Token} {content : Row} (mem : Row.span opening closing content ∈ row') :
    P content := by
  induction grouped with
  | nil => cases mem
  | @cons _ t _ _ plain _ _ _ ih =>
    obtain ⟨leaf, leaves⟩ := List.forall_mem_cons.mp leaves
    rcases List.mem_cons.mp mem with rfl | later
    · cases leaf
    · exact ih leaves later
  | span _ _ split settled _ _ ih =>
    obtain ⟨_, rfl, _⟩ := Rule.splitAtClosing?_some split
    rcases List.mem_cons.mp mem with same | later
    · cases same
      exact settled.2
    · exact ih (fun t here => leaves t (by simp [here])) later

/-- Grouped leaves are within the limit exactly if the contents of the brackets are. -/
theorem Grouped.within_iff (grouped : Grouped S previous row row') :
    (∀ t ∈ row', t.Within limit) ↔
      ∀ opening closing (content : Row), Row.span opening closing content ∈ row' → content.Within limit := by
  constructor
  · intro all opening closing content mem
    exact Tree.Within.span_iff.mp (all _ mem)
  · intro contents
    induction grouped with
    | nil => nofun
    | cons plain _ _ _ ih =>
      obtain ⟨leaf, leaves⟩ := List.forall_mem_cons.mp leaves
      exact List.forall_mem_cons.mpr ⟨.leaf leaf, ih leaves fun opening closing content mem =>
        contents opening closing content (List.mem_cons_of_mem _ mem)⟩
    | span _ _ split _ _ _ ih =>
      obtain ⟨_, rfl, _⟩ := Rule.splitAtClosing?_some split
      refine List.forall_mem_cons.mpr
        ⟨Tree.Within.span_iff.mpr (contents _ _ _ List.mem_cons_self), ?_⟩
      exact ih (fun t mem => leaves t (by simp [mem])) fun opening closing content mem =>
        contents opening closing content (List.mem_cons_of_mem _ mem)

end Grouped

/-! ## Runs -/

theorem leaf_of_mem_leaves (ts : List Token) : ∀ t ∈ leaves ts, t.node.kind = .tokenLeaf := by
  intro t mem
  obtain ⟨_, _, rfl⟩ := List.mem_map.mp mem
  rfl

theorem plain_of_leaves (leaves : ∀ t ∈ row, t.node.kind = .tokenLeaf) : Plain row := by
  intro t mem
  have leaf := leaves t mem
  cases node : t.node with
  | leaf => rfl
  | _ =>
    rw [node] at leaf
    cases leaf

/-- What is grouped and what rules make of it is within the limit exactly if the contents of the
brackets are and no rule folds too often. -/
theorem within_iff {S : Row → Row → Prop} {between : Row} (leaves : ∀ t ∈ row, t.node.kind = .tokenLeaf)
    (grouped : Grouped S none row between) (rests : RestsAll Rule.standard.tail between row') :
    row'.Within limit ↔
      (∀ opening closing (content : Row), span opening closing content ∈ between → content.Within limit) ∧
        between.branches < limit ∧
          ∀ rule ∈ Rule.standard.tail, row'.made rule < between.made rule + limit := by
  have others : Rule.bracket ∉ Rule.standard.tail := by decide
  have brackets : row'.made .bracket = between.branches := by
    rw [rests.made_eq others others, grouped.made leaves, if_pos rfl]
  have fresh : ∀ rule ∈ Rule.standard.tail, between.made rule = 0 := by
    intro rule mem
    rw [grouped.made leaves, if_neg (ne_of_mem_of_not_mem mem others)]
  rw [← grouped.within_iff leaves, ← rests.within_iff others]
  constructor
  · rintro ⟨few, trees⟩
    refine ⟨trees, brackets ▸ few .bracket, fun rule mem => ?_⟩
    rw [fresh rule mem, Nat.zero_add]
    exact few rule
  · rintro ⟨trees, few, fewLater⟩
    refine ⟨fun rule => ?_, trees⟩
    rcases List.mem_cons.mp (Rule.mem_standard rule) with rfl | mem
    · exact brackets ▸ few
    · have later := fewLater rule mem
      rwa [fresh rule mem, Nat.zero_add] at later

/-- A run with all rules over leaves succeeds exactly if they can be parsed within its limit. -/
theorem settle_ok_iff_within {depth : Nat} (leaves : ∀ t ∈ row, t.node.kind = .tokenLeaf)
    (deep : row.weight < depth) :
    settle (.standard limit) false depth row = .ok () row' ↔ Parses row row' ∧ row'.Within limit := by
  induction depth generalizing row row' with
  | zero => omega
  | succ depth ih =>
    have plain := plain_of_leaves leaves
    have inner {S T : Row → Row → Prop} {between : Row} (grouped : Grouped S none row between)
        (weaker : ∀ opening closing (inner content : Row), (∀ t ∈ inner, t.node.kind = .tokenLeaf) →
          inner.weight < depth → span opening closing content ∈ between → S inner content →
            T inner content) : Grouped T none row between :=
      grouped.imp fun opening closing inner content within lt mem =>
        weaker opening closing inner content (fun t here => leaves t (within here)) (by omega) mem
    have passes : Chained Passes none [] := trivial
    have closed (positive : 0 < limit) {between : Row} (first :
        fixpoint (visitsBy false (settle (.standard limit) false depth)) .bracket 0 limit row =
          .ok () between) : Closed between :=
      have same : SameInside (.standard limit) depth := settle_plain positive depth
      (fixpoint_bracket positive same 0 limit (Rested.gathering (.inl plain))).2 _ first
    show (fixpoint (visitsBy false (settle (.standard limit) false depth)) .bracket 0 limit >>=
      fun _ => _ : Step Unit) row = _ ↔ _
    constructor
    · intro run
      generalize first : fixpoint (visitsBy false (settle (.standard limit) false depth)) .bracket 0
        limit row = r at run
      cases r with
      | error e between =>
        rw [bind_error first] at run
        cases run
      | ok u between =>
        rw [bind_ok first] at run
        obtain ⟨between, rfl, grouped, few⟩ := grouped_of_fixpoint passes plain first
        have positive : 0 < limit := by omega
        obtain ⟨rests, fewLater⟩ :=
          (run_ok_iff positive (by decide) (by decide) (.inr (closed positive first))).mp run
        have parsed : Grouped (fun inner content => Parses inner content ∧ content.Within limit) none
            row between :=
          inner grouped fun _ _ _ _ leaves lt _ run => (ih leaves lt).mp run
        refine ⟨.mk (inner parsed fun _ _ _ _ _ _ _ both => both.1) rests,
          (within_iff leaves parsed rests).mpr ⟨fun opening closing content mem => ?_, few, fewLater⟩⟩
        exact parsed.content leaves mem
    · rintro ⟨⟨grouped, rests⟩, within⟩
      obtain ⟨contents, few, fewLater⟩ := (within_iff leaves grouped rests).mp within
      have positive : 0 < limit := by omega
      have settled : Grouped (fun inner content =>
          settle (.standard limit) false depth inner = .ok () content) none row _ :=
        inner grouped fun opening closing _ content leaves lt mem parses =>
          (ih leaves lt).mpr ⟨parses, contents opening closing content mem⟩
      have first : fixpoint (visitsBy false (settle (.standard limit) false depth)) .bracket 0 limit
          ([] ++ row) = .ok () _ :=
        fixpoint_of_grouped settled passes few
      rw [List.nil_append, List.nil_append] at first
      rw [bind_ok first]
      exact (run_ok_iff positive (by decide) (by decide) (.inr (closed positive first))).mpr
        ⟨rests, fewLater⟩

/-! ## Parsed rows -/

/-- What is parsed is no heavier than before. -/
theorem Parses.weight_le (parses : Parses row row') : row'.weight ≤ row.weight := by
  induction weight : row.weight using Nat.strong_induction_on generalizing row row' with
  | _ n ih =>
    obtain ⟨grouped, rests⟩ := parses
    have lighter := (grouped.imp fun _ _ inner content _ lt _ parses =>
      ih inner.weight (weight ▸ lt) parses rfl).weight_le fun _ _ => id
    have later := rests.made_weight_le (by decide) .bracket
    rw [rests.made_eq (by decide) (by decide)] at later
    omega

/-- A limit above the weight of leaves is large enough for what they are parsed to. -/
theorem Parses.within (parses : Parses row row') (leaves : ∀ t ∈ row, t.node.kind = .tokenLeaf)
    (light : row.weight < limit) : row'.Within limit := by
  induction weight : row.weight using Nat.strong_induction_on generalizing row row' with
  | _ n ih =>
    obtain ⟨grouped, rests⟩ := parses
    have lighter := grouped.weight_le fun _ _ => Parses.weight_le
    have parsed : Grouped (fun inner content => Parses inner content ∧ content.Within limit) none row _ :=
      grouped.imp fun _ _ inner content within lt _ parses =>
        ⟨parses, ih inner.weight (weight ▸ lt) parses (fun t here => leaves t (within here))
          (by omega) rfl⟩
    refine (within_iff leaves grouped rests).mpr
      ⟨fun _ _ content mem => parsed.content leaves mem, grouped.branches_le.trans_lt light, ?_⟩
    intro rule _
    have := rests.made_weight_le (by decide) rule
    omega

/-- What a run with all rules makes of leaves, whose number is below both of its bounds. -/
theorem settle_ok_iff {depth : Nat} (leaves : ∀ t ∈ row, t.node.kind = .tokenLeaf)
    (deep : row.weight < depth) (enough : row.weight < limit) :
    settle (.standard limit) false depth row = .ok () row' ↔ Parses row row' :=
  (settle_ok_iff_within leaves deep).trans
    ⟨And.left, fun parses => ⟨parses, parses.within leaves enough⟩⟩

end Row

end SqlFold
