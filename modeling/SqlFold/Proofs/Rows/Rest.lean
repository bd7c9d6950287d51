import SqlFold.Proofs.Edges.Clauses
import SqlFold.Proofs.Rows.Quiet

/-!
# Parsed rows are at rest

In a parsed row no rule folds anything (`Row.Parses.quiet`). Nor does any rule but `Rule.bracket` object to
anything there (`Row.Parses.declined`). Most rules object only to what they find around a leaf that is consumed,
so there is nothing to object to. What is left is

* a name that stands behind no point, for `Rule.column`;
* a source behind `FROM`, for `Rule.fromClause`;
* a select list, which `Rule.select` has read before the updates were folded, and reads as it did then.
-/

namespace SqlFold

namespace Rule

variable {α : Type} {view : α → Node α}

/-! ## Rules that never object -/

theorem decline_ne_error {o : Objection α} : (decline : Checked α (Option (Fold α))) ≠ .error o := nofun

theorem fold_ne_error {left right : List α} {node : Node (Origin α)} {o : Objection α} :
    fold left node right ≠ .error o := nofun

theorem apply_ne_error {rule : Rule} (listed : rule ∈ [.call, .literal, .membership]) (focus : Focus α)
    (o : Objection α) : rule.apply view focus ≠ .error o := by
  obtain rfl | rfl | rfl : rule = .call ∨ rule = .literal ∨ rule = .membership := by simpa using listed
  · show applyCall view focus ≠ _
    unfold applyCall
    repeat' split
    all_goals first | exact decline_ne_error | exact fold_ne_error
  · show applyLiteral view focus ≠ _
    unfold applyLiteral
    repeat' split
    all_goals first | exact decline_ne_error | exact fold_ne_error
  · show applyMembership view focus ≠ _
    unfold applyMembership
    dsimp only
    repeat' split
    all_goals first | exact decline_ne_error | exact fold_ne_error

/-! ## Words that rules look for -/

section Words

variable {as : List α}

/-- Without the words of an operator there is none. -/
theorem takeOperator?_eq_none (noWord : ∀ a ∈ as, ∀ t, view a = .leaf t → startsOperator t.kind = false) :
    takeOperator? view as = none := by
  by_contra some
  obtain ⟨operator, taken⟩ := Option.ne_none_iff_exists'.mp some
  obtain ⟨isOperator, _, front, rfl, matched, _⟩ := takeOperator?_some taken
  have none {t : Token} (mem : t ∈ operator.tokens) : startsOperator t.kind = false := by
    obtain ⟨a, listed, made⟩ := matched.exists_sibling (List.mem_map_of_mem mem)
    cases made with
    | leaf shown => exact noWord a (List.mem_append_left _ listed) t shown
  generalize operator.tokens = tokens at isOperator none
  cases isOperator with
  | single starts => cases starts.symm.trans (none List.mem_cons_self)
  | isNot isKw =>
    have := none List.mem_cons_self
    rw [isKw] at this
    cases this
  | notLike _ second =>
    have := none (List.mem_cons_of_mem _ List.mem_cons_self)
    rcases second with kind | kind <;> rw [kind] at this <;> cases this

/-- Without `AND` and `OR` there are no more operands. -/
theorem takeJuncts_eq_nil (noWord : ∀ a ∈ as, ∀ t, view a = .leaf t → joinsOperands t.kind = false) :
    takeJuncts view as = .ok ([], as) := by
  have none {a : α} (mem : a ∈ as) : leafOf? view joinsOperands a = none := by
    by_contra some
    obtain ⟨t, shown⟩ := Option.ne_none_iff_exists'.mp some
    obtain ⟨leaf, joins⟩ := leafOf?_eq_some.mp shown
    cases joins.symm.trans (noWord a mem t leaf)
  rcases as with _ | ⟨word, _ | ⟨a, rest⟩⟩
  · rfl
  · simp only [takeJuncts, none List.mem_cons_self]
  · simp only [takeJuncts, none List.mem_cons_self]

/-- Without `JOIN` there is no join. -/
theorem applyJoin_eq_none {focus : Focus α} (noWord : ∀ a ∈ focus.here :: focus.right, leaf? view .joinKw a = none) :
    applyJoin view focus = .ok none := by
  unfold applyJoin
  split
  · rfl
  · cases taken : takeModifiers view (focus.here :: focus.right) with
    | mk modifiers rest =>
      obtain ⟨front, split, _⟩ := takeModifiers_eq taken
      cases rest with
      | nil => rfl
      | cons a rest =>
        dsimp only
        rw [noWord a (by simp [split])]
        rfl

end Words

/-! ## Select lists that are read again -/

theorem Both.ok_iff {β γ : Type} {f : β → γ} {x : Checked α β} {y : Checked α γ} (both : Both f x y) :
    (∃ b, x = .ok b) ↔ ∃ c, y = .ok c := by
  cases both with
  | ok => exact ⟨fun _ => ⟨_, rfl⟩, fun _ => ⟨_, rfl⟩⟩
  | error => exact ⟨nofun, nofun⟩

/-- `Rule.select` objects to nothing but the select list. -/
theorem applySelect_ok_iff {left right : List α} {here : α} :
    (∃ x, applySelect view ⟨left, here, right⟩ = .ok x) ↔ (leafIs view .selectKw here = true →
      ∃ s, takeProjections view false here (takeOptionalLeaf view .distinctKw right).2 = .ok s) := by
  unfold applySelect
  dsimp only
  cases word : leaf? view .selectKw here with
  | none =>
    have other : leafIs view .selectKw here ≠ true := fun isWord => by
      obtain ⟨t, leaf⟩ := leafIs_iff.mp isWord
      cases word.symm.trans (leaf?_eq_some.mpr leaf)
    exact ⟨fun _ isWord => absurd isWord other, fun _ => ⟨_, rfl⟩⟩
  | some keyword =>
    have isWord : leafIs view .selectKw here = true := leafIs_iff.mpr ⟨_, leaf?_eq_some.mp word⟩
    -- Whether the list can be read does not depend on what stands before it.
    have both := (takeProjections_append (show EndsList view [] from nofun) false here
      (beforeSelectList view ⟨left, here, right⟩) (takeOptionalLeaf view .distinctKw right).2).ok_iff
    rw [List.append_nil] at both
    rw [both]
    constructor
    · rintro ⟨x, answer⟩ -
      obtain ⟨s, taken, _⟩ := bind_eq_ok answer
      exact ⟨s, taken⟩
    · intro taken
      obtain ⟨s, taken⟩ := taken isWord
      rw [taken]
      dsimp only [bind, Except.bind]
      split <;> exact ⟨_, rfl⟩

/-- What stands behind a select list has no part in it. -/
theorem applySelect_ok_append (left left' : List α) {tail right : List α} {here : α} (ends : EndsList view tail)
    (noWord : ∀ s ∈ tail.head?, leafIs view .distinctKw s = false) :
    (∃ x, applySelect view ⟨left, here, right ++ tail⟩ = .ok x) ↔
      ∃ x, applySelect view ⟨left', here, right⟩ = .ok x := by
  have rest : (takeOptionalLeaf view .distinctKw (right ++ tail)).2 =
      (takeOptionalLeaf view .distinctKw right).2 ++ tail := by
    cases right with
    | nil =>
      cases tail with
      | nil => rfl
      | cons s tail =>
        have none : leaf? view .distinctKw s = none := by
          by_contra some
          obtain ⟨t, shown⟩ := Option.ne_none_iff_exists'.mp some
          cases (leafIs_iff.mpr ⟨t, leaf?_eq_some.mp shown⟩).symm.trans (noWord s rfl)
        simp only [List.nil_append, takeOptionalLeaf, none]
    | cons a right =>
      simp only [List.cons_append, takeOptionalLeaf]
      cases leaf? view .distinctKw a <;> rfl
  rw [applySelect_ok_iff, applySelect_ok_iff, rest]
  refine forall_congr' fun _ => (takeProjections_append ends false here here _).ok_iff.symm

end Rule

namespace Row

variable {rule : Rule} {row row' left right : Row} {here : Bare} {fold : Fold Bare}

/-- `Rule.select` objects to nothing. -/
def Selectable (row : Row) : Prop :=
  ∀ (l : Row) (h : Bare) (r : Row), row = l.reverse ++ h :: r → ∃ x, Rule.applySelect Tree.node ⟨l, h, r⟩ = .ok x

/-- A folded `UPDATE` starts with its keyword. -/
theorem applyUpdate_starts (answer : Rule.applyUpdate Tree.node ⟨left, here, right⟩ = .ok (some fold)) :
    fold.left = left ∧ Rule.leafIs Tree.node .updateKw here = true := by
  unfold Rule.applyUpdate at answer
  dsimp only at answer
  cases word : Rule.leaf? Tree.node .updateKw here with
  | none =>
    rw [word] at answer
    cases answer
  | some keyword =>
    refine ⟨?_, Rule.leafIs_iff.mpr ⟨_, Rule.leaf?_eq_some.mp word⟩⟩
    rw [word] at answer
    obtain ⟨source, _, answer⟩ := Rule.bind_eq_ok answer
    cases source with
    | none => cases answer
    | some source =>
      obtain ⟨aliased, _, answer⟩ := Rule.bind_eq_ok answer
      split at answer
      · cases answer
      · split at answer
        · cases answer
        · obtain ⟨assigned, _, answer⟩ := Rule.bind_eq_ok answer
          split at answer <;> cases answer
          rfl

/-- What is no operand and no word of the list ends a select list. -/
theorem endsList_of_other {s : Bare} {tail : Row} (noOperand : s.kind.isExpression = false)
    (others : ∀ kind ∈ [TokenKind.asKw, .comma], Rule.leafIs Tree.node kind s = false) :
    Rule.EndsList Tree.node (s :: tail) := by
  intro t first
  cases first
  exact ⟨noOperand, others _ (by simp), others _ (by simp)⟩

/-- A folded `UPDATE` ends the select list before it as its keyword did. -/
theorem selectable_fold (answer : Rule.apply Tree.node .update ⟨left, here, right⟩ = .ok (some fold))
    (selectable : Selectable (left.reverse ++ here :: right)) : Selectable fold.row := by
  obtain ⟨left_eq, isUpdate⟩ := applyUpdate_starts answer
  obtain ⟨token, shown, isKw⟩ := Rule.leafIs_iff.mp isUpdate
  obtain ⟨ahead, whole⟩ : ∃ ahead, right = ahead ++ fold.right := by
    obtain ⟨_, ahead, covers⟩ := Rule.apply_covers answer
    exact ⟨ahead, covers.right⟩
  have word (kind : TokenKind) (other : kind ≠ .updateKw) : Rule.leafIs Tree.node kind here = false := by
    rw [Rule.leafIs, Node.tokenKind?, shown]
    simpa [Node.token?, isKw] using Ne.symm other
  intro l h r place
  rw [Fold.row, left_eq] at place
  cases place_of_split place with
  | before between front back =>
    have before : ∃ x, Rule.applySelect Tree.node ⟨l, h, between ++ here :: right⟩ = .ok x :=
      selectable l h _ (by simp [front])
    rw [Rule.applySelect_ok_append l l (endsList_of_other
      (show Node.isExpression here.node = false by rw [shown]; rfl) fun kind mem => word kind (by
        rintro rfl
        simp at mem)) (by simpa using word .distinctKw (by decide))] at before
    rw [back, Rule.applySelect_ok_append l l (endsList_of_other
      (show NodeKind.isExpression fold.tree.kind = false by rw [Rule.kind_tree answer]; rfl)
        fun kind _ => leafIs_tree answer kind) (by simpa using leafIs_tree answer .distinctKw)]
    exact before
  | here _ eq =>
    rw [Rule.applySelect_ok_iff, eq, leafIs_tree answer]
    rintro ⟨⟩
  | behind between rear _ =>
    have before : ∃ x, Rule.applySelect Tree.node ⟨between ++ (ahead.reverse ++ here :: left), h, r⟩ = .ok x :=
      selectable _ h r (by simp [whole, rear])
    rwa [Rule.applySelect_ok_iff] at before ⊢

section Parsed

variable (parses : Parses row row') (sound : AllSound row)

include parses sound

/-- Nothing is wrong with a select list that stands in a parsed row. -/
theorem Parses.selectable : Selectable row' := by
  obtain ⟨between, _, declined, later⟩ := parses.stage sound (show _ = [.call, .literal, .allColumns, .column,
    .membership, .operation, .conjunction, .fromClause, .join, .whereClause, .havingClause, .groupBy,
    .orderBy] ++ .select :: _ from rfl)
  refine later.keeps (I := Selectable) (fun rule listed _ _ _ _ answer selectable => ?_)
    fun l h r split => ⟨_, declined l h r split⟩
  obtain rfl := List.mem_singleton.mp listed
  exact selectable_fold answer selectable

/-- No rule but `Rule.bracket` does anything in a parsed row. -/
theorem Parses.declined (other : rule ≠ .bracket) : Declined rule row' := by
  intro left here right split
  have inRow {a : Bare} (mem : a ∈ here :: right) : a ∈ row' := split ▸ List.mem_append_right _ mem
  -- A word that is consumed is gone.
  have gone {a : Bare} (mem : a ∈ row') {t : Token} (shown : a.node = .leaf t) : Rule.isConsumed t.kind = false := by
    by_contra consumed
    refine parses.not_mem_leafKinds (.inr (.inr (Bool.eq_true_of_not_eq_false consumed)))
      (List.mem_filterMap.mpr ⟨a, mem, ?_⟩)
    rw [Node.tokenKind?, shown]
    rfl
  have noWord {rule : Rule} {a : Bare} (mem : a ∈ row') (t : Token) (shown : a.node = .leaf t) :
      rule.consumes t.kind = false := by
    by_contra consumes
    have consumed := Rule.isConsumed_of_consumes (Bool.eq_true_of_not_eq_false consumes)
    cases consumed.symm.trans (gone mem shown)
  -- What is not objected to is declined, because nothing is folded.
  have none_of_ok (answered : ∃ x, rule.apply Tree.node ⟨left, here, right⟩ = .ok x) :
      rule.apply Tree.node ⟨left, here, right⟩ = .ok none := by
    obtain ⟨_ | fold, answer⟩ := answered
    · exact answer
    · exact absurd answer (parses.quiet sound rule left here right split fold)
  have none_of_total (listed : rule ∈ [.call, .literal, .membership]) :
      rule.apply Tree.node ⟨left, here, right⟩ = .ok none := by
    cases answer : rule.apply Tree.node ⟨left, here, right⟩ with
    | error o => exact absurd answer (Rule.apply_ne_error listed _ o)
    | ok x => exact answer ▸ none_of_ok ⟨x, answer⟩
  -- Rules that start at words which they consume have nowhere to start.
  have none_at_leaf (same : rule.startsAtLeaf = rule.consumes) {t : Token} (token : here.node.token? = some t) :
      rule.apply Tree.node ⟨left, here, right⟩ = .ok none := by
    have shown := Rule.token?_eq_some.mp token
    exact Rule.apply_of_leaf shown (same ▸ noWord (inRow List.mem_cons_self) t shown)
  have none_of_word (same : rule.startsAtLeaf = rule.consumes) (plain : ∀ kind, rule.startsAtNode kind = false) :
      rule.apply Tree.node ⟨left, here, right⟩ = .ok none := by
    cases token : here.node.token? with
    | some t => exact none_at_leaf same token
    | none => exact Rule.apply_of_node token (plain _)
  have behind (rule : Rule) : ∀ a ∈ right, ∀ t, a.node = .leaf t → rule.consumes t.kind = false :=
    fun a mem t shown => noWord (inRow (List.mem_cons_of_mem _ mem)) t shown
  cases rule with
  | bracket => exact absurd rfl other
  | call => exact none_of_total (by decide)
  | literal => exact none_of_total (by decide)
  | membership => exact none_of_total (by decide)
  | allColumns => exact none_of_word rfl fun _ => rfl
  | whereClause => exact none_of_word rfl fun _ => rfl
  | havingClause => exact none_of_word rfl fun _ => rfl
  | groupBy => exact none_of_word rfl fun _ => rfl
  | orderBy => exact none_of_word rfl fun _ => rfl
  | select => exact none_of_ok (parses.selectable sound left here right split)
  | update => exact parses.declined_update left here right split
  | join =>
    refine Rule.applyJoin_eq_none fun a mem => ?_
    by_contra some
    obtain ⟨t, word⟩ := Option.ne_none_iff_exists'.mp some
    obtain ⟨shown, kind⟩ := Rule.leaf?_eq_some.mp word
    have isJoin : Rule.consumes .join t.kind = true := beq_iff_eq.mpr kind
    cases isJoin.symm.trans (noWord (inRow mem) t shown)
  | operation =>
    cases token : here.node.token? with
    | some t => exact none_at_leaf rfl token
    | none =>
      simp only [Rule.apply, Rule.applyOperation, token, Rule.takeOperator?_eq_none (behind .operation)]
      split <;> rfl
  | conjunction =>
    cases token : here.node.token? with
    | some t => exact none_at_leaf rfl token
    | none =>
      simp only [Rule.apply, Rule.applyConjunction, token, Rule.takeJuncts_eq_nil (behind .conjunction)]
      split <;> rfl
  | column =>
    simp only [Rule.apply, Rule.applyColumn]
    split
    · rfl
    · next name =>
      rw [if_pos]
      · rfl
      · exact (split ▸ parses.qualified sound).focus (Rule.leafIs_iff.mpr ⟨_, Rule.leaf?_eq_some.mp name⟩)
  | fromClause =>
    simp only [Rule.apply, Rule.applyFromClause]
    split
    · rfl
    · next word =>
      cases right with
      | nil => rfl
      | cons a right =>
        have noSource := (split ▸ parses.sourceless sound).behind.1
          (Rule.leafIs_iff.mpr ⟨_, Rule.leaf?_eq_some.mp word⟩)
        have unread : Rule.source? Tree.node true a = .ok none := by
          unfold Rule.source?
          cases shown : a.node <;> first | rfl | simp [Tree.kind, shown, Node.kind] at noSource
        rw [Rule.takeSource?, unread]
        rfl

end Parsed

end Row

end SqlFold
