import SqlFold.Proofs.Rows.Leaves
import SqlFold.Proofs.Rows.Sound
import SqlFold.Proofs.Rows.Split

/-!
# Parsed rows are quiet

Every rule comes to rest once, before the rules behind it in the list fold what it looks at. Still no
rule folds anything in the row that all rules leave (`Row.Parses.quiet`): what a rule needs for a fold is
gone when it has come to rest, and no later fold brings it back. This is

* a leaf that it consumes, for most rules;
* a name that stands behind no point, for `Rule.call` and `Rule.column`;
* a source behind `FROM`, for `Rule.fromClause`;
* the end of the branch or a semicolon behind the last clause, for `Rule.select`.
-/

namespace SqlFold.Row

variable {rule : Rule} {row row' left right : Row} {here : Bare} {fold : Fold Bare}

/-- No rule folds anything at any place of a row. -/
def Quiet (row : Row) : Prop :=
  ∀ (rule : Rule) (left : Row) (here : Bare) (right : Row), row = left.reverse ++ here :: right →
    ∀ fold, rule.apply Tree.node ⟨left, here, right⟩ ≠ .ok (some fold)

/-- All trees of a row are sound. -/
def AllSound (row : Row) : Prop := ∀ t ∈ row, t.Sound fun _ => True

theorem allSound_leaves (ts : List Token) : AllSound (leaves ts) := fun t mem => by
  obtain ⟨token, _, rfl⟩ := List.mem_map.mp mem
  exact .leaf trivial

/-- What is said of every tree and the tree before it. -/
theorem chained_of_focus {P : Option Bare → Bare → Prop}
    (each : ∀ left here right, row = List.reverse left ++ here :: right → P left.head? here) :
    Chained P none row := by
  have behind (front back : Row) (split : row = front ++ back) : Chained P front.getLast? back := by
    induction back generalizing front with
    | nil => trivial
    | cons t back ih =>
      refine ⟨?_, ?_⟩
      · rw [← List.head?_reverse]
        exact each front.reverse t back (by simpa using split)
      · have rest := ih (front ++ [t]) (by simpa using split)
        rwa [List.getLast?_concat] at rest
  exact behind [] row rfl

theorem AllSound.columns (sound : AllSound row) : ∀ a ∈ row, ∀ c, a.node = .column c → c.Sound := by
  intro a mem c shown
  have slots := (sound a mem).slots
  rwa [shown] at slots

/-- What a fold takes out of a row of sound trees, and where it stood. -/
theorem taken_of_sound (answer : rule.apply Tree.node ⟨left, here, right⟩ = .ok (some fold))
    (other : rule ≠ .bracket) (sound : AllSound (left.reverse ++ here :: right)) :
    ∃ back ahead, Rule.Covers Tree.node ⟨left, here, right⟩ fold back ahead ∧
      left.reverse ++ here :: right =
        fold.left.reverse ++ (back.reverse ++ here :: ahead) ++ fold.right ∧
      ∀ t ∈ back.reverse ++ here :: ahead,
        (∃ token, t.node = .leaf token ∧ (rule ∉ [.allColumns, .column] → token.kind ≠ .dot)) ∨
          t.kind.fillsSlot = true := by
  obtain ⟨back, ahead, covers⟩ := Rule.apply_covers answer
  have split : left.reverse ++ here :: right =
      fold.left.reverse ++ (back.reverse ++ here :: ahead) ++ fold.right := by
    rw [show left = _ from covers.left, show right = _ from covers.right]
    simp
  refine ⟨back, ahead, covers, split, fun t mem => covers.taken answer other (fun a mem => ?_) mem⟩
  exact sound.columns a (split ▸ List.mem_append_left _ (List.mem_append_right _ mem))

/-- What stood before the first tree behind a fold was taken. -/
theorem Chained.behind_taken {P : Option Bare → Bare → Prop} {before taken after : Row}
    (chained : Chained P none (before ++ taken ++ after)) (nonempty : taken ≠ []) {u : Bare}
    (first : u ∈ after.head?) : ∃ t ∈ taken, P (some t) u := by
  obtain ⟨init, t, rfl⟩ := (List.eq_nil_or_concat' taken).resolve_left nonempty
  obtain ⟨_, behind⟩ := chained_append.mp chained
  rw [← List.append_assoc, List.getLast?_concat, Option.some_or] at behind
  cases after with
  | nil => cases first
  | cons v after =>
    cases first
    exact ⟨t, by simp, behind.1⟩

/-! ## Names behind points -/

/-- A name stands behind a point. -/
def Qualified (previous : Option Bare) (t : Bare) : Prop :=
  Rule.leafIs Tree.node .symbol t = true → previous.any (Rule.leafIs Tree.node .dot) = true

theorem qualified_of_declined (declined : Declined .column row) : Chained Qualified none row := by
  refine chained_of_focus fun left here right split isName => ?_
  by_contra first
  obtain ⟨token, shown, kind⟩ := Rule.leafIs_iff.mp isName
  have name : Rule.leaf? Tree.node .symbol here = some token := Rule.leaf?_eq_some.mpr ⟨shown, kind⟩
  have answer := declined left here right split
  simp only [Rule.apply, Rule.applyColumn, name, if_neg first] at answer
  exact Rule.bind_ne_none (fun _ => Rule.fold_ne_none) answer

/-- `Rule.call` and `Rule.column` fold no name behind a point. -/
theorem unqualified_of_fold (names : rule = .call ∨ rule = .column)
    (answer : rule.apply Tree.node ⟨left, here, right⟩ = .ok (some fold)) : ¬Qualified left.head? here := by
  intro qualified
  have isName {token : Token} (name : Rule.leaf? Tree.node .symbol here = some token) :
      left.head?.any (Rule.leafIs Tree.node .dot) = true :=
    qualified (Rule.leafIs_iff.mpr ⟨token, Rule.leaf?_eq_some.mp name⟩)
  rcases names with rfl | rfl
  · simp only [Rule.apply, Rule.applyCall] at answer
    split at answer
    · next name =>
      rw [isName name, Bool.not_true, Bool.and_false] at answer
      cases answer
    · cases answer
  · simp only [Rule.apply, Rule.applyColumn] at answer
    split at answer
    · cases answer
    · next name =>
      rw [if_pos (isName name)] at answer
      cases answer

/-- The tree that a fold makes is no leaf of any kind. -/
theorem leafIs_tree (answer : rule.apply Tree.node ⟨left, here, right⟩ = .ok (some fold))
    (kind : TokenKind) : Rule.leafIs Tree.node kind fold.tree = false := by
  have other := Rule.kind_tree_ne_leaf answer
  by_contra isLeaf
  obtain ⟨t, shown, _⟩ := Rule.leafIs_iff.mp (by simpa using isLeaf)
  exact other (Rule.kind_of_leaf shown)

/-- Rules that take no points keep names behind points. -/
theorem qualified_fold (answer : rule.apply Tree.node ⟨left, here, right⟩ = .ok (some fold))
    (other : rule ∉ [.bracket, .allColumns, .column]) (sound : AllSound (left.reverse ++ here :: right))
    (qualified : Chained Qualified none (left.reverse ++ here :: right)) :
    Chained Qualified none fold.row := by
  simp only [List.mem_cons, not_or] at other
  obtain ⟨back, ahead, _, split, taken⟩ := taken_of_sound answer other.1 sound
  refine Rule.chained_row answer qualified (fun isName => ?_) fun u first isName => ?_
  · rw [leafIs_tree answer] at isName
    cases isName
  · -- The point before the name would be among what is taken.
    rw [split] at qualified
    obtain ⟨t, mem, behind⟩ := qualified.behind_taken (by simp) first
    obtain ⟨token, shown, kind⟩ := Rule.leafIs_iff.mp (behind isName)
    rcases taken t mem with ⟨token', shown', notDot⟩ | fills
    · cases shown.symm.trans shown'
      exact absurd kind (notDot (by simpa using other.2))
    · rw [Tree.kind, show t.node = _ from shown] at fills
      cases fills

/-! ## Sources behind `FROM` -/

/-- Behind `FROM` stands neither a name nor a branch. -/
def Sourceless (previous : Option Bare) (t : Bare) : Prop :=
  previous.any (Rule.leafIs Tree.node .fromKw) = true → t.kind ∉ [.column, .bracket]

theorem sourceless_of_declined (declined : Declined .fromClause row) : Chained Sourceless none row := by
  refine chained_of_focus fun left here right split isFrom => ?_
  obtain ⟨a, before, rfl, isFrom⟩ := Rule.head?_any isFrom
  obtain ⟨token, shown, kind⟩ := Rule.leafIs_iff.mp isFrom
  have word : Rule.leaf? Tree.node .fromKw a = some token := Rule.leaf?_eq_some.mpr ⟨shown, kind⟩
  have answer := declined before a (here :: right) (by simp [split])
  simp only [Rule.apply, Rule.applyFromClause, word] at answer
  obtain ⟨source, taken, answer⟩ := Rule.bind_eq_ok answer
  cases source with
  | some => exact absurd answer (Rule.bind_ne_none fun _ => Rule.fold_ne_none)
  | none =>
    obtain ⟨source, read, none⟩ := Rule.bind_eq_ok taken
    intro kind
    unfold Rule.source? at read
    cases node : here.node with
    | column c =>
      rw [node] at read
      dsimp only at read
      split at read
      · cases read
      · cases read
        cases none
    | bracket p =>
      rw [node] at read
      cases read
      cases none
    | _ =>
      rw [Tree.kind, node] at kind
      simp [Node.kind] at kind

/-- `Rule.fromClause` folds nothing without a source. -/
theorem source_of_fold (answer : Rule.apply Tree.node .fromClause ⟨left, here, right⟩ = .ok (some fold)) :
    ¬Chained Sourceless (some here) right := by
  intro sourceless
  simp only [Rule.apply, Rule.applyFromClause] at answer
  split at answer
  · cases answer
  · next word =>
    obtain ⟨source, taken, answer⟩ := Rule.bind_eq_ok answer
    cases right with
    | nil =>
      cases taken
      cases answer
    | cons a right =>
      have noSource := sourceless.1 (Rule.leafIs_iff.mpr ⟨_, Rule.leaf?_eq_some.mp word⟩)
      obtain ⟨source, read, whole⟩ := Rule.bind_eq_ok taken
      unfold Rule.source? at read
      cases node : a.node with
      | column => simp [Tree.kind, node, Node.kind] at noSource
      | bracket => simp [Tree.kind, node, Node.kind] at noSource
      | _ =>
        rw [node] at read
        cases read
        cases whole
        cases answer

/-- Rules that make no sources keep them away from `FROM`. -/
theorem sourceless_fold (answer : rule.apply Tree.node ⟨left, here, right⟩ = .ok (some fold))
    (other : rule.makes ∉ [.column, .bracket])
    (sourceless : Chained Sourceless none (left.reverse ++ here :: right)) :
    Chained Sourceless none fold.row := by
  refine Rule.chained_row answer sourceless (fun _ => ?_) fun u first isFrom => ?_
  · rwa [Rule.kind_tree answer]
  · rw [Option.any_some, leafIs_tree answer] at isFrom
    cases isFrom

/-! ## Ends of statements -/

/-- A folded `SELECT` reaches from its keyword to the end of the statement. -/
theorem applySelect_fold (answer : Rule.applySelect Tree.node ⟨left, here, right⟩ = .ok (some fold)) :
    fold.left = left ∧ Rule.endsStatement Tree.node fold.right = true ∧
      ∀ left', ∃ fold', Rule.applySelect Tree.node ⟨left', here, right⟩ = .ok (some fold') := by
  unfold Rule.applySelect at answer ⊢
  dsimp only at answer ⊢
  cases word : Rule.leaf? Tree.node .selectKw here with
  | none =>
    rw [word] at answer
    cases answer
  | some keyword =>
    rw [word] at answer
    obtain ⟨items, taken, answer⟩ := Rule.bind_eq_ok answer
    split at answer
    · next ends =>
      cases answer
      refine ⟨rfl, ends, fun left' => ?_⟩
      dsimp only [Rule.beforeSelectList] at taken ⊢
      rw [taken]
      simp only [ends, if_true, bind, Except.bind]
      exact ⟨_, rfl⟩
    · cases answer

/-- No `SELECT` can be folded. -/
def Waiting (row : Row) : Prop :=
  ∀ (l : Row) (h : Bare) (r : Row), row = l.reverse ++ h :: r →
    ∀ f, Rule.applySelect Tree.node ⟨l, h, r⟩ ≠ .ok (some f)

/-- A folded `UPDATE` makes no `SELECT` ready. -/
theorem waiting_fold (answer : Rule.apply Tree.node .update ⟨left, here, right⟩ = .ok (some fold))
    (sound : AllSound (left.reverse ++ here :: right))
    (waits : Waiting (left.reverse ++ here :: right)) : Waiting fold.row := by
  intro l h r place f selects
  obtain ⟨back, ahead, _, split, _⟩ := taken_of_sound answer nofun sound
  have soundRow : AllSound fold.row := Rule.sound_row answer sound
  obtain ⟨left_eq, ends, anywhere⟩ := applySelect_fold selects
  have update : fold.tree.kind = .update := Rule.kind_tree answer
  have noSemicolon : Rule.leafIs Tree.node .semicolon fold.tree = false := leafIs_tree answer _
  rw [place] at soundRow
  have asRule : Rule.apply Tree.node .select ⟨l, h, r⟩ = .ok (some f) := selects
  obtain ⟨back', ahead', covers, split', taken⟩ := taken_of_sound asRule nofun soundRow
  have untaken : fold.tree ∉ ahead' := by
    intro mem
    rcases taken fold.tree (by simp [mem]) with ⟨token, shown, _⟩ | fills
    · rw [Tree.kind, shown] at update
      cases update
    · rw [update] at fills
      cases fills
  have right_eq : r = ahead' ++ f.right := covers.right
  cases place_of_split place with
  | before between front eq =>
    obtain ⟨behind, rfl, rest⟩ : ∃ behind, between = ahead' ++ behind ∧
        f.right = behind ++ fold.tree :: fold.right := by
      rcases List.append_eq_append_iff.mp (right_eq.symm.trans eq) with
        ⟨behind, eq, rest⟩ | ⟨behind, eq, rest⟩
      · exact ⟨behind, eq, rest⟩
      · cases behind with
        | nil => exact ⟨[], by simpa using eq.symm, rest.symm⟩
        | cons u behind =>
          obtain ⟨rfl, _⟩ := List.cons.inj rest
          exact absurd (by simp [eq]) untaken
    -- What the `SELECT` takes ends before a semicolon, so it could be folded before.
    rw [rest] at ends
    cases behind with
    | nil => cases noSemicolon.symm.trans ends
    | cons s behind =>
      have semi : Rule.leafIs Tree.node .semicolon s = true := ends
      rw [right_eq, rest, List.cons_append] at selects
      have divides : Divides .select s := divides_semicolon semi nofun
      have alone := divides.before (B := behind ++ fold.tree :: fold.right) l ahead' h
      rw [show Rule.apply Tree.node .select ⟨l, h, ahead' ++ s :: (behind ++ fold.tree :: fold.right)⟩ = _
        from selects] at alone
      obtain ⟨f', alone, _⟩ := alone.left_some
      have before := divides.before (B := behind ++ (List.reverse back ++ here :: ahead) ++ fold.right)
        l ahead' h
      rw [alone] at before
      refine waits l h _ ?_ _ before.right_some
      rw [split, front]
      simp
  | here _ eq =>
    rw [eq] at selects
    have declined : Rule.apply Tree.node .select ⟨l, fold.tree, r⟩ = .ok none := by
      refine Rule.apply_of_node ?_ rfl
      show fold.tree.node.token? = none
      cases shown : fold.tree.node with
      | leaf =>
        rw [Tree.kind, shown] at update
        cases update
      | _ => rfl
    cases declined.symm.trans selects
  | behind between rear eq =>
    obtain ⟨f', selects⟩ := anywhere (between ++ (List.reverse ahead ++ here :: back) ++ fold.left)
    refine waits _ h r ?_ f' selects
    rw [split, rear]
    simp

/-! ## All rules -/

/-- A span with sound content is sound. -/
theorem sound_span {P : Token → Prop} {opening closing : Token} {content : Row}
    (sort : P opening ∧ P closing) (isOpen : opening.kind = .bracketOpen)
    (isClose : closing.kind = .bracketClose) (sound : ∀ t ∈ content, t.Sound P) :
    (span opening closing content).Sound P := by
  refine .mk nofun ⟨isOpen, isClose⟩ (fun t mem => ?_) (by simpa using sound)
  simp only [Node.parts, List.cons_append, List.mem_cons, Part.token.injEq, List.mem_append,
    List.mem_map, reduceCtorEq, and_false, exists_false, List.not_mem_nil, or_false, false_or] at mem
  rcases mem with rfl | rfl
  · exact sort.1
  · exact sort.2

/-- Sound rows are parsed to sound rows. -/
theorem Parses.sound (parses : Parses row row') (sound : AllSound row) : AllSound row' :=
  parses.forall_mem (P := Tree.Sound fun _ => True)
    (fun _ _ _ _ isOpen isClose _ sound => sound_span ⟨trivial, trivial⟩ isOpen isClose sound)
    (fun _ _ _ _ _ _ answer sound => Rule.sound_tree answer sound) sound

/-- Rules keep rows of sound trees. -/
theorem RestsAll.sound {rules : List Rule} (rests : RestsAll rules row row') (sound : AllSound row) :
    AllSound row' :=
  rests.keeps (I := AllSound) (fun _ _ _ _ _ _ answer sound => Rule.sound_row answer sound) sound

section Parsed

variable (parses : Parses row row') (sound : AllSound row)

include parses sound

/-- The row with which a rule has come to rest. -/
theorem Parses.stage {before after : List Rule} (order : Rule.standard.tail = before ++ rule :: after) :
    ∃ between, AllSound between ∧ Declined rule between ∧ RestsAll after between row' := by
  obtain ⟨grouped, rests⟩ := parses
  have soundBetween : AllSound _ := grouped.forall_mem
    (fun _ _ _ _ isOpen isClose _ sound => sound_span ⟨trivial, trivial⟩ isOpen isClose sound)
    (fun _ _ _ parses sound => parses.sound sound) sound
  obtain ⟨between, earlier, declined, later⟩ := (order ▸ rests).split
  exact ⟨between, earlier.sound soundBetween, declined, later⟩

/-- Names stand only behind points. -/
theorem Parses.qualified : Chained Qualified none row' := by
  obtain ⟨between, soundBetween, declined, later⟩ := parses.stage sound
    (show _ = [.call, .literal, .allColumns] ++ .column :: _ from rfl)
  have noPoints : ∀ rule ∈ [Rule.membership, .operation, .conjunction, .fromClause, .join, .whereClause,
      .havingClause, .groupBy, .orderBy, .select, .update], rule ∉ [.bracket, .allColumns, .column] := by
    decide
  exact (later.keeps (I := fun r => AllSound r ∧ Chained Qualified none r)
    (fun rule listed _ _ _ _ answer inv => ⟨Rule.sound_row answer inv.1,
      qualified_fold answer (noPoints rule listed) inv.1 inv.2⟩)
    ⟨soundBetween, qualified_of_declined declined⟩).2

/-- No source stands behind `FROM`. -/
theorem Parses.sourceless : Chained Sourceless none row' := by
  obtain ⟨between, _, declined, later⟩ := parses.stage sound (show _ = [.call, .literal, .allColumns, .column, .membership,
    .operation, .conjunction] ++ .fromClause :: _ from rfl)
  have noSources : ∀ rule ∈ [Rule.join, .whereClause, .havingClause, .groupBy, .orderBy, .select, .update],
      rule.makes ∉ [.column, .bracket] := by
    decide
  exact later.keeps (I := Chained Sourceless none)
    (fun rule listed _ _ _ _ answer inv => sourceless_fold answer (noSources rule listed) inv)
    (sourceless_of_declined declined)

/-- No `SELECT` can be folded. -/
theorem Parses.waiting : Waiting row' := by
  obtain ⟨between, soundBetween, declined, later⟩ := parses.stage sound (show _ = [.call, .literal, .allColumns, .column,
    .membership, .operation, .conjunction, .fromClause, .join, .whereClause, .havingClause, .groupBy,
    .orderBy] ++ .select :: _ from rfl)
  exact (later.keeps (I := fun r => AllSound r ∧ Waiting r)
    (fun rule listed _ _ _ _ answer inv => by
      obtain rfl := List.mem_singleton.mp listed
      exact ⟨Rule.sound_row answer inv.1, waiting_fold answer inv.1 inv.2⟩)
    ⟨soundBetween, fun l h r split f selects => by
      cases (declined l h r split).symm.trans selects⟩).2

omit sound in
/-- No `UPDATE` can be folded. -/
theorem Parses.declined_update : Declined .update row' := by
  obtain ⟨_, rests⟩ := parses
  obtain ⟨_, _, declined, last⟩ := RestsAll.split (show RestsAll ([.call, .literal, .allColumns, .column,
    .membership, .operation, .conjunction, .fromClause, .join, .whereClause, .havingClause, .groupBy, .orderBy,
    .select] ++ .update :: []) _ _ from rests)
  cases last
  exact declined

/-- A parsed row of sound trees is quiet. -/
theorem Parses.quiet : Quiet row' := by
  have gone {kind : TokenKind} (gone : kind = .bracketOpen ∨ kind = .bracketClose ∨
      Rule.isConsumed kind = true) : kind ∉ row'.leafKinds := parses.not_mem_leafKinds gone
  have soundRow := parses.sound sound
  intro rule left here right split fold answer
  rw [split] at soundRow
  -- A leaf that is taken is a leaf of the row.
  have listed {t : Token} {a : Bare} (mem : a ∈ left.reverse ++ here :: right) (shown : a.node = .leaf t) :
      t.kind ∈ row'.leafKinds := by
    rw [split, leafKinds, List.mem_filterMap]
    exact ⟨a, mem, by rw [shown]; rfl⟩
  cases rule with
  | bracket =>
    obtain ⟨opening, _, _, _, shown, kind, _⟩ := Rule.applyBracket_fold answer
    exact gone (.inl rfl) (kind ▸ listed (by simp) shown)
  | call => exact unqualified_of_fold (.inl rfl) answer (split ▸ parses.qualified sound).focus
  | column => exact unqualified_of_fold (.inr rfl) answer (split ▸ parses.qualified sound).focus
  | fromClause => exact source_of_fold answer (split ▸ parses.sourceless sound).behind
  | select => exact parses.waiting sound left here right split fold answer
  | update => cases (parses.declined_update left here right split).symm.trans answer
  | _ =>
    obtain ⟨back, ahead, covers, whole, _⟩ := taken_of_sound answer (by decide) soundRow
    have inRow {a : Bare} (mem : a ∈ back.reverse ++ here :: ahead) : a ∈ left.reverse ++ here :: right :=
      whole ▸ List.mem_append_left _ (List.mem_append_right _ mem)
    have slots := covers.slots fun a mem => soundRow.columns a (inRow mem)
    obtain ⟨ps, written, matched⟩ := covers.written
    obtain ⟨t, mem, consumed⟩ := written.exists_consumed slots (by
      rw [Rule.apply_kind answer]
      decide)
    obtain ⟨a, taken, piece⟩ := matched.exists_sibling mem
    cases piece with
    | leaf shown => exact gone (.inr (.inr consumed)) (listed (inRow taken) shown)

end Parsed

end SqlFold.Row
