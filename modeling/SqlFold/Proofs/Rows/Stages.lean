import SqlFold.Proofs.Rows.Leaves
import SqlFold.Proofs.Rows.Split

/-!
# Rules one after the other

A rule makes nodes of one kind, and those of the rules behind it do not stand in the row yet
(`Row.Fresh`). So what a rule finds in a row is known by the rules before it:

* `Row.Parses.induction` is the induction on brackets within brackets;
* `Row.RestsAll.keepsFresh` goes from rule to rule, `Row.Rests.keepsFirst` from fold to fold, where
  the rule has declined at all places before the fold;
* `Row.Rests.joined` says what stands around an operator when `Rule.operation` folds it, and
  `Row.Rests.flat` that `Rule.conjunction` takes whole chains.
-/

namespace SqlFold

namespace Rule

/-- A rule and those that run after it. -/
def onwards (rule : Rule) : List Rule := standard.dropWhile (· != rule)

theorem onwards_eq {rule : Rule} {later : List Rule} (suffix : rule :: later <:+ standard) :
    rule.onwards = rule :: later := by
  obtain ⟨before, whole⟩ := suffix
  have once : (before ++ rule :: later).Nodup := whole ▸ by decide
  have absent : ∀ other ∈ before, (other != rule) = true := fun other mem => bne_iff_ne.mpr fun same =>
    List.disjoint_of_nodup_append once mem (same ▸ List.mem_cons_self)
  rw [onwards, ← whole, List.dropWhile_append_of_pos absent]
  simp

end Rule

namespace Row

variable {rule : Rule} {rules : List Rule} {row row' : Row}

/-! ## From rule to rule -/

/-- What is said of the rows that leaves are parsed to is proved where it holds between all brackets. -/
theorem Parses.induction {Q : Row → Row → Prop}
    (step : ∀ {raw row row' : Row}, (∀ t ∈ raw, t.kind = .tokenLeaf) →
      Grouped (fun inner content => Parses inner content ∧ Q inner content) none raw row →
        RestsAll Rule.standard.tail row row' → Q raw row')
    {raw row' : Row} (parses : Parses raw row') (leaves : ∀ t ∈ raw, t.kind = .tokenLeaf) : Q raw row' := by
  generalize bound : raw.weight = w
  induction w using Nat.strongRecOn generalizing raw row' with
  | ind w ih =>
    obtain ⟨grouped, rests⟩ := parses
    refine step leaves (grouped.imp fun _ _ inner content inside lt _ parses => ⟨parses, ?_⟩) rests
    exact ih _ (bound ▸ lt) parses (fun t mem => leaves t (inside mem)) rfl

/-- The trees of a row with grouped brackets. -/
theorem Grouped.mem {S : Row → Row → Prop} {previous : Option Bare} (grouped : Grouped S previous row row') :
    ∀ t ∈ row', t ∈ row ∨ ∃ opening closing inner content arguments, t = Row.span opening closing content ∧
      opening.kind = .bracketOpen ∧ closing.kind = .bracketClose ∧ S inner content ∧
        Rule.checkContent Tree.node t content arguments = .ok () := by
  induction grouped with
  | nil => nofun
  | cons _ _ _ _ ih =>
    refine List.forall_mem_cons.mpr ⟨.inl List.mem_cons_self, fun t mem => ?_⟩
    exact (ih t mem).imp_left (List.mem_cons_of_mem _)
  | @span previous t opening closing row inner content after row' node kind split settled checked _ ih =>
    obtain ⟨last, rfl, _, isClosing⟩ := Rule.splitAtClosing?_some split
    refine List.forall_mem_cons.mpr ⟨.inr ?_, fun u mem => ?_⟩
    · exact ⟨opening, closing, inner, content, _, rfl, kind, isClosing, settled, checked⟩
    · exact (ih u mem).imp_left fun behind => by simp [behind]

/-- No tree of a row is of a kind that one of the rules makes. -/
def Fresh (rules : List Rule) (row : Row) : Prop := ∀ t ∈ row, ∀ rule ∈ rules, t.kind ≠ rule.makes

theorem Fresh.of_subset {rules' : List Rule} (fresh : Fresh rules row) (fewer : rules' ⊆ rules) :
    Fresh rules' row := fun t mem rule listed => fresh t mem rule (fewer listed)

/-- Behind the grouping of brackets no other rule has made anything. -/
theorem Grouped.fresh {S : Row → Row → Prop} {previous : Option Bare} (grouped : Grouped S previous row row')
    (leaves : ∀ t ∈ row, t.kind = .tokenLeaf) : Fresh Rule.standard.tail row' := by
  intro t mem rule listed
  have plain : rule.makes ≠ .tokenLeaf ∧ rule.makes ≠ .bracket := by
    revert rule
    decide
  rcases grouped.mem t mem with leaf | ⟨_, _, _, _, _, rfl, _⟩
  · rw [leaves t leaf]
    exact plain.1.symm
  · exact plain.2.symm

theorem makes_injective {rule rule' : Rule} (same : rule.makes = rule'.makes) : rule = rule' := by
  cases rule <;> cases rule' <;> first | rfl | cases same

/-- What every rule keeps that comes to rest in a row without its nodes and those of the later rules. -/
theorem RestsAll.keepsFresh {I : Row → Prop} (rests : RestsAll rules row row') (suffix : rules <:+ Rule.standard)
    (fresh : Fresh rules row)
    (stage : ∀ rule ∈ rules, ∀ row row', Rests rule row row' → Fresh rule.onwards row → I row → I row')
    (holds : I row) : I row' := by
  induction rests with
  | nil => exact holds
  | @cons rule rules row row' row'' first _ ih =>
    have once : (rule :: rules).Nodup := suffix.sublist.nodup (by decide)
    rw [List.nodup_cons] at once
    have later : Fresh rules row' := first.keeps
      (fun _ _ _ _ answer others => Rule.forall_row answer others fun rule' listed same =>
        once.1 (makes_injective ((Rule.kind_tree answer).symm.trans same) ▸ listed))
      (fresh.of_subset (List.subset_cons_self _ _))
    refine ih ((List.suffix_cons rule rules).trans suffix) later (fun rule' listed => ?_) ?_
    · exact stage rule' (List.mem_cons_of_mem _ listed)
    · exact stage rule List.mem_cons_self row row' first (Rule.onwards_eq suffix ▸ fresh) holds

/-! ## From fold to fold -/

/-- What every fold keeps before which a rule has declined everywhere. -/
theorem Rests.keepsFirst {I : Row → Prop} (rests : Rests rule row row')
    (step : ∀ left here right fold, DeclinedBefore rule left.length (left.reverse ++ here :: right) →
      rule.apply Tree.node ⟨left, here, right⟩ = .ok (some fold) →
        I (left.reverse ++ here :: right) → I fold.row) (holds : I row) : I row' := by
  induction rests with
  | rest => exact holds
  | fold before answer _ ih => exact ih (step _ _ _ _ before answer holds)

end Row

/-! ## Operators -/

namespace Rule

variable {α : Type} {view : α → Node α} {left right : List α} {here : α}

/-- What `Rule.operation` folds. -/
theorem applyOperation_fold {fold : Fold α} (answer : applyOperation view ⟨left, here, right⟩ = .ok (some fold)) :
    ∃ operator a after, isOperand view here = true ∧ takeOperator? view right = some operator ∧
      operator.after = a :: after ∧ isOperand view a = true ∧
        fold = ⟨left, .operation ⟨.sibling here, operator.tokens, .sibling a⟩, after⟩ := by
  unfold applyOperation at answer
  split at answer
  · split at answer
    · exact (object_ne answer).elim
    · exact (decline_ne answer).elim
  · split at answer
    · next operand =>
      split at answer
      · exact (decline_ne answer).elim
      · next operator read =>
        split at answer
        · exact (object_ne answer).elim
        · next a after behind =>
          split at answer
          · next operand' =>
            exact ⟨operator, a, after, operand, read, behind, operand', fold_eq_ok answer⟩
          · exact (object_ne answer).elim
    · exact (decline_ne answer).elim

/-- Where an operand stands before an operator and an operand, `Rule.operation` does not decline. -/
theorem applyOperation_ne_none {operator : Operator α} {a : α} {after : List α}
    (operand : isOperand view here = true) (read : takeOperator? view right = some operator)
    (behind : operator.after = a :: after) (operand' : isOperand view a = true) :
    applyOperation view ⟨left, here, right⟩ ≠ .ok none := by
  simp only [applyOperation, token?_of_isOperand operand, operand, read, behind, operand', if_true]
  exact fold_ne_none

/-- What is read as an operator does not depend on the first sibling behind it that is no leaf. -/
theorem takeOperator?_swap {mid rest : List α} {a b : α} {operator : Operator α}
    (plain : (view a).token? = none) (plain' : (view b).token? = none) (rest' : List α)
    (read : takeOperator? view (mid ++ a :: rest) = some operator) :
    ∃ between, operator.after = between ++ a :: rest ∧
      takeOperator? view (mid ++ b :: rest') =
        some ⟨operator.tokens, operator.last, between ++ b :: rest'⟩ := by
  have single {t : Token} {w : α} (more : List α)
      (read : takeOperator?.single t w (more ++ a :: rest) = some operator) :
      ∃ between, operator.after = between ++ a :: rest ∧
        takeOperator?.single t w (more ++ b :: rest') =
          some ⟨operator.tokens, operator.last, between ++ b :: rest'⟩ := by
    unfold takeOperator?.single at read ⊢
    split at read
    · next starts =>
      cases read
      exact ⟨more, rfl, if_pos starts⟩
    · cases read
  cases mid with
  | nil =>
    rw [List.nil_append] at read
    cases rest <;> simp [takeOperator?, plain] at read
  | cons w mid =>
    cases token : (view w).token? with
    | none => cases mid <;> simp [takeOperator?, token] at read
    | some t =>
      cases mid with
      | nil =>
        have alone {c : α} {more : List α} (plain : (view c).token? = none) :
            takeOperator? view (w :: c :: more) = takeOperator?.single t w (c :: more) := by
          simp only [takeOperator?, token, plain]
          split <;> first | rfl | contradiction
        rw [List.cons_append, List.nil_append, alone plain] at read
        rw [List.cons_append, List.nil_append, alone plain']
        exact single [] read
      | cons v mid =>
        simp only [List.cons_append, takeOperator?, token] at read ⊢
        split at read
        · split at read
          · next isNot =>
            cases read
            exact ⟨mid, rfl, if_pos isNot⟩
          · next other =>
            rw [if_neg other]
            exact single (v :: mid) read
        · split at read
          · next word =>
            cases read
            exact ⟨mid, rfl, if_pos word⟩
          · cases read
        · exact single (v :: mid) read

end Rule

namespace Row

variable {rule : Rule} {row row' : Row} {P : Bare → Prop}

/-- An operand, an operator behind it and the tree behind that stand to each other as `C` says. -/
def Joined (C : Bare → List Token → Bare → Prop) (row : Row) : Prop :=
  ∀ left here right, row = List.reverse left ++ here :: right → Rule.isOperand Tree.node here = true →
    ∀ operator a after, Rule.takeOperator? Tree.node right = some operator →
      operator.after = a :: after → C here operator.tokens a

/-- What stands between any two trees of a row stands around its operators. -/
theorem joined_of_forall {C : Bare → List Token → Bare → Prop}
    (all : ∀ t ∈ row, ∀ u ∈ row, ∀ ts, C t ts u) : Joined C row := by
  rintro left here right rfl _ operator a after read behind
  obtain ⟨_, _, front, rfl, _⟩ := Rule.takeOperator?_some read
  exact all here (by simp) a (by simp [behind]) _

/-- `Rule.operation` folds from left to right. So what stands around operators at first stands around
those that it folds, if it does not matter what the left operand starts with; and the right operand is
none of its own nodes. -/
theorem Rests.joined {C : Bare → List Token → Bare → Prop} (rests : Rests .operation row row')
    (grows : ∀ (o : Operation Bare) ts a, C o.right ts a → C (.mk () (.operation o)) ts a)
    (made : ∀ o : Operation Bare, C o.left o.operator o.right → P o.left → P o.right →
      P (.mk () (.operation o)))
    (joined : Joined C row) (all : ∀ t ∈ row, P t) : ∀ t ∈ row', P t := by
  refine (rests.keepsFirst (I := fun row => Joined C row ∧ ∀ t ∈ row, P t)
    (fun left here right fold before answer ⟨joined, all⟩ => ?_) ⟨joined, all⟩).2
  obtain ⟨operator, a, after, operand, read, behind, operand', rfl⟩ := Rule.applyOperation_fold answer
  obtain ⟨_, _, front, right_eq, _⟩ := Rule.takeOperator?_some read
  rw [behind] at right_eq
  have around := joined left here right rfl operand operator a after read behind
  have new : P (.mk () (.operation ⟨here, operator.tokens, a⟩)) :=
    made ⟨here, operator.tokens, a⟩ around (all here (by simp)) (all a (by simp [right_eq]))
  refine ⟨fun l h r split isOperand operator' y ys read' behind' => ?_, Rule.forall_row answer all new⟩
  have plain : (Tree.node (.mk () (.operation ⟨here, operator.tokens, a⟩))).token? = none := rfl
  cases place_of_split split with
  | before between front' r_eq =>
    -- A place before the fold saw its left operand there, and declined.
    rw [r_eq] at read'
    obtain ⟨mid, eq, read⟩ := Rule.takeOperator?_swap plain (Rule.token?_of_isOperand operand) right read'
    have whole : left.reverse ++ here :: right = l.reverse ++ h :: (between ++ here :: right) := by
      rw [show left.reverse = _ from front']
      simp
    cases mid with
    | nil =>
      refine absurd (before l h _ whole ?_) (Rule.applyOperation_ne_none isOperand read rfl operand)
      have lengths := congrArg List.length front'
      simp only [List.length_reverse, List.length_append, List.length_cons] at lengths
      omega
    | cons m mid =>
      obtain ⟨rfl, _⟩ := List.cons.inj (behind'.symm.trans eq)
      have stands := joined l h _ whole isOperand _ y _ read rfl
      exact stands
  | here front' h_eq =>
    obtain ⟨_, rfl⟩ := List.cons.inj (List.append_cancel_left (front' ▸ split))
    subst h_eq
    refine grows ⟨here, operator.tokens, a⟩ _ _ ?_
    exact joined (front.reverse ++ here :: left) a after (by simp [right_eq]) operand' _ y ys read' behind'
  | behind between rear _ =>
    have rear : after = between.reverse ++ h :: r := rear
    refine joined (between ++ a :: (front.reverse ++ here :: left)) h r ?_ isOperand _ y ys read' behind'
    rw [right_eq, rear]
    simp

/-! ## Chains -/

/-- Whether a tree is a word that joins operands. -/
def isWord (t : Bare) : Bool := (Rule.leafOf? Tree.node Rule.joinsOperands t).isSome

/-- No conjunction stands beside a word that joins operands. -/
def Flat (before : Option Bare) (t : Bare) : Prop :=
  (before.any isWord = true → t.kind ≠ .conjunction) ∧
    ((∃ u ∈ before, u.kind = .conjunction) → isWord t = false)

/-- The operands of a chain in which no conjunction stands beside a word. -/
theorem takeJuncts_flat {as after : Row} {juncts : List (Junct (Origin Bare))} {previous : Option Bare}
    (read : Rule.takeJuncts Tree.node as = .ok (juncts, after)) (flat : Chained Flat previous as) :
    (∀ j ∈ juncts, ∃ a ∈ as, j.expression = .sibling a ∧ a.kind ≠ .conjunction) ∧
      ∀ w ∈ after.head?, isWord w = false := by
  induction as using Rule.takeJuncts.induct Tree.node generalizing juncts previous with
  | case1 =>
    cases read
    exact ⟨by simp, by simp⟩
  | case2 word noWord =>
    simp only [Rule.takeJuncts, noWord] at read
    cases read
    exact ⟨by simp, by simp [isWord, noWord]⟩
  | case3 word t isWord =>
    simp only [Rule.takeJuncts, isWord] at read
    exact (Rule.object_ne read).elim
  | case4 word a rest noWord =>
    simp only [Rule.takeJuncts, noWord] at read
    cases read
    exact ⟨by simp, by simp [isWord, noWord]⟩
  | case5 word a rest operator isOperator operand ih =>
    simp only [Rule.takeJuncts, isOperator, operand, if_true] at read
    obtain ⟨⟨juncts', rest'⟩, read', done⟩ := Rule.bind_eq_ok read
    cases done
    obtain ⟨_, here, behind⟩ := flat
    obtain ⟨others, ends⟩ := ih read' behind
    refine ⟨List.forall_mem_cons.mpr ⟨⟨a, by simp, rfl, here.1 ?_⟩, fun j mem => ?_⟩, ends⟩
    · simp [isWord, isOperator]
    · obtain ⟨b, listed, shown⟩ := others j mem
      exact ⟨b, by simp [listed], shown⟩
  | case6 word a rest operator isWord notOperand =>
    simp only [Rule.takeJuncts, isWord, notOperand] at read
    exact (Rule.object_ne read).elim

/-- A chain starts with a word. -/
theorem takeJuncts_word {as after : Row} {second : Junct (Origin Bare)} {rest : List (Junct (Origin Bare))}
    (read : Rule.takeJuncts Tree.node as = .ok (second :: rest, after)) :
    ∃ w as', as = w :: as' ∧ isWord w = true := by
  unfold Rule.takeJuncts at read
  split at read
  · cases read
  · next word =>
    split at read
    · cases read
    · next isOperator => exact ⟨word, [], rfl, by simp [isWord, isOperator]⟩
  · next word a as =>
    split at read
    · cases read
    · next isOperator => exact ⟨word, a :: as, rfl, by simp [isWord, isOperator]⟩

end Row

/-- What `Rule.conjunction` folds. -/
theorem Rule.applyConjunction_fold {α : Type} {view : α → Node α} {left right : List α} {here : α}
    {fold : Fold α} (answer : applyConjunction view ⟨left, here, right⟩ = .ok (some fold)) :
    ∃ second rest after, isOperand view here = true ∧ takeJuncts view right = .ok (second :: rest, after) ∧
      fold = ⟨left, .conjunction ⟨⟨none, .sibling here⟩, second, rest⟩, after⟩ := by
  unfold applyConjunction at answer
  split at answer
  · split at answer
    · exact (object_ne answer).elim
    · exact (decline_ne answer).elim
  · split at answer
    · next operand =>
      obtain ⟨⟨juncts, after⟩, read, answer⟩ := bind_eq_ok answer
      cases juncts with
      | nil => exact (decline_ne answer).elim
      | cons second rest => exact ⟨second, rest, after, operand, read, fold_eq_ok answer⟩
    · exact (decline_ne answer).elim

namespace Row

variable {row row' : Row} {P : Bare → Prop}

/-- In a row without conjunctions none stands beside a word. -/
theorem chained_of_kinds (fresh : ∀ t ∈ row, t.kind ≠ .conjunction) (previous : Option Bare)
    (known : ∀ u ∈ previous, u.kind ≠ .conjunction) : Chained Flat previous row := by
  induction row generalizing previous with
  | nil => trivial
  | cons t row ih =>
    obtain ⟨here, behind⟩ := List.forall_mem_cons.mp fresh
    refine ⟨⟨fun _ => here, fun ⟨u, mem, kind⟩ => absurd kind (known u mem)⟩, ih behind _ ?_⟩
    rintro _ ⟨⟩
    exact here

/-- `Rule.conjunction` takes whole chains, so none of its nodes is an operand of another. -/
theorem Rests.flat (rests : Rests .conjunction row row')
    (made : ∀ c : Conjunction Bare, (∀ j ∈ c.parts, j.expression.kind ≠ .conjunction) →
      (∀ j ∈ c.parts, P j.expression) → P (.mk () (.conjunction c)))
    (fresh : ∀ t ∈ row, t.kind ≠ .conjunction) (all : ∀ t ∈ row, P t) : ∀ t ∈ row', P t := by
  have flat : Chained Flat none row := chained_of_kinds fresh none nofun
  refine (rests.keepsFirst (I := fun row => Chained Flat none row ∧ ∀ t ∈ row, P t)
    (fun left here right fold before answer ⟨flat, all⟩ => ?_) ⟨flat, all⟩).2
  obtain ⟨second, rest, after, operand, read, rfl⟩ := Rule.applyConjunction_fold answer
  obtain ⟨others, ends⟩ := takeJuncts_flat read flat.behind
  have kind := Rule.kind_tree answer
  have notWord : isWord (Fold.tree ⟨left, .conjunction ⟨⟨none, .sibling here⟩, second, rest⟩, after⟩) = false := rfl
  -- What stands before a word has no operand behind it, or it would have been folded before.
  have first : left.head?.any isWord = false := by
    by_contra some
    obtain ⟨w, left', rfl, word⟩ := Rule.head?_any (Bool.eq_true_of_not_eq_false some)
    obtain ⟨t, shown⟩ := Option.isSome_iff_exists.mp word
    obtain ⟨shown, joins⟩ := Rule.leafOf?_eq_some.mp shown
    have declined := before left' w (here :: right) (by simp) (by simp)
    obtain ⟨a, before', rfl, folds⟩ := Rule.conjunction_ne_none shown joins declined
    exact folds (before before' a (w :: here :: right) (by simp) (by simp only [List.length_cons]; omega))
  refine ⟨Rule.chained_row answer flat ⟨fun word => ?_, fun _ => notWord⟩ fun u next => ⟨?_, fun _ => ends u next⟩,
    Rule.forall_row answer all ?_⟩
  · cases first.symm.trans word
  · intro word
    cases notWord.symm.trans word
  · -- Every operand stood beside a word.
    have operands : ∀ j ∈ (Junct.mk none (.sibling here) : Junct (Origin Bare)) :: second :: rest,
        ∃ a ∈ left.reverse ++ here :: right, j.expression = .sibling a ∧ a.kind ≠ .conjunction := by
      refine List.forall_mem_cons.mpr ⟨⟨here, by simp, rfl, fun conjunction => ?_⟩, fun j mem => ?_⟩
      · obtain ⟨w, right', rfl, word⟩ := takeJuncts_word read
        obtain ⟨_, beside⟩ := flat.behind.1
        exact absurd word (by rw [beside ⟨here, rfl, conjunction⟩]; exact nofun)
      · obtain ⟨a, listed, shown⟩ := others j mem
        exact ⟨a, by simp [listed], shown⟩
    have parts : ∀ j ∈ ((Junct.mk none (.sibling here) : Junct (Origin Bare)) :: second :: rest).map
        (Junct.map (Origin.bare id)), j.expression.kind ≠ .conjunction ∧ P j.expression := by
      refine List.forall_mem_map.mpr fun j mem => ?_
      obtain ⟨a, listed, shown, kind⟩ := operands j mem
      rw [Junct.map, shown]
      exact ⟨kind, all a listed⟩
    exact made ⟨⟨none, here⟩, second.map (Origin.bare id), rest.map (Junct.map (Origin.bare id))⟩
      (fun j mem => (parts j mem).1) fun j mem => (parts j mem).2

end Row

end SqlFold
