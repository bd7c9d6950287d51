import SqlFold.Proofs.Rows.Brackets
import SqlFold.Proofs.Rows.Made

/-!
# Runs that succeed, phase by phase

What a run with all rules makes of a row, if it succeeds, can be said without sweeps:

* `Row.Grouped`: every bracketed span becomes a branch with its content parsed, from left to right;
* `Row.Rests`: another rule folds at the first place where it does not decline, until there is none;
* `Row.Parses`: the brackets first, then the other rules in turn.

A rule runs to its end within a limit on sweeps exactly if it comes to rest with fewer folds
(`Row.fixpoint_idle_iff`, `Row.fixpoint_of_grouped`, `Row.run_ok_iff`).
-/

namespace SqlFold.Row

variable {rule : Rule} {folding : Folding} {depth : Nat} {S T : Row → Row → Prop}

/-! ## Phases -/

/-- A rule declines at all places of a row. -/
def Declined (rule : Rule) (row : Row) : Prop :=
  ∀ l h r, row = l.reverse ++ h :: r → rule.apply Tree.node ⟨l, h, r⟩ = .ok none

/-- A rule declines at the first places of a row. -/
def DeclinedBefore (rule : Rule) (n : Nat) (row : Row) : Prop :=
  ∀ l h r, row = l.reverse ++ h :: r → l.length < n → rule.apply Tree.node ⟨l, h, r⟩ = .ok none

/-- A rule comes to rest with the second row. -/
inductive Rests (rule : Rule) : Row → Row → Prop
  | rest {row : Row} : Declined rule row → Rests rule row row
  | fold {left right row : Row} {here : Bare} {fold : Fold Bare} :
      DeclinedBefore rule left.length (left.reverse ++ here :: right) →
        rule.apply Tree.node ⟨left, here, right⟩ = .ok (some fold) → Rests rule fold.row row →
          Rests rule (left.reverse ++ here :: right) row

/-- Rules come to rest with the second row, one after the other. -/
inductive RestsAll : List Rule → Row → Row → Prop
  | nil {row : Row} : RestsAll [] row row
  | cons {rule : Rule} {rules : List Rule} {row row' row'' : Row} :
      Rests rule row row' → RestsAll rules row' row'' → RestsAll (rule :: rules) row row''

/-- Whether a tree is a closing bracket. -/
def closes (t : Bare) : Bool := Rule.leafIs Tree.node .bracketClose t

/-- The branch that a span of brackets becomes. -/
def span (opening closing : Token) (content : Row) : Bare := .mk () (.bracket ⟨opening, closing, content⟩)

/-- The number of branches in a row. -/
def branches (row : Row) : Nat := row.countP fun t => t.node.isBranch

theorem branches_plain {t : Bare} (plain : t.node.isBranch = false) (row : Row) :
    branches (t :: row) = branches row := by
  rw [branches, List.countP_cons, plain]
  rfl

@[simp] theorem branches_span (opening closing : Token) (content row : Row) :
    branches (span opening closing content :: row) = branches row + 1 := List.countP_cons

/-- The brackets of a row become branches, behind `previous`. The content of each is changed as `S`
says and must be a list of expressions then. -/
inductive Grouped (S : Row → Row → Prop) : (previous : Option Bare) → Row → Row → Prop
  | nil {previous : Option Bare} : Grouped S previous [] []
  | cons {previous : Option Bare} {t : Bare} {row row' : Row} : t.node.isBranch = false →
      opens t = false → closes t = false → Grouped S (some t) row row' →
        Grouped S previous (t :: row) (t :: row')
  | span {previous : Option Bare} {t : Bare} {opening closing : Token}
      {row inner content after row' : Row} :
      t.node = .leaf opening → opening.kind = .bracketOpen →
        Rule.splitAtClosing? Tree.node 0 row = some (inner, closing, after) → S inner content →
          Rule.checkContent Tree.node (span opening closing content) content
            (previous.any (Rule.leafIs Tree.node .symbol)) = .ok () →
              Grouped S (some (span opening closing content)) after row' →
                Grouped S previous (t :: row) (span opening closing content :: row')

/-- What all rules together make of a row of leaves. -/
inductive Parses : Row → Row → Prop
  | mk {row row' row'' : Row} : Grouped Parses none row row' →
      RestsAll Rule.standard.tail row' row'' → Parses row row''

/-! ## A rule comes to rest -/

theorem Rests.weight_le {row row' : Row} (rests : Rests rule row row') : row'.weight ≤ row.weight := by
  induction rests with
  | rest => exact Nat.le_refl _
  | fold _ answer _ ih => exact ih.trans (Nat.le_of_lt (Rule.weight_row_lt answer))

/-- A rule that comes to rest folds nothing for another rule. -/
theorem Rests.made_eq {row row' : Row} (rests : Rests rule row row') (other : rule ≠ .bracket)
    {rule' : Rule} (ne : rule ≠ rule') : row'.made rule' = row.made rule' := by
  induction rests with
  | rest => rfl
  | fold _ answer _ ih => rw [ih, Rule.made_row answer other, if_neg ne, Nat.add_zero]

/-- Every fold makes the row lighter and is seen no more than once. -/
theorem Rests.made_weight_le {row row' : Row} (rests : Rests rule row row') (other : rule ≠ .bracket)
    (rule' : Rule) : row'.made rule' + row'.weight ≤ row.made rule' + row.weight := by
  induction rests with
  | rest => exact Nat.le_refl _
  | fold _ answer _ ih =>
    have lighter := Rule.weight_row_lt answer
    have seen := Rule.made_row answer other rule'
    split at seen <;> omega

theorem Rests.made_le {row row' : Row} (rests : Rests rule row row') (other : rule ≠ .bracket) :
    row.made rule ≤ row'.made rule := by
  induction rests with
  | rest => exact Nat.le_refl _
  | fold _ answer _ ih =>
    rw [Rule.made_row answer other] at ih
    omega

/-- Two places at which a rule is the first not to decline are one. -/
theorem first_unique {l l' r r' : Row} {h h' : Bare} (split : l.reverse ++ h :: r = l'.reverse ++ h' :: r')
    (before : DeclinedBefore rule l.length (l.reverse ++ h :: r))
    (before' : DeclinedBefore rule l'.length (l'.reverse ++ h' :: r'))
    (answers : rule.apply Tree.node ⟨l, h, r⟩ ≠ .ok none)
    (answers' : rule.apply Tree.node ⟨l', h', r'⟩ ≠ .ok none) : l = l' ∧ h = h' ∧ r = r' := by
  have length : l.length = l'.length := by
    rcases Nat.lt_trichotomy l.length l'.length with lt | eq | gt
    · exact absurd (before' l h r split.symm lt) answers
    · exact eq
    · exact absurd (before l' h' r' split gt) answers'
  obtain ⟨lefts, rights⟩ := List.append_inj split (by simp [length])
  obtain ⟨rfl, rfl⟩ := List.cons.inj rights
  exact ⟨List.reverse_inj.mp lefts, rfl, rfl⟩

/-- A rule needs one more sweep than it makes folds. -/
theorem fixpoint_idle_iff (other : rule ≠ .bracket) {spent left : Nat} {row row' : Row} :
    fixpoint Visits.idle rule spent left row = .ok () row' ↔
      Rests rule row row' ∧ row'.made rule < row.made rule + left := by
  constructor
  · intro run
    induction left generalizing spent row with
    | zero => cases run
    | succ left ih =>
      have swept := sweep_idle rule row
      unfold fixpoint at run
      generalize first : sweep Visits.idle rule row = r at swept
      cases swept with
      | rest declined =>
        rw [bind_ok first] at run
        cases run
        exact ⟨.rest declined, by omega⟩
      | folded split declined answer =>
        rw [bind_ok first] at run
        obtain ⟨rests, few⟩ := ih run
        rw [Rule.made_row answer other, if_pos rfl, ← split] at few
        rw [split] at declined
        exact ⟨split ▸ .fold declined answer rests, by omega⟩
      | objected =>
        rw [bind_error first] at run
        cases run
  · rintro ⟨rests, few⟩
    induction rests generalizing spent left with
    | @rest row declined =>
      obtain ⟨left, rfl⟩ := Nat.exists_eq_succ_of_ne_zero (n := left) (by omega)
      have swept := sweep_idle rule row
      unfold fixpoint
      generalize first : sweep Visits.idle rule row = r at swept
      cases swept with
      | rest =>
        rw [bind_ok first]
        rfl
      | folded split _ answer => cases (declined _ _ _ split).symm.trans answer
      | objected split _ answer => cases (declined _ _ _ split).symm.trans answer
    | @fold l r row h fold before answer rests ih =>
      have seen := Rule.made_row answer other rule
      rw [if_pos rfl] at seen
      have more := rests.made_le other
      obtain ⟨left, rfl⟩ := Nat.exists_eq_succ_of_ne_zero (n := left) (by omega)
      have swept := sweep_idle rule (l.reverse ++ h :: r)
      have folds : rule.apply Tree.node ⟨l, h, r⟩ ≠ .ok none := by
        rw [answer]
        rintro ⟨⟩
      unfold fixpoint
      generalize first : sweep Visits.idle rule (l.reverse ++ h :: r) = r' at swept
      cases swept with
      | rest declined => exact absurd (declined l h r rfl) folds
      | folded split before' answer' =>
        obtain ⟨rfl, rfl, rfl⟩ := first_unique split before (split ▸ before') folds (by rw [answer']; rintro ⟨⟩)
        cases answer.symm.trans answer'
        rw [bind_ok first]
        exact ih (by omega)
      | objected split before' answer' =>
        obtain ⟨rfl, rfl, rfl⟩ := first_unique split before (split ▸ before') folds (by rw [answer']; rintro ⟨⟩)
        cases answer.symm.trans answer'

/-! ## Brackets -/

/-- `Rule.bracket` declines at a tree behind `previous`. -/
def Passes (previous : Option Bare) (t : Bare) : Prop :=
  ∀ left right, left.head? = previous → Rule.applyBracket Tree.node ⟨left, t, right⟩ = .ok none

theorem passes_of_plain {t : Bare} (plain : t.node.isBranch = false) (opened : opens t = false)
    (closed : closes t = false) (previous : Option Bare) : Passes previous t := by
  intro left right _
  unfold Rule.applyBracket
  cases node : t.node with
  | leaf token =>
    have notOpen : token.kind ≠ .bracketOpen := fun kind =>
      absurd (Rule.leafIs_iff.mpr ⟨token, node, kind⟩) (by rw [← opens, opened]; exact Bool.false_ne_true)
    have notClose : token.kind ≠ .bracketClose := fun kind =>
      absurd (Rule.leafIs_iff.mpr ⟨token, node, kind⟩) (by rw [← closes, closed]; exact Bool.false_ne_true)
    simp only [if_neg notOpen, if_neg notClose]
    rfl
  | bracket =>
    rw [node] at plain
    cases plain
  | _ => rfl

theorem passes_span {opening closing : Token} {content : Row} {previous : Option Bare} :
    Passes previous (span opening closing content) ↔
      Rule.checkContent Tree.node (span opening closing content) content
        (previous.any (Rule.leafIs Tree.node .symbol)) = .ok () := by
  constructor
  · intro passes
    have declined := passes previous.toList [] (by cases previous <;> rfl)
    have checked := (applyBracket_eq_none (p := ⟨opening, closing, content⟩) rfl).mp declined
    cases previous <;> exact checked
  · intro checked left right before
    refine (applyBracket_eq_none (p := ⟨opening, closing, content⟩) rfl).mpr ?_
    rwa [before]

/-- A sweep passes the trees at which its rule declines. -/
theorem sweepFrom_passed {visits : Visits} (idle : ∀ t, visits.passed t = .ok () t) {previous : Option Bare}
    {front : Row} (passes : Chained Passes previous front) (left back : Row)
    (before : left.head? = previous) :
    sweepFrom visits .bracket left (front ++ back) =
      sweepFrom visits .bracket (front.reverse ++ left) back := by
  induction front generalizing previous left with
  | nil => rfl
  | cons t front ih =>
    obtain ⟨here, rest⟩ := passes
    have declined : Rule.apply Tree.node .bracket ⟨left, t, front ++ back⟩ = .ok none :=
      here left _ before
    rw [List.cons_append, sweepFrom, declined]
    simp only [idle]
    rw [ih rest (t :: left) rfl]
    simp

section Brackets

variable {settle : Step Unit}

/-- A fold of a span settles its content. -/
theorem changeAt_span (left after inner : Row) (opening closing : Token) :
    changeAt left.length ((visitsBy false settle).after left.length
        ⟨left, .bracket ⟨opening, closing, inner.map .sibling⟩, after⟩)
      (Fold.row ⟨left, .bracket ⟨opening, closing, inner.map .sibling⟩, after⟩) =
      match settle inner with
      | .ok () content => .ok () (left.reverse ++ span opening closing content :: after)
      | .error e content => .error e (left.reverse ++ span opening closing content :: after) := by
  have new : Fold.tree ⟨left, .bracket ⟨opening, closing, inner.map .sibling⟩, after⟩ =
      span opening closing inner := by
    simp [Fold.tree, span, Node.map, Origin.bare, Function.comp_def]
  have found : (left.reverse ++ span opening closing inner :: after)[left.length]? =
      some (span opening closing inner) := by
    rw [List.getElem?_append_right (by simp)]
    simp
  have set (content : Row) : (left.reverse ++ span opening closing inner :: after).set left.length
      (span opening closing content) = left.reverse ++ span opening closing content :: after := by
    rw [List.set_append_right _ _ (by simp)]
    simp
  have inside : inside settle (span opening closing inner) =
      match settle inner with
      | .ok () content => .ok () (span opening closing content)
      | .error e content => .error e (span opening closing content) := rfl
  unfold changeAt Visits.after visitsBy
  rw [Fold.row, new, found]
  simp only [if_true, inside]
  cases settle inner <;> simp only [set]

/-- The fixpoint of `Rule.bracket` behind trees that it passes. -/
theorem fixpoint_passed {front : Row} (passes : Chained Passes none front) (back : Row)
    (spent left : Nat) :
    fixpoint (visitsBy false settle) .bracket spent (left + 1) (front ++ back) =
      match sweepFrom (visitsBy false settle) .bracket front.reverse back with
      | .ok true row => fixpoint (visitsBy false settle) .bracket (spent + 1) left row
      | .ok false row => .ok () row
      | .error e row => .error e row := by
  have swept : sweep (visitsBy false settle) .bracket (front ++ back) =
      sweepFrom (visitsBy false settle) .bracket front.reverse back := by
    have passed : sweepFrom (visitsBy false settle) .bracket [] (front ++ back) =
        sweepFrom (visitsBy false settle) .bracket (front.reverse ++ []) back :=
      sweepFrom_passed (fun _ => rfl) passes [] back rfl
    rwa [List.append_nil] at passed
  rw [fixpoint, ← swept]
  generalize run : sweep (visitsBy false settle) .bracket (front ++ back) = r
  cases r with
  | ok folded row =>
    rw [bind_ok run]
    cases folded <;> rfl
  | error e row => rw [bind_error run]

/-- At an opening bracket the span is folded and its content settled. -/
theorem sweepFrom_opening {left right : Row} {t : Bare} {opening : Token} (node : t.node = .leaf opening)
    (kind : opening.kind = .bracketOpen) :
    sweepFrom (visitsBy false settle) .bracket left (t :: right) =
      match Rule.splitAtClosing? Tree.node 0 right with
      | some (inner, closing, after) =>
        match settle inner with
        | .ok () content => .ok true (left.reverse ++ span opening closing content :: after)
        | .error e content => .error e (left.reverse ++ span opening closing content :: after)
      | none => .error (.objected ⟨t, .unclosedBracket⟩) (left.reverse ++ t :: right) := by
  have answer : Rule.apply Tree.node .bracket ⟨left, t, right⟩ =
      match Rule.splitAtClosing? Tree.node 0 right with
      | some (inner, closing, after) =>
        .ok (some ⟨left, .bracket ⟨opening, closing, inner.map .sibling⟩, after⟩)
      | none => .error ⟨t, .unclosedBracket⟩ := by
    simp only [Rule.apply, Rule.applyBracket, node, if_pos kind]
    cases Rule.splitAtClosing? Tree.node 0 right <;> rfl
  unfold sweepFrom
  rw [answer]
  cases Rule.splitAtClosing? Tree.node 0 right with
  | none => rfl
  | some s =>
    obtain ⟨inner, closing, after⟩ := s
    simp only [changeAt_span]
    cases settle inner <;> rfl

/-- A sweep that succeeds passes what is no opening bracket. -/
theorem passes_of_swept {left right row : Row} {t : Bare} {folded : Bool} (opened : opens t = false)
    (run : sweepFrom (visitsBy false settle) .bracket left (t :: right) = .ok folded row) :
    Passes left.head? t := by
  unfold sweepFrom at run
  cases answer : Rule.apply Tree.node .bracket ⟨left, t, right⟩ with
  | error o =>
    rw [answer] at run
    cases run
  | ok fold? =>
    cases fold? with
    | some fold =>
      obtain ⟨opening, _, _, _, node, kind, _⟩ := Rule.applyBracket_fold answer
      rw [opens, Rule.leafIs_iff.mpr ⟨opening, node, kind⟩] at opened
      cases opened
    | none =>
      intro left' right' before
      rw [← answer]
      unfold Rule.apply Rule.applyBracket
      dsimp only
      rw [before]
      cases node : t.node with
      | leaf token =>
        have notOpen : token.kind ≠ .bracketOpen := fun kind => by
          rw [opens, Rule.leafIs_iff.mpr ⟨token, node, kind⟩] at opened
          cases opened
        simp only [if_neg notOpen]
      | _ => rfl

/-- Where the rule passes a tree there is no closing bracket. -/
theorem Passes.closes {previous : Option Bare} {t : Bare} (passes : Passes previous t) :
    closes t = false := by
  by_contra isClose
  obtain ⟨token, node, kind⟩ := Rule.leafIs_iff.mp (Bool.eq_true_of_not_eq_false isClose)
  have declined := passes previous.toList [] (by cases previous <;> rfl)
  unfold Rule.applyBracket at declined
  simp only [node, kind] at declined
  cases declined

/-- Where the fixpoint of `Rule.bracket` succeeds the brackets are grouped, one in each sweep. -/
theorem grouped_of_fixpoint {spent left : Nat} {front back row : Row}
    (passes : Chained Passes none front) (plain : Plain back)
    (run : fixpoint (visitsBy false settle) .bracket spent left (front ++ back) = .ok () row) :
    ∃ back', row = front ++ back' ∧
      Grouped (fun inner content => settle inner = .ok () content) front.getLast? back back' ∧
        back'.branches < left := by
  induction left generalizing spent front back with
  | zero => cases run
  | succ left ih =>
    induction back generalizing front with
    | nil =>
      rw [fixpoint_passed passes] at run
      cases run
      exact ⟨[], by simp, .nil, Nat.succ_pos _⟩
    | cons t right ihRight =>
      obtain ⟨plainHere, plainRight⟩ := List.forall_mem_cons.mp plain
      cases opened : opens t with
      | true =>
        obtain ⟨opening, node, kind⟩ := Rule.leafIs_iff.mp opened
        rw [fixpoint_passed passes, sweepFrom_opening node kind] at run
        cases split : Rule.splitAtClosing? Tree.node 0 right with
        | none =>
          rw [split] at run
          cases run
        | some s =>
          obtain ⟨inner, closing, after⟩ := s
          rw [split] at run
          cases settled : settle inner with
          | error e content =>
            simp only [settled] at run
            cases run
          | ok u content =>
            simp only [settled, List.reverse_reverse] at run
            -- The next sweep comes to the new branch and has to pass it.
            have checked : Passes front.getLast? (span opening closing content) := by
              cases left with
              | zero => cases run
              | succ left =>
                rw [fixpoint_passed passes] at run
                generalize swept : sweepFrom (visitsBy false settle) .bracket front.reverse
                  (span opening closing content :: after) = r at run
                cases r with
                | ok folded row' =>
                  rw [← List.head?_reverse]
                  exact passes_of_swept rfl swept
                | error e row' => cases run
            have plainAfter : Plain after := by
              obtain ⟨last, eq, _⟩ := Rule.splitAtClosing?_some split
              exact fun u mem => plainRight u (by simp [eq, mem])
            rw [show front ++ span opening closing content :: after =
              (front ++ [span opening closing content]) ++ after by simp] at run
            obtain ⟨after', rfl, grouped, few⟩ := ih (passes.snoc checked) plainAfter run
            rw [List.getLast?_append] at grouped
            refine ⟨span opening closing content :: after', by simp,
              .span node kind split settled (passes_span.mp checked) grouped, ?_⟩
            rw [branches_span]
            omega
      | false =>
        have passesHere : Passes front.getLast? t := by
          rw [fixpoint_passed passes] at run
          generalize swept : sweepFrom (visitsBy false settle) .bracket front.reverse (t :: right) = r
            at run
          cases r with
          | ok folded row' =>
            rw [← List.head?_reverse]
            exact passes_of_swept opened swept
          | error e row' => cases run
        rw [show front ++ t :: right = (front ++ [t]) ++ right by simp] at run
        obtain ⟨right', rfl, grouped, few⟩ := ihRight (passes.snoc passesHere) plainRight run
        rw [List.getLast?_append] at grouped
        refine ⟨t :: right', by simp, .cons plainHere opened passesHere.closes grouped, ?_⟩
        rwa [branches_plain plainHere]

/-- Where the brackets can be grouped the fixpoint of `Rule.bracket` groups them. -/
theorem fixpoint_of_grouped {front back back' : Row}
    (grouped : Grouped (fun inner content => settle inner = .ok () content) front.getLast? back back')
    (passes : Chained Passes none front) {spent left : Nat} (enough : back'.branches < left) :
    fixpoint (visitsBy false settle) .bracket spent left (front ++ back) = .ok () (front ++ back') := by
  generalize last : front.getLast? = previous at grouped
  induction grouped generalizing front spent left with
  | nil =>
    obtain ⟨left, rfl⟩ := Nat.exists_eq_succ_of_ne_zero (n := left) (by omega)
    rw [fixpoint_passed passes, sweepFrom, List.reverse_reverse, List.append_nil]
  | @cons previous t row row' plain opened closed _ ih =>
    rw [branches_plain plain] at enough
    have passesHere := passes_of_plain plain opened closed front.getLast?
    rw [List.append_cons, List.append_cons front t row']
    exact ih (passes.snoc passesHere) enough (by simp)
  | @span previous t opening closing row inner content after row' node kind split settled checked _ ih =>
    rw [branches_span] at enough
    obtain ⟨left, rfl⟩ := Nat.exists_eq_succ_of_ne_zero (n := left) (by omega)
    rw [fixpoint_passed passes, sweepFrom_opening node kind, split]
    simp only [settled, List.reverse_reverse]
    have passesHere : Passes front.getLast? (span opening closing content) := by
      rw [last]
      exact passes_span.mpr checked
    rw [List.append_cons, List.append_cons front (span opening closing content) row']
    exact ih (passes.snoc passesHere) (by omega) (by simp)

end Brackets

/-- A weaker demand on the content of the brackets. -/
theorem Grouped.imp {previous : Option Bare} {row row' : Row} (grouped : Grouped S previous row row')
    (weaker : ∀ opening closing (inner content : Row), inner ⊆ row → inner.weight < row.weight →
      Row.span opening closing content ∈ row' → S inner content → T inner content) :
    Grouped T previous row row' := by
  induction grouped with
  | nil => exact .nil
  | cons plain opened closed _ ih =>
    rw [weight_cons] at weaker
    refine .cons plain opened closed (ih fun opening closing inner content within lt mem => ?_)
    exact weaker opening closing inner content (List.subset_cons_of_subset _ within) (by omega)
      (List.mem_cons_of_mem _ mem)
  | @span previous t opening closing row inner content after row' node kind split settled checked _ ih =>
    obtain ⟨last, rfl, _⟩ := Rule.splitAtClosing?_some split
    have bracket := Rule.weight_leaf (Rule.kind_of_leaf node)
    rw [weight_cons, weight_append, weight_cons, bracket] at weaker
    refine .span node kind split (weaker opening closing inner content (fun u mem => ?_) (by omega)
      List.mem_cons_self settled) checked (ih fun opening closing inner content within lt mem => ?_)
    · simp [mem]
    · refine weaker opening closing inner content (fun u here => ?_) (by omega)
        (List.mem_cons_of_mem _ mem)
      simp [within here]

/-- Grouping brackets does not make a row heavier, if settling the content does not. -/
theorem Grouped.weight_le {previous : Option Bare} {row row' : Row}
    (grouped : Grouped S previous row row')
    (lighter : ∀ inner content, S inner content → content.weight ≤ inner.weight) :
    row'.weight ≤ row.weight := by
  induction grouped with
  | nil => exact Nat.le_refl _
  | cons _ _ _ _ ih =>
    simp only [weight_cons]
    omega
  | @span _ t opening closing _ inner content after row' node _ split inside _ _ ih =>
    obtain ⟨last, rfl, closes, _⟩ := Rule.splitAtClosing?_some split
    have bracket := Rule.weight_leaf (Rule.kind_of_leaf node)
    have bracket' := Rule.weight_leaf (Rule.kind_of_leaf closes)
    have new : (Row.span opening closing content).weight = content.weight + 1 := Tree.weight_of_branch? rfl
    have content := lighter _ _ inside
    simp only [weight_cons, weight_append]
    omega

/-- Every branch was made of a bracket at least. -/
theorem Grouped.branches_le {previous : Option Bare} {row row' : Row}
    (grouped : Grouped S previous row row') : row'.branches ≤ row.weight := by
  induction grouped with
  | nil => exact Nat.le_refl _
  | cons plain _ _ _ ih =>
    rw [branches_plain plain, weight_cons]
    exact Nat.le_add_left_of_le ih
  | span node _ split _ _ _ ih =>
    obtain ⟨_, rfl, _⟩ := Rule.splitAtClosing?_some split
    rw [branches_span, weight_cons, weight_append, weight_cons,
      Rule.weight_leaf (Rule.kind_of_leaf node)]
    omega

/-! ## All rules -/

theorem RestsAll.made_eq {rules : List Rule} {row row' : Row} (rests : RestsAll rules row row')
    (others : Rule.bracket ∉ rules) (absent : rule ∉ rules) : row'.made rule = row.made rule := by
  induction rests with
  | nil => rfl
  | cons first _ ih =>
    rw [List.mem_cons, not_or] at others absent
    rw [ih others.2 absent.2, first.made_eq (Ne.symm others.1) (Ne.symm absent.1)]

theorem RestsAll.made_weight_le {rules : List Rule} {row row' : Row} (rests : RestsAll rules row row')
    (others : Rule.bracket ∉ rules) (rule : Rule) :
    row'.made rule + row'.weight ≤ row.made rule + row.weight := by
  induction rests with
  | nil => exact Nat.le_refl _
  | cons first _ ih =>
    rw [List.mem_cons, not_or] at others
    exact (ih others.2).trans (first.made_weight_le (Ne.symm others.1) rule)

/-- Rules that come to rest within the limit run to their ends, and the rules behind them go on from there. -/
theorem run_append (limit : 0 < folding.sweepLimit) {rules : List Rule} (others : Rule.bracket ∉ rules)
    (once : rules.Nodup) {row row' : Row} (rested : Rested row) (rests : RestsAll rules row row')
    (few : ∀ rule ∈ rules, row'.made rule < row.made rule + folding.sweepLimit) (later : List Rule) :
    Rested row' ∧
      ((rules ++ later).forM fun rule => fixpoint (visitsBy false (settle folding false depth)) rule 0
        folding.sweepLimit : Step Unit) row =
          (later.forM fun rule => fixpoint (visitsBy false (settle folding false depth)) rule 0
            folding.sweepLimit : Step Unit) row' := by
  induction rules generalizing row with
  | nil =>
    cases rests
    exact ⟨rested, rfl⟩
  | cons rule rules ih =>
    rw [List.mem_cons, not_or] at others
    rw [List.nodup_cons] at once
    obtain ⟨other, others⟩ := others
    obtain ⟨absent, once⟩ := once
    have other : rule ≠ .bracket := Ne.symm other
    obtain ⟨idle, rested'⟩ := fixpoint_rested false limit depth other 0 folding.sweepLimit rested
    obtain ⟨fewHere, fewLater⟩ := List.forall_mem_cons.mp few
    cases rests with
    | @cons _ _ _ between _ here behind =>
      rw [behind.made_eq others absent] at fewHere
      have first : fixpoint Visits.idle rule 0 folding.sweepLimit row = .ok () between :=
        (fixpoint_idle_iff other).mpr ⟨here, fewHere⟩
      show _ ∧ (fixpoint _ rule 0 folding.sweepLimit >>= fun _ => _ : Step Unit) row = _
      rw [bind_ok (idle.trans first)]
      refine ih others once (rested' between first) behind fun rule' mem => ?_
      rw [here.made_eq other (ne_of_mem_of_not_mem mem absent).symm]
      exact fewLater rule' mem

/-- Rules run to their ends where they come to rest within the limit. -/
theorem run_ok_iff (limit : 0 < folding.sweepLimit) {rules : List Rule} (others : Rule.bracket ∉ rules)
    (once : rules.Nodup) {row row' : Row} (rested : Rested row) :
    (rules.forM fun rule => fixpoint (visitsBy false (settle folding false depth)) rule 0
      folding.sweepLimit : Step Unit) row = .ok () row' ↔
        RestsAll rules row row' ∧
          ∀ rule ∈ rules, row'.made rule < row.made rule + folding.sweepLimit := by
  refine ⟨?_, fun ⟨rests, few⟩ => ?_⟩
  · induction rules generalizing row with
    | nil =>
      rintro ⟨⟩
      exact ⟨.nil, nofun⟩
    | cons rule rules ih =>
      intro run
      rw [List.mem_cons, not_or] at others
      rw [List.nodup_cons] at once
      obtain ⟨other, others⟩ := others
      obtain ⟨absent, once⟩ := once
      have other : rule ≠ .bracket := Ne.symm other
      obtain ⟨idle, rests⟩ := fixpoint_rested false limit depth other 0 folding.sweepLimit rested
      replace run : (fixpoint _ rule 0 folding.sweepLimit >>= fun _ => _ : Step Unit) row = _ := run
      generalize first : fixpoint Visits.idle rule 0 folding.sweepLimit row = r at idle rests
      cases r with
      | ok u between =>
        rw [bind_ok idle] at run
        obtain ⟨here, few⟩ := (fixpoint_idle_iff other).mp first
        obtain ⟨later, fewLater⟩ := ih others once (rests between rfl) run
        refine ⟨.cons here later, List.forall_mem_cons.mpr ⟨?_, fun rule' mem => ?_⟩⟩
        · rwa [later.made_eq others absent]
        · rw [← here.made_eq other (ne_of_mem_of_not_mem mem absent).symm]
          exact fewLater rule' mem
      | error e between =>
        rw [bind_error idle] at run
        cases run
  · obtain ⟨-, run⟩ := run_append limit others once rested rests few []
    rwa [List.append_nil] at run

end SqlFold.Row
