import SqlFold.Proofs.Rows.Calm

/-!
# Rows while brackets are folded

`Rule.bracket` folds the brackets of a row from left to right. Between its sweeps the row is
`Gathering`: behind the branches that were folded so far there is no branch yet. In the next sweep
the rule checks each of these branches before the sweep passes it, and what it has checked is calm. So
a run that goes over passed branches again does the same as one that does not (`Row.settle_again`).
-/

namespace SqlFold.Row

variable {folding : Folding} {depth : Nat}

/-- A tree inside which nothing is left to do once `Rule.bracket` has checked it. -/
def Pending (t : Bare) : Prop := Calm t ∨ ∃ p, t.node = .bracket p ∧ Rested p.children

/-- A row whose front has no opening bracket and whose back has no branch. -/
def Gathering (row : Row) : Prop :=
  ∃ front back, row = front ++ back ∧ (∀ t ∈ front, opens t = false ∧ Pending t) ∧ Plain back

theorem Rested.gathering {row : Row} (rested : Rested row) : Gathering row := by
  rcases rested with plain | closed
  · exact ⟨[], row, rfl, by simp, plain⟩
  · exact ⟨row, [], (List.append_nil _).symm, fun t mem => ⟨closed.opened t mem, .inl (closed.calm t mem)⟩,
      by simp [Plain]⟩

/-- A row without branches needs no checks. -/
theorem Plain.approved {row : Row} (plain : Plain row) {previous : Option Bare} :
    Chained Approved previous row := by
  induction row generalizing previous with
  | nil => trivial
  | cons t row ih =>
    obtain ⟨here, rest⟩ := List.forall_mem_cons.mp plain
    refine ⟨fun _ p shown => ?_, ih rest⟩
    rw [shown] at here
    cases here

/-- A tree that `Rule.bracket` declines at is calm and approved. -/
theorem Pending.checked {t : Bare} {left right : Row} (pending : Pending t)
    (declined : Rule.applyBracket Tree.node ⟨left, t, right⟩ = .ok none) :
    Calm t ∧ Approved left.head? t := by
  refine ⟨?_, fun _ p shown => (applyBracket_eq_none shown).mp declined⟩
  rcases pending with calm | ⟨p, shown, rested⟩
  · exact calm
  · exact calm_of_checked shown rested
      ((applyBracket_eq_none shown).mp declined)

/-- The run inside a new branch, in both kinds of runs. -/
abbrev SameInside (folding : Folding) (depth : Nat) : Prop :=
  ∀ row, Plain row → settle folding true depth row = settle folding false depth row ∧
    ∀ row', settle folding false depth row = .ok () row' → Rested row'

/-- `Rule.bracket` never declines at an opening bracket. -/
theorem opens_of_declined {left right : Row} {here : Bare}
    (declined : Rule.applyBracket Tree.node ⟨left, here, right⟩ = .ok none) : opens here = false := by
  by_contra isOpen
  obtain ⟨t, shown, kind⟩ := Rule.leafIs_iff.mp (Bool.eq_true_of_not_eq_false isOpen)
  unfold Rule.applyBracket at declined
  rw [shown] at declined
  dsimp only at declined
  rw [if_pos kind] at declined
  split at declined <;> cases declined

/-- The front of a gathering row is passed first, and only where it ends a bracket can open. -/
theorem Gathering.cases {here : Bare} {right : Row} (gathering : Gathering (here :: right)) :
    opens here = false ∧ Pending here ∧ Gathering right ∨
      here.node.isBranch = false ∧ Plain right := by
  obtain ⟨front, back, split, fronts, plain⟩ := gathering
  cases front with
  | nil =>
    rw [List.nil_append] at split
    subst split
    exact .inr (List.forall_mem_cons.mp plain)
  | cons t front =>
    obtain ⟨rfl, rfl⟩ := List.cons.inj split
    obtain ⟨⟨opened, pending⟩, rest⟩ := List.forall_mem_cons.mp fronts
    exact .inl ⟨opened, pending, front, back, rfl, rest, plain⟩

/-- A new branch is settled inside in the same way by both runs, and the row is gathering then. -/
theorem changeAt_bracket (same : SameInside folding depth) {left right : Row} {here : Bare}
    {fold : Fold Bare} (opened : ∀ t ∈ left, opens t = false) (calm : ∀ t ∈ left, Calm t)
    (gathering : Gathering (here :: right))
    (answer : Rule.applyBracket Tree.node ⟨left, here, right⟩ = .ok (some fold)) :
    changeAt left.length ((visitsBy true (settle folding true depth)).after left.length fold)
        fold.row =
      changeAt left.length ((visitsBy false (settle folding false depth)).after left.length fold)
        fold.row ∧
      ∀ row, changeAt left.length
        ((visitsBy false (settle folding false depth)).after left.length fold) fold.row = .ok () row →
          Gathering row := by
  obtain ⟨opening, closing, inner, last, shown, kind, _, split, _, eq⟩ :=
    Rule.applyBracket_fold answer
  dsimp only at shown split
  have isOpen : opens here = true := Rule.leafIs_iff.mpr ⟨opening, shown, kind⟩
  have plain : Plain right := by
    rcases gathering.cases with ⟨notOpen, _⟩ | ⟨_, plain⟩
    · rw [isOpen] at notOpen
      cases notOpen
    · exact plain
  rw [split] at plain
  have plainInner : Plain inner := fun t mem => plain t (by simp [mem])
  have plainAfter : Plain fold.right := fun t mem => plain t (by simp [mem])
  have left_eq : fold.left = left := by rw [eq]
  have node : fold.tree.node = .bracket ⟨opening, closing, inner⟩ := by
    rw [eq]
    simp [Fold.tree, Tree.node, Node.map, Origin.bare, Function.comp_def]
  have branch : fold.tree.node.branch? = some inner := by
    rw [node]
    rfl
  have found : fold.row[left.length]? = some fold.tree := by
    rw [Fold.row, left_eq, List.getElem?_append_right (by simp)]
    simp
  obtain ⟨same, rested⟩ := same inner plainInner
  unfold changeAt Visits.after visitsBy
  rw [found, left_eq]
  simp only [if_true, inside, branch, same, true_and]
  intro row eq
  generalize settle folding false depth inner = r at rested eq
  cases r with
  | error e row' => cases eq
  | ok u content =>
    cases eq
    refine ⟨left.reverse ++ [fold.tree.withRow content], fold.right, ?_, fun t mem => ?_, plainAfter⟩
    · rw [Fold.row, left_eq, List.set_append_right _ _ (by simp)]
      simp
    · rcases List.mem_append.mp mem with before | new
      · rw [List.mem_reverse] at before
        exact ⟨opened t before, .inl (calm t before)⟩
      · rw [List.mem_singleton] at new
        have node' : t.node = .bracket ⟨opening, closing, content⟩ := by
          rw [new, Tree.withRow, Tree.node, node]
          rfl
        refine ⟨?_, .inr ⟨_, node', rested content rfl⟩⟩
        rw [opens, Rule.leafIs, node']
        rfl

/-- A sweep of `Rule.bracket` does the same in both runs. Unless it folds it leaves the row closed. -/
theorem sweepFrom_bracket (limit : 0 < folding.sweepLimit) (same : SameInside folding depth)
    (left : Row) {right : Row} (opened : ∀ t ∈ left, opens t = false) (calm : ∀ t ∈ left, Calm t)
    (approved : Chained Approved none left.reverse) (gathering : Gathering right) :
    sweepFrom (visitsBy true (settle folding true depth)) .bracket left right =
        sweepFrom (visitsBy false (settle folding false depth)) .bracket left right ∧
      ∀ folded row, sweepFrom (visitsBy false (settle folding false depth)) .bracket left right =
        .ok folded row → if folded then Gathering row else Closed row := by
  induction right generalizing left with
  | nil =>
    unfold sweepFrom
    refine ⟨rfl, fun folded row eq => ?_⟩
    cases eq
    exact ⟨by simpa using opened, by simpa using calm, approved⟩
  | cons here right ih =>
    unfold sweepFrom
    cases answer : Rule.bracket.apply Tree.node ⟨left, here, right⟩ with
    | error o =>
      refine ⟨rfl, ?_⟩
      rintro _ _ ⟨⟩
    | ok fold? =>
      cases fold? with
      | some fold =>
        obtain ⟨same, gathers⟩ := changeAt_bracket same opened calm gathering answer
        simp only [same, true_and]
        intro folded row eq
        generalize changeAt left.length _ fold.row = r at gathers eq
        cases r with
        | error e row' => cases eq
        | ok =>
          cases eq
          exact gathers row rfl
      | none =>
        have checked : Calm here ∧ Approved left.head? here ∧ Gathering right := by
          rcases gathering.cases with ⟨_, pending, behind⟩ | ⟨plain, behind⟩
          · obtain ⟨calm, approved⟩ := pending.checked answer
            exact ⟨calm, approved, behind⟩
          · refine ⟨.plain plain, fun _ p shown => ?_, Rested.gathering (.inl behind)⟩
            rw [shown] at plain
            cases plain
        obtain ⟨calmHere, approvedHere, behind⟩ := checked
        simp only [calmHere.passed _ limit depth]
        refine ih (here :: left) ?_ ?_ ?_ behind
        · exact List.forall_mem_cons.mpr ⟨opens_of_declined answer, opened⟩
        · exact List.forall_mem_cons.mpr ⟨calmHere, calm⟩
        · rw [List.reverse_cons]
          refine chained_append.mpr ⟨approved, ?_, trivial⟩
          rwa [List.getLast?_reverse, Option.or_none]

/-- `Rule.bracket` does the same in both runs and leaves the row closed. -/
theorem fixpoint_bracket (limit : 0 < folding.sweepLimit) (same : SameInside folding depth)
    (spent left : Nat) {row : Row} (gathering : Gathering row) :
    fixpoint (visitsBy true (settle folding true depth)) .bracket spent left row =
        fixpoint (visitsBy false (settle folding false depth)) .bracket spent left row ∧
      ∀ row', fixpoint (visitsBy false (settle folding false depth)) .bracket spent left row =
        .ok () row' → Closed row' := by
  induction left generalizing spent row with
  | zero =>
    unfold fixpoint
    refine ⟨rfl, ?_⟩
    rintro _ ⟨⟩
  | succ left ih =>
    obtain ⟨swept, leaves⟩ := sweepFrom_bracket limit same [] (by simp) (by simp) trivial
      gathering
    replace swept : sweep (visitsBy true (settle folding true depth)) .bracket row =
      sweep (visitsBy false (settle folding false depth)) .bracket row := swept
    unfold fixpoint
    generalize run : sweep (visitsBy false (settle folding false depth)) .bracket row = r at swept
    replace leaves : ∀ folded row', r = .ok folded row' →
        if folded then Gathering row' else Closed row' := by
      rw [← run]
      exact leaves
    cases r with
    | error e row' =>
      rw [bind_error run, bind_error swept]
      refine ⟨rfl, ?_⟩
      rintro _ ⟨⟩
    | ok folded row' =>
      rw [bind_ok run, bind_ok swept]
      have left := leaves folded row' rfl
      -- The choice is made first: otherwise the two runs are unfolded and compared in the branch not taken.
      cases folded with
      | true =>
        simp only [if_true]
        exact ih (spent + 1) left
      | false =>
        simp only [Bool.false_eq_true, if_false, true_and]
        intro row'' eq
        cases eq
        exact left

/-- A run that goes over passed branches again does the same as one that does not. -/
theorem settle_plain (limit : 0 < folding.sweepLimit) (depth : Nat) : SameInside folding depth := by
  induction depth with
  | zero =>
    intro row plain
    refine ⟨rfl, fun row' eq => ?_⟩
    cases eq
    exact .inl plain
  | succ depth ih =>
    intro row plain
    have each (rules : List Rule) {row : Row} (rested : Rested row) :
        (rules.forM fun rule => fixpoint (visitsBy true (settle folding true depth)) rule 0
            folding.sweepLimit : Step Unit) row =
          (rules.forM fun rule => fixpoint (visitsBy false (settle folding false depth)) rule 0
            folding.sweepLimit : Step Unit) row ∧
          ∀ row', (rules.forM fun rule => fixpoint (visitsBy false (settle folding false depth)) rule 0
            folding.sweepLimit : Step Unit) row = .ok () row' → Rested row' := by
      induction rules generalizing row with
      | nil =>
        refine ⟨show (pure () : Step Unit) row = (pure () : Step Unit) row from rfl, fun row' eq => ?_⟩
        cases eq
        exact rested
      | cons rule rules ihRules =>
        have first : fixpoint (visitsBy true (settle folding true depth)) rule 0 folding.sweepLimit row =
              fixpoint (visitsBy false (settle folding false depth)) rule 0 folding.sweepLimit row ∧
            ∀ row', fixpoint (visitsBy false (settle folding false depth)) rule 0 folding.sweepLimit
              row = .ok () row' → Rested row' := by
          by_cases bracket : rule = .bracket
          · subst bracket
            obtain ⟨same, closes⟩ := fixpoint_bracket limit ih 0 folding.sweepLimit rested.gathering
            exact ⟨same, fun row' eq => .inr (closes row' eq)⟩
          · obtain ⟨idle, rests⟩ := fixpoint_rested true limit depth bracket 0
              folding.sweepLimit rested
            obtain ⟨idle', _⟩ := fixpoint_rested false limit depth bracket 0
              folding.sweepLimit rested
            rw [idle, idle']
            exact ⟨rfl, rests⟩
        obtain ⟨same, rests⟩ := first
        show (fixpoint _ rule 0 folding.sweepLimit >>= fun _ => _ : Step Unit) row =
            (fixpoint _ rule 0 folding.sweepLimit >>= fun _ => _ : Step Unit) row ∧
          ∀ row', (fixpoint _ rule 0 folding.sweepLimit >>= fun _ => _ : Step Unit) row = .ok () row' →
            Rested row'
        generalize run : fixpoint (visitsBy false (settle folding false depth)) rule 0
          folding.sweepLimit row = r at same rests
        cases r with
        | error e row' =>
          rw [bind_error run, bind_error same]
          exact ⟨rfl, nofun⟩
        | ok u row' =>
          rw [bind_ok run, bind_ok same]
          exact ihRules (rests row' rfl)
    exact each folding.rules (.inl plain)

/-- Leaves are no branches. -/
theorem plain_leaves (ts : List Token) : Plain (leaves ts) := by
  intro t mem
  obtain ⟨token, _, rfl⟩ := List.mem_map.mp mem
  rfl

/-- Whether a run goes over passed branches again makes no difference, whatever the limit is. -/
theorem settle_again (folding : Folding) (depth : Nat) (ts : List Token) :
    settle folding true depth (leaves ts) = settle folding false depth (leaves ts) := by
  rcases Nat.eq_zero_or_pos folding.sweepLimit with none | limit
  · -- Without any sweep every rule fails at once.
    cases depth with
    | zero => rfl
    | succ depth =>
      unfold settle runRules
      rw [none]
      unfold fixpoint
      rfl
  · exact (settle_plain limit depth (leaves ts) (plain_leaves ts)).1

end SqlFold.Row
