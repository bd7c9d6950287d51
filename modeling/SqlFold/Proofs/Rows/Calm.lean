import SqlFold.Proofs.Cover.Contents
import SqlFold.Proofs.Rows.Adjacent
import SqlFold.Proofs.Rows.Weight

/-!
# Branches in which nothing is left to do

A tree is `Calm` if no rule does anything in the row inside it, nor in the rows inside that. A run
over a calm branch leaves it as it is (`Row.Calm.inside`). This module shows that every branch that a
sweep passes is calm at that moment, so that it does not matter whether the run goes over it again
(`Row.settle_again`):

* a row is `Plain` before `Rule.bracket` has run over it, and `Closed` afterwards: no opening bracket
  is left, and every branch is calm and passes the check of `Rule.bracket` where it stands;
* while `Rule.bracket` runs, the row is `Gathering`: its front has no opening bracket any more, its
  back has no branch yet. A sweep checks every branch of the front before it passes it, and a checked
  branch is calm (`Row.calm_of_checked`);
* the other rules fold no branch, and look inside none that is not calm.
-/

namespace SqlFold.Row

variable {folding : Folding} {again : Bool} {rule : Rule}

/-- Nothing is left to do inside a tree. -/
inductive Calm : Bare → Prop
  | plain {t : Bare} : t.node.isBranch = false → Calm t
  | branch {t : Bare} {row : Row} : t.node.branch? = some row →
      (∀ rule left here right, row = left.reverse ++ here :: right →
        Rule.apply Tree.node rule ⟨left, here, right⟩ = .ok none) →
        (∀ u ∈ row, Calm u) → Calm t

/-- Visits that do nothing. -/
def Visits.idle : Visits := ⟨fun t => .ok () t, fun t => .ok () t⟩

/-- A tree with the children that it has. -/
theorem withRow_self {t : Bare} {row : Row} (branch : t.node.branch? = some row) :
    t.withRow row = t := by
  obtain ⟨tag, n⟩ := t
  exact congrArg (Tree.mk ()) (Node.withBranch_self branch)

/-- Nothing is done inside a tree that is no branch. -/
theorem inside_plain {settle : Step Unit} {t : Bare} (plain : t.node.isBranch = false) :
    inside settle t = .ok () t := by
  rw [Node.isBranch, Option.isSome_eq_false_iff, Option.isNone_iff_eq_none] at plain
  rw [inside, plain]

/-! ## Runs over calm branches -/

/-- A sweep over trees in which there is nothing to do, by a rule that declines everywhere. -/
theorem sweepFrom_declined {visits : Visits} {left right : Row}
    (passed : ∀ t ∈ right, visits.passed t = .ok () t)
    (declined : ∀ l h r, left.reverse ++ right = l.reverse ++ h :: r →
      rule.apply Tree.node ⟨l, h, r⟩ = .ok none) :
    sweepFrom visits rule left right = .ok false (left.reverse ++ right) := by
  induction right generalizing left with
  | nil => rw [sweepFrom, List.append_nil]
  | cons here right ih =>
    obtain ⟨first, rest⟩ := List.forall_mem_cons.mp passed
    have split : (here :: left).reverse ++ right = left.reverse ++ here :: right := by simp
    rw [sweepFrom, declined left here right rfl]
    simp only [first]
    rw [ih rest fun l h r eq => declined l h r (split.symm.trans eq), split]

/-- Runs by rules that decline everywhere. -/
theorem runRules_declined {visits : Visits} {row : Row} (limit : 0 < folding.sweepLimit)
    (passed : ∀ t ∈ row, visits.passed t = .ok () t)
    (declined : ∀ rule l h r, row = l.reverse ++ h :: r →
      Rule.apply Tree.node rule ⟨l, h, r⟩ = .ok none) :
    runRules visits folding row = .ok () row := by
  obtain ⟨left, limit_eq⟩ := Nat.exists_eq_succ_of_ne_zero (Nat.ne_of_gt limit)
  have once (rule : Rule) : fixpoint visits rule 0 folding.sweepLimit row = .ok () row := by
    have swept : sweep visits rule row = .ok false row :=
      sweepFrom_declined passed fun l h r eq => declined rule l h r eq
    rw [limit_eq, fixpoint, bind_ok swept]
    rfl
  unfold runRules
  induction folding.rules with
  | nil => rfl
  | cons rule rules ih =>
    show (fixpoint visits rule 0 folding.sweepLimit >>= fun _ => _ : Step Unit) row = _
    rw [bind_ok (once rule)]
    exact ih

/-- A run over a calm tree leaves it as it is. -/
theorem Calm.inside {t : Bare} (calm : Calm t) (limit : 0 < folding.sweepLimit) (depth : Nat) :
    Row.inside (settle folding again depth) t = .ok () t := by
  induction depth generalizing t with
  | zero =>
    cases branch : t.node.branch? with
    | none => rw [Row.inside, branch]
    | some row =>
      rw [Row.inside, branch]
      exact congrArg (EStateM.Result.ok ()) (withRow_self branch)
  | succ depth ih =>
    cases calm with
    | plain plain => exact inside_plain plain
    | @branch _ row branch declined inner =>
      have settled : settle folding again (depth + 1) row = .ok () row := by
        refine runRules_declined limit (fun u mem => ?_) declined
        unfold visitsBy
        cases again with
        | true => exact ih (inner u mem)
        | false => rfl
      rw [Row.inside, branch]
      simp only [settled]
      exact congrArg (EStateM.Result.ok ()) (withRow_self branch)

/-- A sweep does nothing inside a calm tree that it passes. -/
theorem Calm.passed {t : Bare} (calm : Calm t) (again : Bool) (limit : 0 < folding.sweepLimit) (depth : Nat) :
    (visitsBy again (settle folding again depth)).passed t = .ok () t := by
  unfold visitsBy
  cases again with
  | true => exact calm.inside limit depth
  | false => rfl

/-! ## Rows without opening brackets -/

/-- No tree of the row is a branch. -/
def Plain (row : Row) : Prop := ∀ t ∈ row, t.node.isBranch = false

/-- Whether a tree is an opening bracket. -/
def opens (t : Bare) : Bool := Rule.leafIs Tree.node .bracketOpen t

/-- `Rule.bracket` finds nothing wrong with a branch that stands first or behind a leaf. -/
def Approved (previous : Option Bare) (t : Bare) : Prop :=
  (∀ a ∈ previous, a.kind = .tokenLeaf) → ∀ p, t.node = .bracket p →
    Rule.checkContent Tree.node t p.children
      (previous.any (Rule.leafIs Tree.node .symbol)) = .ok ()

/-- What `Rule.bracket` leaves. -/
structure Closed (row : Row) : Prop where
  opened : ∀ t ∈ row, opens t = false
  calm : ∀ t ∈ row, Calm t
  approved : Chained Approved none row

/-- `Rule.bracket` declines at a branch exactly where it finds nothing wrong. -/
theorem applyBracket_eq_none {left right : Row} {here : Bare} {p : Bracket Bare}
    (shown : here.node = .bracket p) :
    Rule.applyBracket Tree.node ⟨left, here, right⟩ = .ok none ↔
      Rule.checkContent Tree.node here p.children
        (left.head?.any (Rule.leafIs Tree.node .symbol)) = .ok () := by
  unfold Rule.applyBracket
  rw [shown]
  dsimp only
  cases Rule.checkContent Tree.node here p.children
      (left.head?.any (Rule.leafIs Tree.node .symbol)) with
  | ok u => exact ⟨fun _ => rfl, fun _ => rfl⟩
  | error o => exact ⟨nofun, nofun⟩

/-- A branch with settled content that `Rule.bracket` has checked is calm. -/
theorem calm_of_checked {t : Bare} {p : Bracket Bare} {arguments : Bool}
    (shown : t.node = .bracket p) (inner : Plain p.children ∨ Closed p.children)
    (checked : Rule.checkContent Tree.node t p.children arguments = .ok ()) : Calm t := by
  have branch : t.node.branch? = some p.children := by
    rw [shown]
    rfl
  refine .branch branch (fun rule left here right split => ?_)
    fun u mem => ?_
  · have between : Rule.Between Tree.node ⟨left, here, right⟩ :=
      (Rule.checkContent_ok checked).between split
    refine Rule.apply_of_between between fun _ isBracket => ?_
    obtain ⟨q, shown'⟩ : ∃ q, here.node = .bracket q := by
      have kind := Rule.isNode_iff.mp isBracket
      dsimp only at kind
      cases node : here.node with
      | bracket q => exact ⟨q, rfl⟩
      | _ =>
        rw [node] at kind
        cases kind
    rcases inner with plain | closed
    · have notBranch := plain here (by rw [split]; simp)
      rw [shown'] at notBranch
      cases notBranch
    · have approved := (split ▸ closed.approved).focus
      refine (applyBracket_eq_none shown').mpr
        (approved (fun a before => ?_) q shown')
      -- Between commas only leaves stand before a branch.
      cases between with
      | word isWord =>
        rcases isWord with comma | distinct
        · obtain ⟨_, leaf, _⟩ := Rule.leafIs_iff.mp comma
          rw [shown'] at leaf
          cases leaf
        · obtain ⟨_, leaf, _⟩ := Rule.leafIs_iff.mp distinct
          rw [shown'] at leaf
          cases leaf
      | item _ words _ =>
        rcases words a before with comma | distinct
        · obtain ⟨_, leaf, _⟩ := Rule.leafIs_iff.mp comma
          exact Rule.kind_of_leaf leaf
        · obtain ⟨_, leaf, _⟩ := Rule.leafIs_iff.mp distinct
          exact Rule.kind_of_leaf leaf
  · rcases inner with plain | closed
    · exact .plain (plain u mem)
    · exact closed.calm u mem

/-! ## Sweeps that look inside nothing -/

/-- What a sweep that looks inside nothing comes to: the first place of the row where the rule does
not decline decides. -/
inductive Swept (rule : Rule) (row : Row) : EStateM.Result Failure Row Bool → Prop
  | rest : (∀ l h r, row = l.reverse ++ h :: r → rule.apply Tree.node ⟨l, h, r⟩ = .ok none) →
      Swept rule row (.ok false row)
  | folded {l r : Row} {h : Bare} {fold : Fold Bare} : row = l.reverse ++ h :: r →
      (∀ l' h' r', row = l'.reverse ++ h' :: r' → l'.length < l.length →
        rule.apply Tree.node ⟨l', h', r'⟩ = .ok none) →
        rule.apply Tree.node ⟨l, h, r⟩ = .ok (some fold) → Swept rule row (.ok true fold.row)
  | objected {l r : Row} {h : Bare} {o : Objection Bare} : row = l.reverse ++ h :: r →
      (∀ l' h' r', row = l'.reverse ++ h' :: r' → l'.length < l.length →
        rule.apply Tree.node ⟨l', h', r'⟩ = .ok none) →
        rule.apply Tree.node ⟨l, h, r⟩ = .error o → Swept rule row (.error (.objected o) row)

/-- Changing nothing in one tree changes nothing. -/
theorem changeAt_self {change : EStateM Failure Bare Unit} {row : Row}
    (stays : ∀ t ∈ row, change t = .ok () t) (offset : Nat) :
    changeAt offset change row = .ok () row := by
  unfold changeAt
  cases found : row[offset]? with
  | none => rfl
  | some t =>
    obtain ⟨inside, eq⟩ := List.getElem?_eq_some_iff.mp found
    simp only [stays t (List.mem_of_getElem? found)]
    rw [← eq, List.set_getElem_self]

/-- A sweep with idle visits. -/
theorem sweep_idle (rule : Rule) (row : Row) : Swept rule row (sweep Visits.idle rule row) := by
  have behind (left right : Row) (split : row = left.reverse ++ right)
      (before : ∀ l h r, row = l.reverse ++ h :: r → l.length < left.length →
        rule.apply Tree.node ⟨l, h, r⟩ = .ok none) :
      Swept rule row (sweepFrom Visits.idle rule left right) := by
    induction right generalizing left with
    | nil =>
      rw [List.append_nil] at split
      rw [sweepFrom, ← split]
      refine .rest fun l h r eq => before l h r eq ?_
      have := congrArg List.length (split.symm.trans eq)
      simp at this
      omega
    | cons here right ih =>
      unfold sweepFrom
      cases answer : rule.apply Tree.node ⟨left, here, right⟩ with
      | error o =>
        rw [← split]
        exact .objected split before answer
      | ok fold? =>
        cases fold? with
        | some fold =>
          have stays : changeAt left.length (Visits.idle.after left.length fold) fold.row =
              .ok () fold.row := by
            refine changeAt_self (fun t _ => ?_) _
            unfold Visits.after
            split <;> rfl
          simp only [stays]
          exact .folded split before answer
        | none =>
          refine ih (here :: left) (by rw [split]; simp) fun l h r eq lt => ?_
          rcases Nat.lt_or_eq_of_le (Nat.le_of_lt_succ lt) with shorter | same
          · exact before l h r eq shorter
          · obtain ⟨lefts, rights⟩ := List.append_inj (split.symm.trans eq) (by simp [same])
            obtain ⟨rfl, rfl⟩ := List.cons.inj rights
            rw [← List.reverse_inj.mp lefts]
            exact answer
  exact behind [] row rfl fun _ _ _ _ lt => absurd lt (Nat.not_lt_zero _)

/-- A rule that folds no brackets looks inside nothing in a row of calm trees. -/
theorem sweep_calm (again : Bool) (limit : 0 < folding.sweepLimit) (depth : Nat) (other : rule ≠ .bracket)
    {row : Row} (calm : ∀ t ∈ row, Calm t) :
    sweep (visitsBy again (settle folding again depth)) rule row = sweep Visits.idle rule row := by
  have behind (left right : Row) (calm : ∀ t ∈ left.reverse ++ right, Calm t) :
      sweepFrom (visitsBy again (settle folding again depth)) rule left right =
        sweepFrom Visits.idle rule left right := by
    induction right generalizing left with
    | nil => rfl
    | cons here right ih =>
      unfold sweepFrom
      cases answer : rule.apply Tree.node ⟨left, here, right⟩ with
      | error o => rfl
      | ok fold? =>
        cases fold? with
        | some fold =>
          have calm' := Rule.forall_row answer calm (.plain (Rule.isBranch_tree answer other))
          have stays : changeAt left.length
              ((visitsBy again (settle folding again depth)).after left.length fold) fold.row =
                .ok () fold.row := by
            refine changeAt_self (fun t mem => ?_) _
            unfold Visits.after
            split
            · exact (calm' t mem).inside limit depth
            · exact (calm' t mem).passed again limit depth
          have stays' : changeAt left.length (Visits.idle.after left.length fold) fold.row =
              .ok () fold.row := by
            refine changeAt_self (fun t _ => ?_) _
            unfold Visits.after
            split <;> rfl
          simp only [stays, stays']
        | none =>
          have passed := (calm here (by simp)).passed again limit depth
          simp only [passed]
          exact ih (here :: left) (by simpa using calm)
  exact behind [] row calm

/-! ## What the other rules keep -/

theorem Plain.calm {row : Row} (plain : Plain row) : ∀ t ∈ row, Calm t :=
  fun t mem => .plain (plain t mem)

/-- A fold by another rule makes no branch. -/
theorem Plain.fold {left right : Row} {here : Bare} {fold : Fold Bare}
    (plain : Plain (left.reverse ++ here :: right)) (other : rule ≠ .bracket)
    (answer : rule.apply Tree.node ⟨left, here, right⟩ = .ok (some fold)) : Plain fold.row :=
  Rule.forall_row answer plain (Rule.isBranch_tree answer other)

/-- A fold by another rule leaves branches behind the leaves that they stood behind. -/
theorem Closed.fold {left right : Row} {here : Bare} {fold : Fold Bare}
    (closed : Closed (left.reverse ++ here :: right)) (other : rule ≠ .bracket)
    (answer : rule.apply Tree.node ⟨left, here, right⟩ = .ok (some fold)) : Closed fold.row where
  opened := by
    refine Rule.forall_row answer closed.opened ?_
    by_contra isOpen
    obtain ⟨_, leaf, _⟩ := Rule.leafIs_iff.mp (Bool.eq_true_of_not_eq_false isOpen)
    exact Rule.kind_tree_ne_leaf answer (Rule.kind_of_leaf leaf)
  calm := Rule.forall_row answer closed.calm (.plain (Rule.isBranch_tree answer other))
  approved := by
    refine Rule.chained_row answer closed.approved (fun _ p shown => ?_) fun u _ leaf => ?_
    · have plain := Rule.isBranch_tree answer other
      rw [shown] at plain
      cases plain
    · exact absurd (leaf _ rfl) (Rule.kind_tree_ne_leaf answer)

/-- The rows between the rules. -/
def Rested (row : Row) : Prop := Plain row ∨ Closed row

theorem Rested.calm {row : Row} (rested : Rested row) : ∀ t ∈ row, Calm t := by
  rcases rested with plain | closed
  · exact plain.calm
  · exact closed.calm

/-- Another rule does the same in both runs, and keeps what is said of the row. -/
theorem fixpoint_rested (again : Bool) (limit : 0 < folding.sweepLimit) (depth : Nat) (other : rule ≠ .bracket)
    (spent left : Nat) {row : Row} (rested : Rested row) :
    fixpoint (visitsBy again (settle folding again depth)) rule spent left row =
        fixpoint Visits.idle rule spent left row ∧
      ∀ row', fixpoint Visits.idle rule spent left row = .ok () row' → Rested row' := by
  induction left generalizing spent row with
  | zero =>
    refine ⟨rfl, ?_⟩
    rintro _ ⟨⟩
  | succ left ih =>
    have same := sweep_calm again limit depth other rested.calm
    have swept := sweep_idle rule row
    unfold fixpoint
    generalize run : sweep Visits.idle rule row = r at swept same
    cases swept with
    | rest =>
      rw [bind_ok run, bind_ok same]
      refine ⟨rfl, fun row' eq => ?_⟩
      cases eq
      exact rested
    | @folded l r h fold split _ answer =>
      rw [bind_ok run, bind_ok same]
      refine ih (spent + 1) ?_
      subst split
      rcases rested with plain | closed
      · exact .inl (plain.fold other answer)
      · exact .inr (closed.fold other answer)
    | objected =>
      rw [bind_error run, bind_error same]
      refine ⟨rfl, ?_⟩
      rintro _ ⟨⟩

end SqlFold.Row
