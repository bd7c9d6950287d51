import Mathlib.Algebra.GroupWithZero.Nat
import SqlFold.Proofs.Cover.Kinds
import SqlFold.Proofs.Engine.Calls
import SqlFold.Proofs.Rows.Engine

/-!
# Why runs over rows come to an end

The weight of a row counts the leaves and the brackets that a run can still look at: a leaf weighs
one, a branch one more than the row inside it, and any other tree nothing, because no run looks
inside it. Every fold makes a row lighter (`Rule.weight_row_lt`), so

* a run leaves a row that is not heavier than before, and a rule that may make more sweeps than the
  row weighs never exhausts them (`Row.settle_bounded`);
* the bound on the depth does not matter once it exceeds the weight (`Row.settle_congr`).
-/

namespace SqlFold

variable {α β ι : Type}

/-! ## Weights -/

/-- The weight of a layer, where `below` gives the weights of its sub-nodes. -/
def Node.weight (below : α → Nat) : Node α → Nat
  | .leaf _ => 1
  | .bracket p => (p.children.map below).sum + 1
  | .root children => (children.map below).sum + 1
  | _ => 0

theorem Node.weight_map (below : β → Nat) (f : α → β) (n : Node α) :
    (n.map f).weight below = n.weight (below ∘ f) := by
  cases n <;> simp [map, weight]

/-- The weight of a tree. -/
def Tree.weight : Tree ι → Nat := fold fun _ n => n.weight Prod.snd

theorem Tree.weight_mk (tag : ι) (n : Node (Tree ι)) : (mk tag n).weight = n.weight weight := by
  rw [weight, fold_mk, Node.weight_map]
  rfl

namespace Row

/-- The weight of a row. -/
def weight (row : Row) : Nat := (row.map Tree.weight).sum

@[simp] theorem weight_nil : weight [] = 0 := rfl

@[simp] theorem weight_cons (t : Bare) (row : Row) : weight (t :: row) = t.weight + weight row := by
  simp [weight]

@[simp] theorem weight_append (row row' : Row) : weight (row ++ row') = weight row + weight row' := by
  simp [weight]

@[simp] theorem weight_reverse (row : Row) : weight row.reverse = weight row := by
  simp [weight, List.sum_reverse]

/-- A tree in a row is not heavier than the row. -/
theorem weight_le_of_mem {row : Row} {t : Bare} (mem : t ∈ row) : t.weight ≤ weight row := by
  obtain ⟨before, after, rfl⟩ := List.append_of_mem mem
  rw [weight_append, weight_cons]
  omega

/-- Changing one tree changes the weight by as much. -/
theorem weight_set {row : Row} (offset : Nat) {t : Bare} (found : row[offset]? = some t)
    (t' : Bare) :
    weight (row.set offset t') + t.weight = weight row + t'.weight := by
  induction row generalizing offset with
  | nil => cases found
  | cons u row ih =>
    cases offset with
    | zero =>
      cases found
      simp only [List.set_cons_zero, weight_cons]
      omega
    | succ offset =>
      have rest := ih offset (by simpa using found)
      simp only [List.set_cons_succ, weight_cons]
      omega

end Row

/-- A branch weighs one more than the row inside it. -/
theorem Tree.weight_of_branch? {t : Bare} {row : Row} (branch : t.node.branch? = some row) :
    t.weight = Row.weight row + 1 := by
  obtain ⟨tag, n⟩ := t
  rw [weight_mk]
  cases n <;> cases branch <;> rfl

theorem Tree.weight_withRow {t : Bare} {row : Row} (branch : t.node.branch? = some row) (row' : Row) :
    (t.withRow row').weight = Row.weight row' + 1 := by
  obtain ⟨tag, n⟩ := t
  apply weight_of_branch?
  exact Node.branch?_withBranch row' (by rw [Node.isBranch]; exact congrArg Option.isSome branch)

/-! ## Folds -/

namespace Rule

/-- A leaf weighs one. -/
theorem weight_leaf {t : Bare} (leaf : t.node.kind = .tokenLeaf) : t.weight = 1 := by
  obtain ⟨tag, n⟩ := t
  rw [Tree.weight_mk]
  cases n with
  | leaf => rfl
  | _ => cases leaf

/-- A tree that is neither a leaf nor a branch weighs nothing. -/
theorem weight_other {t : Bare} (leaf : t.node.kind ≠ .tokenLeaf) (branch : t.node.isBranch = false) :
    t.weight = 0 := by
  obtain ⟨tag, n⟩ := t
  rw [Tree.weight_mk]
  cases n with
  | leaf => exact absurd rfl leaf
  | bracket => cases branch
  | root => cases branch
  | _ => rfl

/-- Every fold makes the row lighter. -/
theorem weight_row_lt {rule : Rule} {left right : Row} {here : Bare} {fold : Fold Bare}
    (answer : rule.apply Tree.node ⟨left, here, right⟩ = .ok (some fold)) :
    Row.weight fold.row < Row.weight (left.reverse ++ here :: right) := by
  cases branch : fold.node.isBranch with
  | true =>
    obtain rfl := eq_bracket_of_isBranch answer branch
    obtain ⟨opening, closing, inner, last, opens, _, _, split, closes, eq⟩ :=
      applyBracket_fold answer
    have opening' := weight_leaf (kind_of_leaf opens)
    have closing' := weight_leaf (kind_of_leaf closes)
    have new : fold.tree.weight = Row.weight inner + 1 := by
      apply Tree.weight_of_branch?
      rw [eq]
      simp [Fold.tree, Tree.node, Node.map, Node.branch?, Origin.bare, Function.comp_def]
    have left_eq : fold.left = left := by rw [eq]
    dsimp only at split opening' ⊢
    rw [Fold.row, left_eq, split]
    simp only [Row.weight_append, Row.weight_cons, Row.weight_reverse, new]
    omega
  | false =>
    obtain ⟨back, ahead, covers⟩ := apply_covers answer
    obtain ⟨a, taken, leaf⟩ := covers.leaf
    have left_eq : left = back ++ fold.left := covers.left
    have right_eq : right = ahead ++ fold.right := covers.right
    have one : 1 ≤ Row.weight (back.reverse ++ here :: ahead) := by
      rw [← weight_leaf leaf]
      exact Row.weight_le_of_mem taken
    have new : fold.tree.weight = 0 := by
      apply weight_other
      · exact (Node.kind_map _ _).trans_ne covers.kind
      · rw [Fold.tree, Tree.node, Node.isBranch, Node.branch?_map, Option.isSome_map]
        exact branch
    rw [Fold.row, left_eq, right_eq]
    simp only [Row.weight_append, Row.weight_cons, Row.weight_reverse, List.reverse_append, new]
      at one ⊢
    omega

end Rule

namespace Row

/-! ## Runs stay within the weight -/

/-- What a step over a row that weighs `weight` comes to if it never makes the row heavier and does
not exhaust a limit above the weight. -/
inductive Bounded (limit weight : Nat) : EStateM.Result Failure Row α → Prop
  | ok {a : α} {row : Row} : row.weight ≤ weight → Bounded limit weight (.ok a row)
  | objected {o : Objection Bare} {row : Row} : Bounded limit weight (.error (.objected o) row)
  | exhausted {rule : Rule} {sweeps : Nat} {row : Row} :
      limit ≤ weight → Bounded limit weight (.error (.exhausted rule sweeps) row)

/-- The same for a step over a single tree. -/
inductive BoundedInside (limit weight : Nat) : EStateM.Result Failure Bare Unit → Prop
  | ok {t : Bare} : t.weight ≤ weight → BoundedInside limit weight (.ok () t)
  | objected {o : Objection Bare} {t : Bare} : BoundedInside limit weight (.error (.objected o) t)
  | exhausted {rule : Rule} {sweeps : Nat} {t : Bare} :
      limit ≤ weight → BoundedInside limit weight (.error (.exhausted rule sweeps) t)

variable {limit : Nat}

/-- A larger weight bounds as well. -/
theorem Bounded.mono {w w' : Nat} (le : w ≤ w') {r : EStateM.Result Failure Row α}
    (h : Bounded limit w r) : Bounded limit w' r := by
  cases h with
  | ok lighter => exact .ok (lighter.trans le)
  | objected => exact .objected
  | exhausted most => exact .exhausted (most.trans le)

/-- A step that never makes the row heavier, whatever its limit. -/
theorem Bounded.noLimit {w : Nat} {r : EStateM.Result Failure Row α} (h : Bounded limit w r) :
    Bounded 0 w r := by
  cases h with
  | ok lighter => exact .ok lighter
  | objected => exact .objected
  | exhausted => exact .exhausted (Nat.zero_le _)

/-- A step and another after it. -/
theorem Bounded.bind {w : Nat} {x : Step α} {y : α → Step β} {row : Row}
    (first : Bounded limit w (x row))
    (second : ∀ a row', x row = .ok a row' → row'.weight ≤ w → Bounded limit w (y a row')) :
    Bounded limit w ((x >>= y) row) := by
  cases run : x row with
  | ok a row' =>
    rw [bind_ok run]
    rw [run] at first
    cases first with
    | ok lighter => exact second a row' run lighter
  | error e row' =>
    rw [bind_error run]
    rw [run] at first
    cases first with
    | objected => exact .objected
    | exhausted most => exact .exhausted most

/-- A run inside a tree. -/
theorem inside_bounded {settle : Step Unit}
    (bounded : ∀ row, Bounded limit row.weight (settle row)) (t : Bare) :
    BoundedInside limit t.weight (inside settle t) := by
  unfold inside
  split
  · exact .ok (Nat.le_refl _)
  · next row branch =>
    have inner := bounded row
    have weight := Tree.weight_of_branch? branch
    generalize settle row = r at inner ⊢
    cases inner with
    | ok lighter =>
      refine .ok ?_
      rw [Tree.weight_withRow branch]
      omega
    | objected => exact .objected
    | exhausted most => exact .exhausted (by omega)

/-- A change of one tree. -/
theorem changeAt_bounded {change : EStateM Failure Bare Unit}
    (bounded : ∀ t, BoundedInside limit t.weight (change t)) (offset : Nat) (row : Row) :
    Bounded limit row.weight (changeAt offset change row) := by
  unfold changeAt
  split
  · exact .ok (Nat.le_refl _)
  · next t found =>
    have inner := bounded t
    have weight := weight_set offset found
    have member := weight_le_of_mem (List.mem_of_getElem? found)
    generalize change t = r at inner ⊢
    cases inner with
    | @ok t' lighter =>
      refine .ok ?_
      have := weight t'
      omega
    | objected => exact .objected
    | exhausted most => exact .exhausted (by omega)

/-- Visits that make no tree heavier. -/
structure Visits.Bounded (limit : Nat) (visits : Visits) : Prop where
  fresh : ∀ t, BoundedInside limit t.weight (visits.fresh t)
  passed : ∀ t, BoundedInside limit t.weight (visits.passed t)

variable {visits : Visits} (bounded : visits.Bounded limit)

include bounded

/-- A sweep makes no row heavier, and one with a fold makes it lighter. -/
theorem sweepFrom_bounded (rule : Rule) (left right : Row) :
    Bounded limit (weight (left.reverse ++ right)) (sweepFrom visits rule left right) ∧
      ∀ row, sweepFrom visits rule left right = .ok true row →
        row.weight < weight (left.reverse ++ right) := by
  induction right generalizing left with
  | nil =>
    refine ⟨.ok ?_, nofun⟩
    rw [List.append_nil]
  | cons here right ih =>
    unfold sweepFrom
    cases answer : rule.apply Tree.node ⟨left, here, right⟩ with
    | error o => exact ⟨.objected, nofun⟩
    | ok fold? =>
      cases fold? with
      | some fold =>
        have lighter := Rule.weight_row_lt answer
        have after : ∀ t, BoundedInside limit t.weight (visits.after left.length fold t) := by
          intro t
          unfold Visits.after
          split
          · exact bounded.fresh t
          · exact bounded.passed t
        have changed := changeAt_bounded after left.length fold.row
        dsimp only
        generalize changeAt left.length (visits.after left.length fold) fold.row = r at changed ⊢
        cases changed with
        | ok le =>
          refine ⟨.ok (by omega), fun row eq => ?_⟩
          cases eq
          omega
        | objected => exact ⟨.objected, nofun⟩
        | exhausted most => exact ⟨.exhausted (by omega), nofun⟩
      | none =>
        have passed := bounded.passed here
        dsimp only
        generalize visits.passed here = r at passed ⊢
        cases passed with
        | @ok t le =>
          obtain ⟨rest, folds⟩ := ih (t :: left)
          have weight : weight ((t :: left).reverse ++ right) ≤
              weight (left.reverse ++ here :: right) := by
            simp only [weight_append, weight_cons, weight_reverse]
            omega
          exact ⟨rest.mono weight, fun row eq => Nat.lt_of_lt_of_le (folds row eq) weight⟩
        | objected => exact ⟨.objected, nofun⟩
        | exhausted most =>
          refine ⟨.exhausted ?_, nofun⟩
          simp only [weight_append, weight_cons, weight_reverse]
          omega

/-- A rule needs one sweep for every fold, and one more to see that it has come to rest. So it gets
along with `left` sweeps as long as these are as many as the limit allows for the row to weigh less
than it did at first. -/
theorem fixpoint_bounded (rule : Rule) (spent left w : Nat) {row : Row} (light : row.weight ≤ w)
    (enough : row.weight + limit ≤ left + w) :
    Bounded limit w (fixpoint visits rule spent left row) := by
  induction left generalizing spent row with
  | zero => exact .exhausted (by omega)
  | succ left ih =>
    obtain ⟨swept, folds⟩ := sweepFrom_bounded bounded rule [] row
    refine Bounded.bind (swept.mono light) fun folded row' run lighter => ?_
    cases folded with
    | true =>
      have less := folds row' run
      rw [List.reverse_nil, List.nil_append] at less
      exact ih (spent + 1) lighter (by omega)
    | false => exact .ok lighter

/-- The rules, one after the other. -/
theorem runRules_bounded (rules : List Rule) {row : Row} (w : Nat) (light : row.weight ≤ w) :
    Bounded limit w ((rules.forM fun rule => fixpoint visits rule 0 limit : Step Unit) row) := by
  induction rules generalizing row with
  | nil => exact .ok light
  | cons rule rules ih =>
    have first := fixpoint_bounded bounded rule 0 limit w light (by omega)
    exact Bounded.bind first fun _ _ _ lighter => ih lighter

omit bounded

theorem visitsBy_bounded (again : Bool) {settle : Step Unit}
    (bounded : ∀ row, Bounded limit row.weight (settle row)) :
    (visitsBy again settle).Bounded limit where
  fresh := inside_bounded bounded
  passed t := by
    unfold visitsBy
    cases again with
    | true => exact inside_bounded bounded t
    | false => exact .ok (Nat.le_refl _)

/-- A run over a row does not make it heavier, and does not fail for want of sweeps if the limit
exceeds the weight. -/
theorem settle_bounded (folding : Folding) (again : Bool) (depth : Nat) (row : Row) :
    Bounded folding.sweepLimit row.weight (settle folding again depth row) := by
  induction depth generalizing row with
  | zero => exact .ok (Nat.le_refl _)
  | succ depth ih =>
    exact runRules_bounded (visitsBy_bounded again ih) folding.rules row.weight (Nat.le_refl _)

/-! ## The bound on the depth -/

/-- Two ways of visiting trees that do the same to all trees up to some weight. -/
def Visits.AgreeUpTo (w : Nat) (visits visits' : Visits) : Prop :=
  ∀ t : Bare, t.weight ≤ w → visits.fresh t = visits'.fresh t ∧ visits.passed t = visits'.passed t

theorem changeAt_congr {change change' : EStateM Failure Bare Unit} {offset : Nat} {row : Row}
    (agree : ∀ t ∈ row, change t = change' t) :
    changeAt offset change row = changeAt offset change' row := by
  unfold changeAt
  cases found : row[offset]? with
  | none => rfl
  | some t => simp only [agree t (List.mem_of_getElem? found)]

variable {visits' : Visits} {w : Nat} (agree : visits.AgreeUpTo w visits')

include bounded agree

theorem sweepFrom_congr (rule : Rule) {left right : Row}
    (light : weight (left.reverse ++ right) ≤ w) :
    sweepFrom visits rule left right = sweepFrom visits' rule left right := by
  induction right generalizing left with
  | nil => rfl
  | cons here right ih =>
    unfold sweepFrom
    cases answer : rule.apply Tree.node ⟨left, here, right⟩ with
    | error o => rfl
    | ok fold? =>
      cases fold? with
      | some fold =>
        have lighter := Rule.weight_row_lt answer
        have same : changeAt left.length (visits.after left.length fold) fold.row =
            changeAt left.length (visits'.after left.length fold) fold.row := by
          refine changeAt_congr fun t mem => ?_
          have := weight_le_of_mem mem
          obtain ⟨fresh, passed⟩ := agree t (by omega)
          unfold Visits.after
          split
          · exact fresh
          · exact passed
        simp only [same]
      | none =>
        have total : weight (left.reverse ++ here :: right) =
            weight left + (here.weight + weight right) := by simp
        have passed := bounded.passed here
        dsimp only
        rw [← (agree here (by omega)).2]
        generalize visits.passed here = r at passed ⊢
        cases passed with
        | @ok t le =>
          refine ih ?_
          simp only [List.reverse_cons, weight_append, weight_cons, weight_reverse, weight_nil]
          omega
        | objected => rfl
        | exhausted => rfl

theorem fixpoint_congr (rule : Rule) (spent left : Nat) {row : Row} (light : row.weight ≤ w) :
    fixpoint visits rule spent left row = fixpoint visits' rule spent left row := by
  induction left generalizing spent row with
  | zero => rfl
  | succ left ih =>
    have swept := (sweepFrom_bounded bounded rule [] row).1
    have same : sweep visits rule row = sweep visits' rule row :=
      sweepFrom_congr bounded agree rule light
    unfold fixpoint
    cases run : sweep visits rule row with
    | error e row' => rw [bind_error run, bind_error (same ▸ run)]
    | ok folded row' =>
      rw [bind_ok run, bind_ok (same ▸ run)]
      cases folded with
      | false => rfl
      | true =>
        have run : sweepFrom visits rule [] row = .ok true row' := run
        rw [run] at swept
        cases swept with
        | ok lighter => exact ih (spent + 1) (lighter.trans light)

theorem runRules_congr (rules : List Rule) {row : Row} (light : row.weight ≤ w) :
    (rules.forM fun rule => fixpoint visits rule 0 limit : Step Unit) row =
      (rules.forM fun rule => fixpoint visits' rule 0 limit : Step Unit) row := by
  induction rules generalizing row with
  | nil => rfl
  | cons rule rules ih =>
    have same := fixpoint_congr bounded agree rule 0 limit light
    have first := fixpoint_bounded bounded rule 0 limit w light (by omega)
    show (fixpoint visits rule 0 limit >>= fun _ => _ : Step Unit) row =
      (fixpoint visits' rule 0 limit >>= fun _ => _ : Step Unit) row
    cases run : fixpoint visits rule 0 limit row with
    | error e row' => rw [bind_error run, bind_error (same ▸ run)]
    | ok _ row' =>
      rw [bind_ok run, bind_ok (same ▸ run)]
      rw [run] at first
      cases first with
      | ok lighter => exact ih lighter

omit bounded agree

/-- The bound on the depth does not matter once it exceeds the weight. -/
theorem settle_congr (folding : Folding) (again : Bool) {depth depth' : Nat} {row : Row}
    (deep : row.weight < depth) (deep' : row.weight < depth') :
    settle folding again depth row = settle folding again depth' row := by
  induction depth generalizing depth' row with
  | zero => omega
  | succ depth ih =>
    cases depth' with
    | zero => omega
    | succ depth' =>
      have bounded := visitsBy_bounded again (settle_bounded folding again depth)
      refine runRules_congr bounded ?_ folding.rules (Nat.le_refl _)
      intro t light
      have same : inside (settle folding again depth) t = inside (settle folding again depth') t := by
        unfold inside
        split
        · rfl
        · next row' branch =>
          have weight := Tree.weight_of_branch? branch
          rw [ih (show Row.weight row' < depth by omega) (show Row.weight row' < depth' by omega)]
      refine ⟨same, ?_⟩
      unfold visitsBy
      cases again with
      | true => exact same
      | false => rfl

end Row

end SqlFold
