import SqlFold.Proofs.Engine.Changes

/-!
# Runs over stores at rest

A branch is idle if every rule declines at all of its children (`Forest.IdleAt`). Where a branch and all branches
below it are idle a run succeeds at once: each rule makes one sweep over each of them, and nothing is done but to
remember fingerprints (`Folding.runWith_idle`).
-/

namespace SqlFold

open Forest

/-- Every rule declines at every child of a branch. -/
def Forest.IdleAt (f : Forest) (b : NodeRef) : Prop :=
  ∀ (rule : Rule) (left : List NodeRef) here right, (f.node b).branch? = some (left.reverse ++ here :: right) →
    rule.apply f.node ⟨left, here, right⟩ = .ok none

namespace Folding

variable {α β : Type} {f : Forest}

/-- A step that answers with `a`, and does nothing but remember fingerprints of the store `f`. -/
def Idles (f : Forest) (a : α) (x : Step α) : Prop :=
  ∀ w : Work, Remembers f w.forest → ∃ w', x w = .ok a w' ∧ Remembers f w'.forest

/-- Idle steps one after the other. -/
theorem Idles.bind {a : α} {b : β} {x : Step α} {k : α → Step β} (first : Idles f a x) (second : Idles f b (k a)) :
    Idles f b (x >>= k) := fun w rem => by
  obtain ⟨w', run, rem'⟩ := first w rem
  rw [bind_ok run]
  exact second w' rem'

section Steps

variable {b : NodeRef} (ready : Ready f b) {stabilize : NodeRef → Step Unit}
  (idles : ∀ c ∈ f.children b, (f.node c).isBranch = true → Idles f () (stabilize c)) (rule : Rule)

theorem stabilizeBranch_idle {c : NodeRef} (idle : (f.node c).isBranch = true → Idles f () (stabilize c)) :
    Idles f () (stabilizeBranch stabilize c) := fun w rem => by
  show ∃ w', (if (w.forest.node c).isBranch then stabilize c else pure () : Step Unit) w = _ ∧ _
  rw [rem.node]
  split
  · next branch => exact idle branch w rem
  · exact ⟨w, rfl, rem⟩

include ready

/-- A call that declines is idle. -/
theorem call_idle (idleAt : f.IdleAt b) (size offset : Nat) {focus : Focus NodeRef}
    (branch : (f.node b).branch? = some (focus.left.reverse ++ focus.here :: focus.right)) :
    Idles f false (call rule b size offset focus) := fun w rem => by
  have declined := idleAt rule focus.left focus.here focus.right branch
  rw [← rem.node_eq] at declined
  have called := (rem.coherent ready.coherent).call_run rule size offset (rem.stage.trans ready.parsing)
    (rem.reached.mpr ready.reached) ((congrArg Node.branch? (rem.node b)).trans branch)
  generalize call rule b size offset focus w = result at called
  cases called with
  | objected answer => cases answer.symm.trans declined
  | declined _ rem' => exact ⟨_, rfl, rem.trans rem'⟩
  | folded answer => cases answer.symm.trans declined

include idles

/-- Where a rule declines everywhere the rest of a sweep is idle. -/
theorem sweepFrom_idle (idleAt : f.IdleAt b) (size : Nat) (seen : Array Bool) (offset : Nat)
    {passed rest : List NodeRef} (branch : (f.node b).branch? = some (passed.reverse ++ rest)) :
    Idles f false (sweepFrom stabilize rule b size seen offset passed rest) := by
  induction rest generalizing seen offset passed with
  | nil => exact fun w rem => ⟨w, rfl, rem⟩
  | cons child right ih =>
    have next : (f.node b).branch? = some ((child :: passed).reverse ++ right) := by
      rw [branch]
      simp
    have listed : child ∈ f.children b := by
      rw [children, Node.children_of_branch? branch]
      simp
    unfold sweepFrom
    split
    · exact ih seen (offset + 1) next
    · refine (call_idle ready rule idleAt size offset branch).bind ?_
      rw [if_neg Bool.false_ne_true]
      exact (stabilizeBranch_idle (idles child listed)).bind (ih _ (offset + 1) next)

/-- A rule that declines everywhere comes to rest with one sweep. -/
theorem fixpoint_idle (idleAt : f.IdleAt b) {limit : Nat} (positive : 0 < limit) :
    Idles f () (fixpoint stabilize rule b 0 limit) := by
  obtain ⟨left, rfl⟩ := Nat.exists_eq_succ_of_ne_zero (Nat.ne_of_gt positive)
  obtain ⟨cs, branch⟩ := Option.isSome_iff_exists.mp ready.branch
  have swept : Idles f false (sweep stabilize rule b) := fun w rem => by
    have same : w.forest.childList b = cs := by rw [childList, rem.node, branch, Option.getD_some]
    show ∃ w', sweepFrom stabilize rule b (w.forest.childList b).length (.replicate w.forest.size false) 0 []
      (w.forest.childList b) w = _ ∧ _
    rw [same]
    exact sweepFrom_idle ready idles rule idleAt _ _ 0
      (show (f.node b).branch? = some (List.reverse [] ++ cs) from branch) w rem
  refine swept.bind ?_
  rw [if_neg Bool.false_ne_true]
  exact fun w rem => ⟨_, rfl, rem⟩

end Steps

/-- Stabilizing a branch below which all branches are idle is idle. -/
theorem stabilize_idle (folding : Folding) (positive : 0 < folding.sweepLimit) (depth : Nat) {b : NodeRef}
    (ready : Ready f b) (idle : ∀ c, f.Below b c → f.IdleAt c) : Idles f () (folding.stabilize depth b) := by
  induction depth generalizing b with
  | zero => exact fun w rem => ⟨w, rfl, rem⟩
  | succ depth ih =>
    have asks : ∀ w : Work, Remembers f w.forest → ∃ p g, edit (Forest.fingerprint b) w = .ok p { w with forest := g } ∧
        Remembers f g := fun w rem => by
      obtain ⟨p, g, asked, rem', _⟩ := (rem.coherent ready.coherent).fingerprint_run b
      exact ⟨p, g, edit_ok asked, rem.trans rem'⟩
    have below : ∀ c ∈ f.children b, (f.node c).isBranch = true → Idles f () (folding.stabilize depth c) :=
      fun c listed branch => ih ⟨ready.coherent, ready.parsing, ready.reached.child listed, branch⟩
        fun d under => idle d (.head listed under)
    have rules : Idles f () (folding.rules.forM fun rule =>
        fixpoint (folding.stabilize depth) rule b 0 folding.sweepLimit : Step Unit) := by
      induction folding.rules with
      | nil => exact fun w rem => ⟨w, rfl, rem⟩
      | cons rule rules ihRules => exact (fixpoint_idle ready below rule (idle b .refl) positive).bind ihRules
    intro w rem
    obtain ⟨current, g, asked, rem₁⟩ := asks w rem
    unfold stabilize
    rw [bind_ok asked, get_bind]
    split
    · exact ⟨_, rfl, rem₁⟩
    · obtain ⟨w', run, rem₂⟩ := rules { w with forest := g } rem₁
      obtain ⟨final, k, asked', rem₃⟩ := asks w' rem₂
      rw [bind_ok run, bind_ok asked']
      exact ⟨_, rfl, rem₃⟩

/-- A run over a branch below which all branches are idle succeeds. -/
theorem runWith_idle (folding : Folding) (positive : 0 < folding.sweepLimit) (notesCalls : Bool) {b : NodeRef}
    (ready : Ready f b) (idle : ∀ c, f.Below b c → f.IdleAt c) : (folding.runWith notesCalls b f).result = .ok () := by
  obtain ⟨w, run, _⟩ := stabilize_idle folding positive (f.size + f.linkCount) ready idle ⟨f, ∅, #[], notesCalls⟩ (.refl f)
  rw [runWith, run]

end Folding

end SqlFold
