import SqlFold.Proofs.Rows.Brackets
import SqlFold.Proofs.Rows.Runs

/-!
# Stabilized branches may be passed over

`Folding.restabilize` notes nothing of the branches that it has stabilized: it runs all rules on a
branch every time a sweep meets it. Both runs settle the row of a script in the same way, so they come
to the same result and leave trees that look the same (`Folding.rerunWith_agrees`).
-/

namespace SqlFold.Folding

open Forest

variable (folding : Folding) (bottom : NodeRef → Step Unit)

/-- Runs all rules on a branch, and again on every branch that a sweep meets, as often as it meets
it. -/
def restabilize : (depth : Nat) → NodeRef → Step Unit
  | 0, branch => bottom branch
  | depth + 1, branch =>
    folding.rules.forM fun rule => fixpoint (restabilize depth) rule branch 0 folding.sweepLimit

/-- A run without notes does what a run over the row does that passes over nothing. -/
theorem restabilize_meets (depth : Nat) :
    Meets true depth (folding.restabilize bottom depth) (Row.settle folding true depth) := by
  induction depth with
  | zero =>
    exact ⟨fun _ light => absurd light (Nat.not_lt_zero _),
      fun _ light => absurd light (Nat.not_lt_zero _), fun _ => .ok (Nat.le_refl _)⟩
  | succ depth ih =>
    refine ⟨fun start light _ => ⟨?_, fun _ _ => .inl rfl⟩, fun _ _ again => ?_, fun row => ?_⟩
    · exact runRules_tracks ih folding start (Nat.le_of_lt_succ light)
    · cases again
    · exact (Row.settle_bounded folding true (depth + 1) row).noLimit

/-- Runs all rules on a branch without notes of stabilized branches. -/
def rerunWith (notesCalls : Bool) (branch : NodeRef) (f : Forest) : Run :=
  .ofResult (folding.restabilize bottom (f.size + f.linkCount) branch ⟨f, ∅, #[], notesCalls⟩)

/-- Two runs that end in one way have one result and trees that look alike. -/
theorem Run.Ends.agree {source : String} {run run' : Run}
    {ending : EStateM.Result Failure Row Unit} (ends : run.Ends source ending)
    (ends' : run'.Ends source ending) :
    run.result = run'.result ∧
      (run.forest.tree Forest.root).bare = (run'.forest.tree Forest.root).bare := by
  cases ends with
  | ok result tree =>
    cases ends' with
    | ok result' tree' => exact ⟨result.trans result'.symm, tree.trans tree'.symm⟩
  | error result tree =>
    cases ends' with
    | error result' tree' => exact ⟨result.trans result'.symm, tree.trans tree'.symm⟩

/-- It cannot be seen whether a run passes over the branches that it has stabilized, whatever the
rules, the limit on sweeps and the script are. The run without notes never gets to the bound on its
depth, so it does not matter what it would do there. -/
theorem rerunWith_agrees (notesCalls : Bool) (script : Script) :
    let run := folding.runWith notesCalls Forest.root (ofScript script)
    let rerun := folding.rerunWith bottom notesCalls Forest.root (ofScript script)
    rerun.result = run.result ∧
      (rerun.forest.tree Forest.root).bare = (run.forest.tree Forest.root).bare := by
  intro run rerun
  have deep := length_lt_depth script
  have ends : run.Ends script.source _ := folding.runWith_ends notesCalls script deep
  have again : rerun.Ends script.source _ :=
    (folding.restabilize_meets bottom _).ends script notesCalls deep
  rw [Row.settle_again] at again
  exact again.agree ends

end SqlFold.Folding
