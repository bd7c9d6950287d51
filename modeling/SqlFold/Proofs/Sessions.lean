import SqlFold.Proofs.Engine.Changes
import SqlFold.Proofs.Store.Merging
import SqlFold.Proofs.Store.Scripts

/-!
# Sessions

A session starts with the store of a script and performs actions in any order: runs of any rules on
any branch, merges, copies, and questions for fingerprints. Actions may fail. `Session.sound` says
that the store is coherent all the time, and `Session.owned_and_remembered` what this means for a
node that is reached.
-/

namespace SqlFold

open Forest Folding

variable {f g : Forest} {r : NodeRef} {script : Script}

/-- Something that is done with a store. -/
inductive Action where
  | run (folding : Folding) (notesCalls : Bool) (branch : NodeRef)
  | merge (this other : NodeRef)
  | copy (r : NodeRef)
  | fingerprint (r : NodeRef)

namespace Action

/-- The store that an edit leaves behind, which may have failed. -/
def edited {α : Type} : EStateM.Result Violation Forest α → Forest
  | .ok _ f => f
  | .error _ f => f

/-- What an action makes of a store, whether it succeeds or not. -/
def perform : Action → Forest → Forest
  | run folding notesCalls branch, f => (folding.runWith notesCalls branch f).forest
  | merge this other, f => edited (f.merge this other)
  | copy r, f => edited (f.copy r)
  | fingerprint r, f => edited (f.fingerprint r)

/-- Runs work on branches that are reached, and merges on nodes that are reached. -/
def Allowed (f : Forest) : Action → Prop
  | run _ _ branch => f.Reached branch ∧ (f.node branch).isBranch = true
  | merge this other => f.Reached this ∧ f.Reached other
  | copy _ => True
  | fingerprint _ => True

end Action

/-- The stores that a session with a script can come to. -/
inductive Session (script : Script) : Forest → Prop
  | start : Session script (ofScript script)
  | step {f : Forest} (action : Action) :
      Session script f → action.Allowed f → Session script (action.perform f)

/-- What every store of a session keeps. -/
structure Forest.Sound (f : Forest) : Prop where
  coherent : f.Coherent
  parsing : f.stage = .parsing
  root : (f.node root).kind = .root

namespace Forest.Sound

/-- The store of a script is sound. -/
theorem ofScript (script : Script) : Sound (Forest.ofScript script) where
  coherent := (leafRow_ofScript script).coherent
  parsing := rfl
  root := by
    rw [(leafRow_ofScript script).root]
    rfl

variable (h : f.Sound)

include h

/-- A run leaves a sound store. -/
theorem run (folding : Folding) (notesCalls : Bool) {b : NodeRef} (reached : f.Reached b)
    (branch : (f.node b).isBranch = true) : Sound (folding.runWith notesCalls b f).forest := by
  have ready : Ready f b := ⟨h.coherent, h.parsing, reached, branch⟩
  have confined := (runWith_changes folding notesCalls ready).confined ready
  refine ⟨confined.coherent, confined.stage.trans h.parsing, ?_⟩
  by_cases below : f.Below b Forest.root
  · have eq := h.coherent.eq_root_of_below reached below
    rw [← eq, confined.kind, eq]
    exact h.root
  · rw [(confined.node .root below).2]
    exact h.root

/-- The root is no clause. -/
theorem merge_root (other : NodeRef) : ∃ v, f.merge Forest.root other = .error v f := by
  rcases mergedClause_run (fun c listed => h.coherent.closed listed) other with ⟨_, _, _, _, mergeable⟩ | ⟨run, _⟩
  · rw [kind, h.root] at mergeable
    cases mergeable
  · exact ⟨_, bind_error run⟩

/-- Clauses of one kind that are reached are merged, if they can be. -/
theorem merge_ok {this other : NodeRef} (reached : f.Reached this) (mergeable : (f.kind this).isMergeable = true)
    (same : f.kind other = f.kind this) : ∃ merged k, f.merge this other = .ok merged k := by
  rcases reached.cases with rfl | ⟨p, above, hc⟩
  · rw [kind, h.root] at mergeable
    cases mergeable
  · rcases h.coherent.merge_spliced h.parsing above hc other with ⟨_, g, k, _, _, run, _⟩ | ⟨_, kinds⟩
    · exact ⟨⟨g.size⟩, k, run⟩
    · exact absurd same (kinds mergeable)

/-- A merge leaves a sound store. -/
theorem merge {this : NodeRef} (reached : f.Reached this) (other : NodeRef) :
    Sound (Action.edited (f.merge this other)) := by
  rcases reached.cases with rfl | ⟨p, above, hc⟩
  · obtain ⟨v, run⟩ := h.merge_root other
    rw [run]
    exact h
  · rcases h.coherent.merge_run h.parsing above hc other with
      ⟨merged, k, run, graft, stage, _, kind⟩ | ⟨v, run⟩
    · rw [run]
      refine ⟨graft.coherent h.coherent, stage.trans h.parsing, ?_⟩
      show (k.node Forest.root).kind = .root
      by_cases eq : Forest.root = p
      · rw [eq, kind, ← eq]
        exact h.root
      · rw [graft.node (r := Forest.root) h.coherent.nonempty eq]
        exact h.root
    · rw [run]
      exact h

/-- A copy leaves a sound store. -/
theorem copy (r : NodeRef) : Sound (Action.edited (f.copy r)) := by
  obtain ⟨_, g, run, loose⟩ := copy_run r f
  rw [run]
  refine ⟨loose.grown.coherent h.coherent, loose.grown.stage.trans h.parsing, ?_⟩
  show (g.node Forest.root).kind = .root
  rw [loose.grown.node (r := Forest.root) h.coherent.nonempty]
  exact h.root

/-- Asking for a fingerprint leaves a sound store. -/
theorem fingerprint (r : NodeRef) : Sound (Action.edited (f.fingerprint r)) := by
  obtain ⟨_, g, run, rem, _⟩ := h.coherent.fingerprint_run r
  rw [run]
  refine ⟨rem.coherent h.coherent, rem.stage.trans h.parsing, ?_⟩
  show (g.node Forest.root).kind = .root
  rw [rem.node]
  exact h.root

/-- Every allowed action leaves a sound store. -/
theorem perform {action : Action} (allowed : action.Allowed f) : Sound (action.perform f) := by
  cases action with
  | run folding notesCalls b => exact h.run folding notesCalls allowed.1 allowed.2
  | merge this other => exact h.merge allowed.1 other
  | copy r => exact h.copy r
  | fingerprint r => exact h.fingerprint r

end Forest.Sound

/-- The store is sound all through a session. -/
theorem Session.sound (session : Session script f) : f.Sound := by
  induction session with
  | start => exact .ofScript script
  | step action _ allowed ih => exact ih.perform allowed

/-- In every store of a session a node that is reached is reached along one path, its link names the
one node that lists it, and the fingerprint that it remembers is that of the tree under it. -/
theorem Session.owned_and_remembered (session : Session script f) (reached : f.Reached r) :
    (∃! p, f.Path p r) ∧ (∀ q, f.parent? r = some q ↔ f.Reached q ∧ r ∈ f.children q) ∧
      ∀ known, f.cache? r = some known → known = (f.tree r).fingerprint := by
  have h := session.sound.coherent
  refine ⟨?_, fun q => ⟨h.mem_children_of_parent? reached, fun ⟨above, hr⟩ => h.link above hr⟩,
    fun known remembered => h.cache reached remembered⟩
  obtain ⟨p, path⟩ := reached
  exact ⟨p, path, fun p' path' => h.path_unique path' path⟩

/-- `SELECT 1`, read from left to right. -/
def Script.selectOne : Script where
  source := "SELECT 1"
  tokens := [⟨.selectKw, "SELECT", ⟨0, 0⟩⟩, ⟨.whitespace, " ", ⟨0, 6⟩⟩, ⟨.numericLiteral, "1", ⟨0, 7⟩⟩]

/-- Asking for the fingerprint of the root of `SELECT 1` and running all rules is a session. -/
theorem Session.selectOne :
    Session .selectOne
      ((Action.run (standard 100) false Forest.root).perform
        ((Action.fingerprint Forest.root).perform (Forest.ofScript .selectOne))) := by
  have started : Session .selectOne (Forest.ofScript .selectOne) := .start
  have asked := started.step (.fingerprint Forest.root) trivial
  refine .step (.run (standard 100) false Forest.root) asked ⟨.root, ?_⟩
  rw [Node.isBranch]
  have root := asked.sound.root
  generalize Forest.node _ Forest.root = n at root
  cases n <;> first | rfl | cases root

/-- After a run over `SELECT 1` the root is reached along one path, has no link and remembers its
own fingerprint, if it remembers one. -/
theorem Session.owned_and_remembered_selectOne :
    ∃ f, Session .selectOne f ∧ f.Reached Forest.root ∧ (∃! p, f.Path p Forest.root) ∧
      (∀ q, f.parent? Forest.root = some q ↔ f.Reached q ∧ Forest.root ∈ f.children q) ∧
        ∀ known, f.cache? Forest.root = some known → known = (f.tree Forest.root).fingerprint :=
  ⟨_, .selectOne, .root, Session.owned_and_remembered .selectOne .root⟩

end SqlFold
