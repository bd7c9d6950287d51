import SqlFold.Proofs.Sessions
import SqlFold.Proofs.Store.Links

/-!
# Histories

A history starts with a store that waits for tokens, or with that of a script, and goes on with any calls: leaves
that are pushed, nodes that are inserted and spliced wherever they are, merges, copies, questions for fingerprints
and runs. Nothing keeps a node from being listed in several places, or in none, and a call may fail half way.

The store is `Forest.Linked` all through a history, since every edit goes onward, and a run consists of edits. So a
link always names a node that lists, and a merge finds the place of what it replaces (`History.links_listed`).
-/

namespace SqlFold

open Forest Folding

variable {α β : Type} {f g : Forest}

/-! ## Questions -/

namespace Forest

theorem edits_fingerprintWithin (n : Nat) (r : NodeRef) (f : Forest) : Edits (fingerprintWithin n r) f := by
  induction n generalizing r f with
  | zero => exact .refl
  | succ n ih =>
    intro (linked : f.Linked)
    show Onward f (stateAfter (fingerprintWithin (n + 1) r f))
    rw [fingerprintWithin, get_bind]
    cases f.cache? r with
    | some known => exact .refl linked
    | none =>
      obtain ⟨m, g, visited, visits, _⟩ := Node.mapM_visits (f.node r) (fun c _ => fingerprintWithin_total n c) f
      have moved : (id f).Linked → Onward (id f) (id g) := Moves.visits visits fun c _ s => ih c s
      have onward : Onward f g := moved linked
      dsimp only
      rw [bind_ok visited]
      show Onward f (g.withCache r (some (Fingerprint.layer m)))
      exact onward.trans ⟨by simp, onward.linked.congr (by simp) (by simp) (by simp) id⟩

theorem edits_fingerprint (r : NodeRef) (f : Forest) : Edits (fingerprint r) f :=
  edits_fingerprintWithin f.size r f

end Forest

/-! ## Runs -/

namespace Folding

variable {b : NodeRef} {w : Work} {rule : Rule} {stabilize : NodeRef → Step Unit}

/-- A step of a run goes onward. -/
abbrev Steps (x : Step α) (w : Work) : Prop := Moves Work.forest x w

theorem steps_edit {e : Edit α} (edits : Edits e w.forest) : Steps (edit e) w := by
  obtain ⟨forest, stable, events, notesCalls⟩ := w
  intro linked
  have moved := edits linked
  unfold edit
  dsimp only at moved ⊢
  generalize e forest = result at moved
  cases result <;> exact moved

/-- A fold inserts nodes and splices one of them into the branch. What it lists are siblings and new tables. -/
theorem edits_applyFold {focus : Focus NodeRef} {fold : Fold NodeRef} (inside : b.index < f.size)
    (known : ∀ s ∈ fold.node.children.filterMap Origin.sibling?, s.index < f.size) : Edits (applyFold b focus fold) f := by
  intro (linked : f.Linked)
  show Onward f (stateAfter (applyFold b focus fold f))
  obtain ⟨m, g, placed, visits, _⟩ := Node.mapM_visits fold.node (fun o _ => place_total o) f
  obtain ⟨tabled, places, _, _⟩ := places_run visits
  have onward : Onward f g := linked.onward_grown (tabled.grown fun _ => False)
  -- Siblings were there before the fold, and tables were put into the store just now.
  have subs : ∀ c ∈ m.children, c.index < g.size := by
    intro c mem
    obtain ⟨o, listed, stands⟩ := Placed.exists_of_mem places mem
    cases stands with
    | sibling => exact Nat.lt_of_lt_of_le (known c (List.mem_filterMap.mpr ⟨_, listed, rfl⟩)) onward.size
    | table _ there _ => exact there
  rw [applyFold, bind_ok placed]
  have moved : Edits (insert m >>= fun new => replace b fold.left.length
      (focus.left.length + 1 + focus.right.length - fold.left.length - fold.right.length) new) g := by
    refine Moves.bind (edits_insert subs) fun new k run inserted => ?_
    cases run
    exact edits_replace (Nat.lt_of_lt_of_le inside (onward.trans inserted).size) (by simp)
  exact onward.trans (moved onward.linked)

theorem steps_attempt {focus : Focus NodeRef} (inside : b.index < w.forest.size)
    (known : ∀ s ∈ focus.left.reverse ++ focus.here :: focus.right, s.index < w.forest.size) :
    Steps (attempt rule b focus) w := by
  cases answer : rule.apply w.forest.node focus with
  | error o => exact .stay (attempt_objected answer) rfl
  | ok found =>
    cases found with
    | none => exact .stay (attempt_declined answer) rfl
    | some fold =>
      obtain ⟨back, ahead, covers⟩ := Rule.apply_covers answer
      have taken : ∀ s ∈ fold.node.children.filterMap Origin.sibling?, s.index < w.forest.size := by
        intro s mem
        refine known s ?_
        rw [covers.row]
        exact List.mem_append_left _ (List.mem_append_right _ (covers.siblings_sublist.subset mem))
      unfold Steps Moves
      rw [attempt_eq_edit answer]
      exact Moves.bind (steps_edit (edits_applyFold inside taken)) fun _ _ _ _ => .pure _

theorem steps_attemptNoted {focus : Focus NodeRef} (size offset : Nat) (inside : b.index < w.forest.size)
    (known : ∀ s ∈ focus.left.reverse ++ focus.here :: focus.right, s.index < w.forest.size) :
    Steps (attemptNoted rule b size offset focus) w := by
  intro linked
  have moved : Onward w.forest (stateAfter (attempt rule b focus w)).forest := steps_attempt inside known linked
  unfold attemptNoted
  split
  · dsimp only
    generalize attempt rule b focus w = result at moved
    cases result <;> exact moved
  · exact moved

theorem steps_call {focus : Focus NodeRef} (size offset : Nat) (inside : b.index < w.forest.size)
    (known : ∀ s ∈ focus.left.reverse ++ focus.here :: focus.right, s.index < w.forest.size) :
    Steps (call rule b size offset focus) w := by
  unfold call
  refine Moves.bind (steps_edit (edits_fingerprint b _)) fun before w _ asked => ?_
  refine Moves.bind (steps_attemptNoted size offset (Nat.lt_of_lt_of_le inside asked.size) fun s mem =>
    Nat.lt_of_lt_of_le (known s mem) asked.size) fun folded w _ _ => ?_
  split
  · exact Moves.bind (steps_edit (edits_fingerprint b _)) fun _ _ _ _ => .pure _
  · exact .pure _

section Sweeps

variable (inner : ∀ b w, Steps (stabilize b) w)

include inner

theorem steps_stabilizeBranch (c : NodeRef) (w : Work) : Steps (stabilizeBranch stabilize c) w := by
  unfold stabilizeBranch
  refine Moves.bind .refl fun f w _ _ => ?_
  split
  · exact inner c w
  · exact .pure _

theorem steps_stabilizeChild (offset : Nat) : Steps (stabilizeChild stabilize b offset) w := by
  unfold stabilizeChild
  refine Moves.bind .refl fun f w _ _ => ?_
  cases (f.childList b)[offset]? with
  | none => exact .pure _
  | some child => exact steps_stabilizeBranch inner child w

theorem steps_sweepFrom (size : Nat) (seen : Array Bool) (offset : Nat) (before behind : List NodeRef)
    (inside : b.index < w.forest.size) (known : ∀ s ∈ before.reverse ++ behind, s.index < w.forest.size) :
    Steps (sweepFrom stabilize rule b size seen offset before behind) w := by
  induction behind generalizing w seen offset before with
  | nil => exact .pure _
  | cons child behind ih =>
    have known' : ∀ s ∈ (child :: before).reverse ++ behind, s.index < w.forest.size := by
      rwa [List.reverse_cons, List.append_assoc, List.singleton_append]
    unfold sweepFrom
    split
    · exact ih seen (offset + 1) (child :: before) inside known'
    · refine Moves.bind (steps_call size offset inside known) fun folded w' _ moved => ?_
      split
      · exact Moves.bind (steps_stabilizeChild inner offset) fun _ _ _ _ => .pure _
      · refine Moves.bind (steps_stabilizeBranch inner child w') fun _ w'' _ visited => ?_
        have size := (moved.trans visited).size
        exact ih _ (offset + 1) (child :: before) (Nat.lt_of_lt_of_le inside size) fun s mem =>
          Nat.lt_of_lt_of_le (known' s mem) size

/-- A sweep over a branch that is not there finds no children. -/
theorem steps_sweep : Steps (sweep stabilize rule b) w := by
  intro linked
  show Onward w.forest (stateAfter (sweepFrom stabilize rule b (w.forest.childList b).length
    (.replicate w.forest.size false) 0 [] (w.forest.childList b) w)).forest
  by_cases inside : b.index < w.forest.size
  · exact steps_sweepFrom inner _ _ _ _ _ inside
      (fun s mem => linked.closed b s (mem_children_of_mem_childList mem)) linked
  · rw [childList, w.forest.node_of_size_le (Nat.le_of_not_lt inside)]
    exact .refl linked

theorem steps_fixpoint (spent allowed : Nat) : Steps (fixpoint stabilize rule b spent allowed) w := by
  induction allowed generalizing w spent with
  | zero => exact .throw _
  | succ allowed ih =>
    unfold fixpoint
    refine Moves.bind (steps_sweep inner) fun changed w _ _ => ?_
    split
    · exact ih (spent + 1)
    · exact .refl

end Sweeps

theorem steps_stabilize (folding : Folding) (depth : Nat) (b : NodeRef) (w : Work) :
    Steps (folding.stabilize depth b) w := by
  induction depth generalizing b w with
  | zero => exact .pure _
  | succ depth inner =>
    have each (rules : List Rule) (w : Work) :
        Steps (rules.forM fun rule => fixpoint (folding.stabilize depth) rule b 0 folding.sweepLimit) w := by
      induction rules generalizing w with
      | nil => exact .pure _
      | cons rule rules ih => exact Moves.bind (steps_fixpoint inner 0 folding.sweepLimit) fun _ w _ _ => ih w
    unfold Folding.stabilize
    refine Moves.bind (steps_edit (edits_fingerprint b _)) fun current w _ _ => Moves.bind .refl fun now w _ _ => ?_
    split
    · exact .pure _
    · refine Moves.bind (each folding.rules w) fun _ w _ _ => ?_
      exact Moves.bind (steps_edit (edits_fingerprint b _)) fun _ _ _ _ => .refl

/-- A run over any linked store goes onward, whatever its branch is. -/
theorem onward_runWith (folding : Folding) (notesCalls : Bool) (b : NodeRef) (linked : f.Linked) :
    Onward f (folding.runWith notesCalls b f).forest := by
  have moved := steps_stabilize folding (f.size + f.linkCount) b ⟨f, ∅, #[], notesCalls⟩ linked
  unfold runWith
  generalize folding.stabilize (f.size + f.linkCount) b ⟨f, ∅, #[], notesCalls⟩ = result at moved
  cases result <;> exact moved

end Folding

/-! ## Requests -/

/-- What can be done with a store from outside. -/
inductive Request where
  | action (action : Action)
  | pushLeaf (token : Token)
  | finishLexing
  | insert (node : Node NodeRef)
  | replace (branch : NodeRef) (offset length : Nat) (new : NodeRef)

namespace Action

/-- The nodes that an action names. -/
def refs : Action → List NodeRef
  | run _ _ branch => [branch]
  | merge this other => [this, other]
  | copy r => [r]
  | fingerprint r => [r]

theorem onward_edited {e : Edit α} (edits : Edits e f) (linked : f.Linked) : Onward f (edited (e f)) := by
  have moved : Onward f (stateAfter (e f)) := edits linked
  generalize e f = result at moved
  cases result <;> exact moved

/-- Every action goes onward. -/
theorem onward (action : Action) (linked : f.Linked) : Onward f (action.perform f) := by
  cases action with
  | run folding notesCalls branch => exact onward_runWith folding notesCalls branch linked
  | merge this other => exact onward_edited (edits_merge this other f) linked
  | copy r => exact onward_edited (edits_copy r f) linked
  | fingerprint r => exact onward_edited (edits_fingerprint r f) linked

end Action

namespace Request

/-- The nodes that a request names. -/
def refs : Request → List NodeRef
  | action a => a.refs
  | pushLeaf _ => []
  | finishLexing => []
  | insert node => node.children
  | replace branch _ _ new => [branch, new]

/-- What a request makes of a store, whether it succeeds or not. -/
def perform : Request → Forest → Forest
  | action a, f => a.perform f
  | pushLeaf token, f => Action.edited (f.pushLeaf token)
  | finishLexing, f => f.finishLexing
  | insert node, f => Action.edited (f.insert node)
  | replace branch offset length new, f => Action.edited (f.replace branch offset length new)

/-- Every request for nodes that are there goes onward. -/
theorem onward (request : Request) (inside : ∀ r ∈ request.refs, r.index < f.size) (linked : f.Linked) :
    Onward f (request.perform f) := by
  cases request with
  | action a => exact a.onward linked
  | pushLeaf token => exact Action.onward_edited (edits_pushLeaf token f) linked
  | finishLexing => exact ⟨Nat.le_refl _, linked.congr rfl (fun _ => rfl) (fun _ => rfl) nofun⟩
  | insert node => exact Action.onward_edited (edits_insert inside) linked
  | replace branch offset length new =>
    obtain ⟨there, ⟨placed, _⟩⟩ := List.forall_mem_cons.mp inside |>.imp_right List.forall_mem_cons.mp
    exact Action.onward_edited (edits_replace there placed) linked

end Request

/-! ## Histories -/

/-- The stores that requests for nodes that are there can lead to. -/
inductive History : Forest → Prop
  | empty (source : String) : History (Forest.empty source)
  | script (script : Script) : History (ofScript script)
  | step {f : Forest} (request : Request) :
      History f → (∀ r ∈ request.refs, r.index < f.size) → History (request.perform f)

/-- The store of a script is linked. -/
theorem Forest.linked_ofScript (script : Script) : (ofScript script).Linked := by
  have leaves (tokens : List Token) {f : Forest} (linked : f.Linked) : (tokens.foldl withLeaf f).Linked := by
    induction tokens generalizing f with
    | nil => exact linked
    | cons token tokens ih => exact ih (linked.withLeaf token)
  exact (leaves script.significant (linked_empty script.source)).congr rfl (fun _ => rfl) (fun _ => rfl) nofun

/-- The store is linked all through a history. -/
theorem History.linked (history : History f) : f.Linked := by
  induction history with
  | empty source => exact linked_empty source
  | script script => exact linked_ofScript script
  | step request _ inside ih => exact (request.onward inside ih).linked

/-- In every store of a history a link names a node that lists the one it starts from. So a merge never fails
because it does not find what it replaces. -/
theorem History.links_listed (history : History f) :
    (∀ r p, f.parent? r = some p → r ∈ f.children p) ∧
      ∀ this other v g, f.merge this other = .error v g → ∀ kind, v ≠ .detached kind :=
  ⟨history.linked.listed, fun _ _ _ _ failed => history.linked.merge_attached failed⟩

/-- The token `?` at the start of a text. -/
def Token.question : Token := ⟨.preparedArgument, "?", .start⟩

/-- A leaf that the root lists is inserted into a branch as well, and the branch into the root, where it
replaces nothing. So the leaf is listed twice, and its link names the branch. -/
theorem History.links_listed_twice :
    ∃ f leaf branch, History f ∧ leaf ∈ f.children root ∧ f.parent? leaf = some branch ∧ branch ≠ root ∧
      (∀ r p, f.parent? r = some p → r ∈ f.children p) ∧
        ∀ this other v g, f.merge this other = .error v g → ∀ kind, v ≠ .detached kind := by
  have leaf : History ((Request.pushLeaf .question).perform (Forest.empty "?")) := .step _ (.empty "?") nofun
  have branch := leaf.step (.insert (.root [⟨1⟩])) (by decide)
  have parsing := branch.step .finishLexing nofun
  have spliced := parsing.step (.replace root 1 0 ⟨2⟩) (by decide)
  exact ⟨_, ⟨1⟩, ⟨2⟩, spliced, by decide, by decide, by decide, History.links_listed spliced⟩

end SqlFold
