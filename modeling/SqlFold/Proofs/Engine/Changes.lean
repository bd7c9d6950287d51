import SqlFold.Proofs.Engine.Calls

/-!
# What a run does to a store

`Change rules b f g` is one thing that a run over the branch `b` can do: ask for a fingerprint, or
put the answer of a rule into a branch that stands at `b` or below. `Coherent.stabilize_changes`
says that a run does nothing else, whatever the rules, the limit on sweeps and the result are. So
what every change keeps is kept by every run, and `Changes.confined` names what all of them keep.
-/

namespace SqlFold

open Forest

variable {α β : Type} {f g k : Forest} {b c q r : NodeRef} {rules : List Rule}

namespace Folding

/-- One change of the store by a run over a branch. -/
inductive Change (rules : List Rule) (b : NodeRef) (f : Forest) : Forest → Prop
  | asked {g : Forest} : Remembers f g → Change rules b f g
  | folded {rule : Rule} {q : NodeRef} {focus : Focus NodeRef} {fold : Fold NodeRef} {g : Forest} :
      rule ∈ rules → f.Below b q →
        (f.node q).branch? = some (focus.left.reverse ++ focus.here :: focus.right) →
          rule.apply f.node focus = .ok (some fold) → applyFold q focus fold f = .ok () g →
            Change rules b f g

/-- Changes of the store, one after the other. -/
abbrev Changes (rules : List Rule) (b : NodeRef) : Forest → Forest → Prop :=
  Relation.ReflTransGen (Change rules b)

/-- The stores in which a run over `b` can go on. -/
structure Ready (f : Forest) (b : NodeRef) : Prop where
  coherent : f.Coherent
  parsing : f.stage = .parsing
  reached : f.Reached b
  branch : (f.node b).isBranch = true

/-- A change at a branch or below is one at this branch and below. -/
theorem Ready.confined_of_below (ready : Ready f b) (con : Confined f g q) (below : f.Below b q) :
    Confined f g b :=
  (Confined.refl ready.coherent ready.reached ready.branch).trans ready.coherent con below

/-- What is said of a change holds of the fold that makes it. -/
theorem Ready.folded (ready : Ready f b) {rule : Rule} {focus : Focus NodeRef} {fold : Fold NodeRef}
    (below : f.Below b q)
    (branch : (f.node q).branch? = some (focus.left.reverse ++ focus.here :: focus.right))
    (answer : rule.apply f.node focus = .ok (some fold)) (run : applyFold q focus fold f = .ok () g) :
    ∃ new back ahead, Rule.Covers f.node focus fold back ahead ∧ Folded f g q fold new := by
  obtain ⟨back, ahead, covers⟩ := Rule.apply_covers answer
  obtain ⟨g', new, run', folded⟩ := ready.coherent.applyFold_run ready.parsing
    (ready.reached.below below) branch covers
  rw [run] at run'
  cases run'
  exact ⟨new, back, ahead, covers, folded⟩

/-- A change stays at the branch and below. -/
theorem Change.confined (change : Change rules b f g) (ready : Ready f b) : Confined f g b := by
  cases change with
  | asked rem => exact rem.confined ready.coherent ready.reached ready.branch
  | folded _ below branch answer run =>
    obtain ⟨_, _, _, _, folded⟩ := ready.folded below branch answer run
    exact ready.confined_of_below (folded.confined ready.coherent) below

/-- After changes a run can go on. -/
theorem Ready.of_confined (ready : Ready f b) (con : Confined f g b) : Ready g b where
  coherent := con.coherent
  parsing := con.stage.trans ready.parsing
  reached := con.site
  branch := con.isBranch ready.branch

/-- Changes stay at the branch and below. -/
theorem Changes.confined (changes : Changes rules b f g) (ready : Ready f b) : Confined f g b := by
  induction changes with
  | refl => exact .refl ready.coherent ready.reached ready.branch
  | tail _ change con =>
    exact con.trans ready.coherent (change.confined (ready.of_confined con)) .refl

theorem Changes.ready (changes : Changes rules b f g) (ready : Ready f b) : Ready g b :=
  ready.of_confined (changes.confined ready)

/-- What a change stays within is still below what it was below. -/
theorem Ready.below_site (ready : Ready f b) (con : Confined f g c) (below : f.Below b c) :
    g.Below b c := by
  have down (q : NodeRef) (reached : f.Reached q) (below : f.Below q c) : g.Below q c := by
    induction below using Relation.ReflTransGen.head_induction_on with
    | refl => exact .refl
    | @head q d hd below ih =>
      refine .head ?_ (ih (reached.child hd))
      have outside : ¬f.Below c q := fun above =>
        Coherent.not_below_of_mem_children ready.coherent.grounded hd (below.trans above)
      rw [children, (con.node reached outside).2]
      exact hd
  exact down b ready.reached below

/-- Changes further down are changes. -/
theorem Changes.of_below (ready : Ready f b) (readyC : Ready f c) (below : f.Below b c)
    (changes : Changes rules c f g) : Changes rules b f g := by
  induction changes with
  | refl => exact .refl
  | @tail g k earlier change ih =>
    refine ih.tail ?_
    cases change with
    | asked rem => exact .asked rem
    | folded listed below' branch answer run =>
      have inside : g.Below b c := ready.below_site (Changes.confined earlier readyC) below
      exact .folded listed (inside.trans below') branch answer run

/-! ## Steps -/

/-- The store that a step leaves behind. -/
def storeAfter : EStateM.Result Error Work α → Forest
  | .ok _ w => w.forest
  | .error _ w => w.forest

/-- What the parts of a sequence do, the sequence does. -/
theorem Changes.bind {x : Step α} {y : α → Step β} {w : Work}
    (first : Changes rules b w.forest (storeAfter (x w)))
    (second : ∀ a w', x w = .ok a w' → Changes rules b w'.forest (storeAfter (y a w'))) :
    Changes rules b w.forest (storeAfter ((x >>= y) w)) := by
  cases run : x w with
  | ok a w' =>
    rw [bind_ok run]
    rw [run] at first
    exact first.trans (second a w' run)
  | error e w' =>
    rw [bind_error run]
    rw [run] at first
    exact first

/-- What stabilizing a branch may do. -/
abbrev Stabilizes (rules : List Rule) (stabilize : NodeRef → Step Unit) : Prop :=
  ∀ {b : NodeRef} {w : Work}, Ready w.forest b → Changes rules b w.forest (storeAfter (stabilize b w))

variable {stabilize : NodeRef → Step Unit} (stabilizes : Stabilizes rules stabilize) {w : Work}
  (ready : Ready w.forest b)

include stabilizes ready

/-- Stabilizing a child changes nothing but what stands below. -/
theorem stabilizeBranch_changes (hc : c ∈ w.forest.children b) :
    storeAfter (stabilizeBranch stabilize c w) = w.forest ∨
      Ready w.forest c ∧ Changes rules c w.forest (storeAfter (stabilizeBranch stabilize c w)) := by
  show storeAfter ((if (w.forest.node c).isBranch then stabilize c else pure () : Step Unit) w) = _ ∨ _ ∧
    Changes _ _ _ (storeAfter ((if (w.forest.node c).isBranch then stabilize c else pure () : Step Unit) w))
  split
  · next branch =>
    have readyC : Ready w.forest c := ⟨ready.coherent, ready.parsing, ready.reached.child hc, branch⟩
    exact .inr ⟨readyC, stabilizes readyC⟩
  · exact .inl rfl

/-- Stabilizing a child changes nothing but what stands below, so the branch is the same node. -/
theorem stabilizeBranch_keeps (hc : c ∈ w.forest.children b) :
    Changes rules b w.forest (storeAfter (stabilizeBranch stabilize c w)) ∧
      (storeAfter (stabilizeBranch stabilize c w)).node b = w.forest.node b := by
  rcases stabilizeBranch_changes stabilizes ready hc with same | ⟨readyC, changes⟩
  · rw [same]
    exact ⟨.refl, rfl⟩
  · have below : w.forest.Below b c := .single hc
    refine ⟨changes.of_below ready readyC below, ?_⟩
    refine ((changes.confined readyC).node ready.reached fun above => ?_).2
    exact Coherent.not_below_of_mem_children ready.coherent.grounded hc above

/-- Stabilizing what stands at an offset is a change. -/
theorem stabilizeChild_changes (offset : Nat) :
    Changes rules b w.forest (storeAfter (stabilizeChild stabilize b offset w)) := by
  unfold stabilizeChild
  rw [bind_ok (forest_run w)]
  cases found : (w.forest.childList b)[offset]? with
  | none => exact .refl
  | some child =>
    have hc : child ∈ w.forest.children b := by
      obtain ⟨cs, hcs⟩ := Option.isSome_iff_exists.mp ready.branch
      rw [childList, hcs] at found
      rw [children, Node.children_of_branch? hcs]
      exact List.mem_of_getElem? found
    exact (stabilizeBranch_keeps stabilizes ready hc).1

omit stabilizes in
/-- A call makes changes, and none in the branch if it tells so. -/
theorem call_changes {rule : Rule} (listed : rule ∈ rules) (size offset : Nat)
    (focus : Focus NodeRef)
    (branch : (w.forest.node b).branch? = some (focus.left.reverse ++ focus.here :: focus.right)) :
    Changes rules b w.forest (storeAfter (call rule b size offset focus w)) ∧
      ∀ w', call rule b size offset focus w = .ok false w' →
        w'.forest.node b = w.forest.node b := by
  have called := ready.coherent.call_run rule size offset ready.parsing ready.reached branch
  generalize call rule b size offset focus w = r at called
  cases called with
  | objected _ rem => exact ⟨.single (.asked rem), nofun⟩
  | declined _ rem =>
    refine ⟨.single (.asked rem), fun w' eq => ?_⟩
    cases eq
    exact rem.node b
  | @folded fold f g k new back ahead events answer rem covers run folded rem' =>
    refine ⟨.trans (.trans (.single (.asked rem)) (.single ?_)) (.single (.asked rem')), nofun⟩
    refine .folded listed .refl ?_ (rem.node_eq ▸ answer) run
    rw [rem.node]
    exact branch

/-- The rest of a sweep makes changes. -/
theorem sweepFrom_changes {rule : Rule} (listed : rule ∈ rules) (size : Nat) (seen : Array Bool)
    (offset : Nat) {passed rest : List NodeRef}
    (branch : (w.forest.node b).branch? = some (passed.reverse ++ rest)) :
    Changes rules b w.forest (storeAfter (sweepFrom stabilize rule b size seen offset passed rest w)) := by
  induction rest generalizing w seen offset passed with
  | nil => exact .refl
  | cons child right ih =>
    have next : (w.forest.node b).branch? = some ((child :: passed).reverse ++ right) := by
      rw [branch]
      simp
    unfold sweepFrom
    split
    · exact ih ready seen (offset + 1) next
    · obtain ⟨changes, kept⟩ := call_changes ready listed size offset
        ⟨passed, child, right⟩ branch
      refine changes.bind fun folded w' run => ?_
      rw [run] at changes
      have ready' : Ready w'.forest b := Changes.ready changes ready
      cases folded with
      | true =>
        have stabilized := stabilizeChild_changes stabilizes ready' offset
        exact stabilized.bind fun _ _ _ => .refl
      | false =>
        have same := kept w' run
        have hc : child ∈ w'.forest.children b := by
          rw [children, same, Node.children_of_branch? branch]
          simp
        obtain ⟨changes', kept'⟩ := stabilizeBranch_keeps stabilizes ready' hc
        refine changes'.bind fun _ w'' run' => ?_
        rw [run'] at changes' kept'
        refine ih (Changes.ready changes' ready') _ _ ?_
        exact (congrArg Node.branch? (kept'.trans same)).trans next

/-- A sweep makes changes. -/
theorem sweep_changes {rule : Rule} (listed : rule ∈ rules) :
    Changes rules b w.forest (storeAfter (sweep stabilize rule b w)) := by
  obtain ⟨cs, hcs⟩ := Option.isSome_iff_exists.mp ready.branch
  show Changes rules b w.forest (storeAfter (sweepFrom stabilize rule b (w.forest.childList b).length
    (.replicate w.forest.size false) 0 [] (w.forest.childList b) w))
  refine sweepFrom_changes stabilizes ready listed _ _ 0 ?_
  rw [childList, hcs]
  rfl

/-- Sweeping until nothing changes makes changes, also where the limit on sweeps ends it. -/
theorem fixpoint_changes {rule : Rule} (listed : rule ∈ rules) (spent remaining : Nat) :
    Changes rules b w.forest (storeAfter (fixpoint stabilize rule b spent remaining w)) := by
  induction remaining generalizing w spent with
  | zero => exact .refl
  | succ remaining ih =>
    have changes := sweep_changes stabilizes ready listed
    refine changes.bind fun folded w' run => ?_
    rw [run] at changes
    cases folded with
    | true => exact ih (Changes.ready changes ready) (spent + 1)
    | false => exact .refl

omit stabilizes ready

/-- Stabilizing a branch makes changes there and below. -/
theorem stabilize_changes (folding : Folding) (depth : Nat) :
    Stabilizes folding.rules (folding.stabilize depth) := by
  induction depth with
  | zero =>
    intro b w _
    exact .refl
  | succ depth ih =>
    intro b w ready
    have asking {w : Work} (ready : Ready w.forest b) :
        ∃ p f, edit (Forest.fingerprint b) w = .ok p { w with forest := f } ∧
          Remembers w.forest f := by
      obtain ⟨p, f, asked, rem, _⟩ := ready.coherent.fingerprint_run b
      exact ⟨p, f, edit_ok asked, rem⟩
    have each (rules : List Rule) (listed : ∀ rule ∈ rules, rule ∈ folding.rules) {w : Work}
        (ready : Ready w.forest b) :
        Changes folding.rules b w.forest (storeAfter ((rules.forM fun rule =>
          fixpoint (folding.stabilize depth) rule b 0 folding.sweepLimit) w)) := by
      induction rules generalizing w with
      | nil => exact .refl
      | cons rule rules ihRules =>
        obtain ⟨here, later⟩ := List.forall_mem_cons.mp listed
        have changes := fixpoint_changes ih ready here 0 folding.sweepLimit
        refine Changes.bind changes fun _ w' run => ?_
        replace run : fixpoint (folding.stabilize depth) rule b 0 folding.sweepLimit w = _ := run
        rw [run] at changes
        exact ihRules later (Changes.ready changes ready)
    obtain ⟨current, f, asked, rem⟩ := asking ready
    have changes : Changes folding.rules b w.forest f := .single (.asked rem)
    have ready' := Changes.ready changes ready
    unfold stabilize
    rw [bind_ok asked]
    refine changes.trans ?_
    rw [get_bind]
    split
    · exact .refl
    · have changes' := each folding.rules (fun _ h => h) (w := { w with forest := f }) ready'
      refine Changes.bind changes' fun _ w' run => ?_
      rw [run] at changes'
      obtain ⟨final, g, asked', rem'⟩ := asking (Changes.ready changes' ready')
      rw [bind_ok asked']
      exact .single (.asked rem')

/-- A run makes changes at its branch and below, whether it succeeds or not. -/
theorem runWith_changes (folding : Folding) (notesCalls : Bool) (ready : Ready f b) :
    Changes folding.rules b f (folding.runWith notesCalls b f).forest := by
  have changes := stabilize_changes folding (f.size + f.linkCount)
    (w := ⟨f, ∅, #[], notesCalls⟩) ready
  unfold runWith
  generalize folding.stabilize (f.size + f.linkCount) b ⟨f, ∅, #[], notesCalls⟩ = r at changes ⊢
  cases r with
  | ok => exact changes
  | error => exact changes

end Folding

end SqlFold
