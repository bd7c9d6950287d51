import SqlFold.Proofs.Store.Regions

/-!
# One call of a rule

`Coherent.call_run` says what `Folding.call` does with a coherent store. Apart from remembered
fingerprints and events,

* an objection is thrown and a declined call does nothing;
* a fold is put into the branch, and the call tells so, because the fold changes the fingerprint.
-/

namespace SqlFold

open Forest Folding

variable {α β : Type} {f g : Forest} {b r : NodeRef} {w : Work}

/-- A change of the store is a step of the run. -/
theorem Folding.edit_ok {e : Edit α} {a : α} (h : e w.forest = .ok a g) :
    edit e w = .ok a { w with forest := g } := by
  cases w with
  | mk forest stable events notesCalls =>
    simp only [edit]
    rw [h]

/-- What is remembered does not change what rules see. -/
theorem Forest.Remembers.node_eq (rem : Remembers f g) : g.node = f.node := funext rem.node

/-- What is remembered does not change where nodes stand. -/
theorem Forest.Remembers.locate (rem : Remembers f g) (r : NodeRef) (fault : Fault) :
    g.locate r fault = f.locate r fault := by
  rw [Forest.locate, Forest.locate, position_eq, position_eq, rem.tree, rem.source]

namespace Folding

variable {rule : Rule} {focus : Focus NodeRef}

/-! ## Attempts -/

theorem forest_run (w : Work) : forest w = .ok w.forest w := rfl

/-- An objection is thrown at the place of the culprit. -/
theorem attempt_objected {o : Objection NodeRef}
    (answer : rule.apply w.forest.node focus = .error o) :
    attempt rule b focus w = .error (w.forest.locate o.culprit o.fault) w := by
  unfold attempt
  rw [bind_ok (forest_run w), answer]
  rfl

/-- Nothing happens where the pattern does not stand. -/
theorem attempt_declined (answer : rule.apply w.forest.node focus = .ok none) :
    attempt rule b focus w = .ok false w := by
  unfold attempt
  rw [bind_ok (forest_run w), answer]
  rfl

/-- A fold is to be put into the branch. -/
theorem attempt_eq_edit {fold : Fold NodeRef} (answer : rule.apply w.forest.node focus = .ok (some fold)) :
    attempt rule b focus w = (do edit (applyFold b focus fold); return true : Step Bool) w := by
  unfold attempt
  rw [bind_ok (forest_run w), answer]

/-- A fold is put into the branch. -/
theorem attempt_folded {fold : Fold NodeRef}
    (answer : rule.apply w.forest.node focus = .ok (some fold))
    (run : applyFold b focus fold w.forest = .ok () g) :
    attempt rule b focus w = .ok true { w with forest := g } := by
  rw [attempt_eq_edit answer, bind_ok (edit_ok run)]
  rfl

/-- Notes make no difference for an attempt that ends well. -/
theorem attemptNoted_ok (size offset : Nat) {folded : Bool} {w' : Work}
    (run : attempt rule b focus w = .ok folded w') :
    ∃ events, attemptNoted rule b size offset focus w = .ok folded { w' with events } := by
  unfold attemptNoted
  split
  · simp only [run]
    exact ⟨_, rfl⟩
  · exact ⟨w'.events, run⟩

/-- Notes make no difference for an attempt that fails. -/
theorem attemptNoted_error (size offset : Nat) {e : Error} {w' : Work}
    (run : attempt rule b focus w = .error e w') :
    ∃ events, attemptNoted rule b size offset focus w = .error e { w' with events } := by
  unfold attemptNoted
  split
  · simp only [run]
    exact ⟨_, rfl⟩
  · exact ⟨w'.events, run⟩

/-! ## Calls -/

/-- What a call of a rule comes to. -/
inductive Called (rule : Rule) (b : NodeRef) (focus : Focus NodeRef) (w : Work) :
    EStateM.Result Error Work Bool → Prop
  | objected {o : Objection NodeRef} {f : Forest} {events : Array Event} :
      rule.apply w.forest.node focus = .error o → Remembers w.forest f →
        Called rule b focus w
          (.error (w.forest.locate o.culprit o.fault) { w with forest := f, events })
  | declined {f : Forest} {events : Array Event} :
      rule.apply w.forest.node focus = .ok none → Remembers w.forest f →
        Called rule b focus w (.ok false { w with forest := f, events })
  | folded {fold : Fold NodeRef} {f g k : Forest} {new : NodeRef} {back ahead : List NodeRef}
      {events : Array Event} :
      rule.apply w.forest.node focus = .ok (some fold) → Remembers w.forest f →
        Rule.Covers f.node focus fold back ahead → applyFold b focus fold f = .ok () g →
          Folded f g b fold new → Remembers g k →
            Called rule b focus w (.ok true { w with forest := k, events })

end Folding

/-- A call ends in one of three ways. -/
theorem Forest.Coherent.call_run (rule : Rule) {focus : Focus NodeRef} (size offset : Nat)
    (h : w.forest.Coherent) (parsing : w.forest.stage = .parsing) (reached : w.forest.Reached b)
    (branch :
      (w.forest.node b).branch? = some (focus.left.reverse ++ focus.here :: focus.right)) :
    Called rule b focus w (call rule b size offset focus w) := by
  obtain ⟨before, f, asked, rem, right⟩ := h.fingerprint_run b
  have before_eq := right reached
  unfold call
  rw [bind_ok (edit_ok asked)]
  let w₁ : Work := { w with forest := f }
  show Called rule b focus w ((do
    if ← attemptNoted rule b size offset focus then
      let after ← edit (Forest.fingerprint b)
      return after ≠ before
    else return false : Step Bool) w₁)
  cases answer : rule.apply f.node focus with
  | error o =>
    obtain ⟨events, noted⟩ := attemptNoted_error (b := b) (w := w₁) size offset
      (attempt_objected answer)
    rw [bind_error noted, show w₁.forest.locate o.culprit o.fault = _ from rem.locate _ _]
    exact .objected (rem.node_eq ▸ answer) rem
  | ok fold? =>
    cases fold? with
    | none =>
      obtain ⟨events, noted⟩ := attemptNoted_ok (b := b) (w := w₁) size offset
        (attempt_declined answer)
      rw [bind_ok noted]
      exact .declined (rem.node_eq ▸ answer) rem
    | some fold =>
      obtain ⟨back, ahead, covers⟩ := Rule.apply_covers answer
      have coherent := rem.coherent h
      have branch' : (f.node b).branch? = _ := (congrArg Node.branch? (rem.node b)).trans branch
      obtain ⟨g, new, run, folded⟩ := coherent.applyFold_run (rem.stage.trans parsing)
        (rem.reached.mpr reached) branch' covers
      obtain ⟨events, noted⟩ := attemptNoted_ok (w := w₁) size offset
        (attempt_folded answer run)
      have confined := folded.confined coherent
      obtain ⟨after, k, asked', rem', right'⟩ := confined.coherent.fingerprint_run b
      rw [bind_ok noted]
      have changed : after ≠ before := by
        rw [right' confined.site, before_eq, ← rem.tree]
        exact folded.fingerprint_ne coherent branch' covers
      show Called rule b focus w ((do
        let after ← edit (Forest.fingerprint b)
        return after ≠ before : Step Bool) { w with forest := g, events })
      rw [bind_ok (edit_ok asked')]
      show Called rule b focus w (.ok (decide (after ≠ before)) { w with forest := k, events })
      rw [decide_eq_true changed]
      exact .folded (rem.node_eq ▸ answer) rem covers run folded rem'

end SqlFold
