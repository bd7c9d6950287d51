import SqlFold.Proofs.Rows.Simulation
import SqlFold.Proofs.Store.Scripts

/-!
# Runs over scripts as runs over rows

`Folding.stabilize` settles branches as `Row.settle` settles their rows. This is stated for any way
to go on at the bound on the depth, so the bound is never reached. Hence what a run over a script comes
to can be seen from the row of its leaves alone (`Folding.runWith_ends`).
-/

namespace SqlFold

open Forest

namespace Folding

variable {again : Bool} {stabilize : NodeRef → Step Unit} {settle : Row.Step Unit}

/-! ## Runs -/

variable (folding : Folding) (bottom : NodeRef → Step Unit)

/-- `Folding.stabilize` with something else to do at the bound on the depth. -/
def stabilizeOver : (depth : Nat) → NodeRef → Step Unit
  | 0, branch => bottom branch
  | depth + 1, branch => do
    let current ← edit (Forest.fingerprint branch)
    if (← get).stable[branch.index]? = some current then return
    else
      folding.rules.forM fun rule =>
        fixpoint (stabilizeOver depth) rule branch 0 folding.sweepLimit
      let final ← edit (Forest.fingerprint branch)
      modify fun w => { w with stable := w.stable.insert branch.index final }

/-- `Folding.stabilize` returns at the bound on the depth. -/
theorem stabilizeOver_return (depth : Nat) :
    folding.stabilizeOver (fun _ => return) depth = folding.stabilize depth := by
  induction depth with
  | zero => rfl
  | succ depth ih =>
    funext branch
    unfold stabilizeOver stabilize
    rw [ih]

/-- The note that is made of a branch is about this branch alone. -/
theorem getElem?_insert_note {stable : Std.TreeMap Nat Fingerprint} (c r : NodeRef)
    (p : Fingerprint) :
    (stable.insert c.index p)[r.index]? = if r = c then some p else stable[r.index]? := by
  rw [Std.TreeMap.getElem?_insert]
  by_cases eq : r = c
  · rw [if_pos eq, if_pos (by rw [eq]; exact Nat.compare_eq_eq.mpr rfl)]
  · rw [if_neg eq, if_neg fun same => eq (NodeRef.index_eq_iff.mp (Nat.compare_eq_eq.mp same).symm)]

/-- A run with notes does what a run over the row does that passes over branches. -/
theorem stabilizeOver_meets (depth : Nat) :
    Meets false depth (folding.stabilizeOver bottom depth) (Row.settle folding false depth) := by
  induction depth with
  | zero =>
    exact ⟨fun _ light => absurd light (Nat.not_lt_zero _),
      fun _ light => absurd light (Nat.not_lt_zero _), fun _ => .ok (Nat.le_refl _)⟩
  | succ depth ih =>
    refine ⟨fun {c w} start light run => ?_, fun {c w} ready _ _ settled => ?_, fun row => ?_⟩
    · have unsettled : ¬Settled w c := run.resolve_left Bool.false_ne_true
      obtain ⟨p, f, asked, rem, right⟩ := start.ready.coherent.fingerprint_run c
      unfold stabilizeOver
      rw [bind_ok (edit_ok asked), get_bind, if_neg (by rwa [right start.ready.reached])]
      have start₁ := start.remembers rem w.events
      have tracks := runRules_tracks ih folding start₁
        (by rw [rem.row]; exact Nat.le_of_lt_succ light)
      rw [show ({ w with forest := f } : Work).forest.row c = w.forest.row c from
        congrFun rem.row c] at tracks
      have kept₁ : Kept c w { w with forest := f } :=
        .remembers start.ready start.fresh rem w.events
      have finish := Tracks.later start.ready kept₁ tracks
      show Tracks false c w _ (Row.runRules _ folding (w.forest.row c)) ∧ _
      generalize Row.runRules _ folding (w.forest.row c) = r at finish ⊢
      generalize run' : (folding.rules.forM fun rule =>
        fixpoint (folding.stabilizeOver bottom depth) rule c 0 folding.sweepLimit : Step Unit)
          { w with forest := f } = r' at finish
      cases finish with
      | error kept =>
        rw [bind_error run']
        exact ⟨.error kept, nofun⟩
      | @ok _ w' kept quiet =>
        rw [bind_ok run']
        have ready' := start.ready.of_confined kept.confined
        obtain ⟨p', g, asked', rem', right'⟩ := ready'.coherent.fingerprint_run c
        rw [bind_ok (edit_ok asked')]
        have kept₂ := kept.trans start.ready
          (.remembers ready' kept.fresh rem' w'.events) .refl
        let final : Work := { w' with forest := g, stable := w'.stable.insert c.index p' }
        have keptFinal : Kept c w final := by
          refine ⟨kept₂.confined, fun {r} reached outside => ?_, fun r outside => ?_⟩
          · rw [getElem?_insert_note, if_neg ?_]
            · exact kept.stable reached outside
            · rintro rfl
              exact outside .refl
          · rw [getElem?_insert_note, if_neg ?_]
            · exact kept₂.fresh r outside
            · rintro rfl
              exact absurd (kept₂.confined.coherent.lt_size kept₂.confined.site)
                (Nat.not_lt_of_le outside)
        have settled : Settled final c := by
          show (w'.stable.insert c.index p')[c.index]? = some (g.tree c).fingerprint
          rw [getElem?_insert_note, if_pos rfl, right' ready'.reached, rem'.tree]
        have quietFinal : ∀ d ∈ g.childList c, Quiet false final d := by
          intro d hd
          have ne : d ≠ c := kept₂.confined.coherent.ne_of_mem_children
            (mem_children_of_mem_childList hd)
          have quiet := (quiet d (by rwa [childList, ← rem'.node])).remembers rem' w'.events
          unfold Quiet Settled at quiet ⊢
          rwa [getElem?_insert_note, if_neg ne]
        refine ⟨.of_ok keptFinal quietFinal (congrFun rem'.row c), fun w'' eq => ?_⟩
        cases eq
        exact .inr (.inr settled)
    · obtain ⟨p, f, asked, rem, right⟩ := ready.coherent.fingerprint_run c
      refine ⟨f, rem, ?_⟩
      unfold stabilizeOver
      rw [bind_ok (edit_ok asked), get_bind, if_pos (by rw [right ready.reached]; exact settled)]
      rfl
    · exact (Row.settle_bounded folding false (depth + 1) row).noLimit

/-! ## Runs over scripts -/

/-- What a run leaves behind if its steps come to the given result. -/
def Run.ofResult : EStateM.Result Error Work Unit → Run
  | .ok () w => ⟨.ok (), w.forest, w.events.toList⟩
  | .error e w => ⟨.error e, w.forest, w.events.toList⟩

theorem runWith_eq (notesCalls : Bool) (b : NodeRef) (f : Forest) :
    folding.runWith notesCalls b f =
      .ofResult (folding.stabilize (f.size + f.linkCount) b ⟨f, ∅, #[], notesCalls⟩) := by
  unfold runWith
  cases folding.stabilize (f.size + f.linkCount) b ⟨f, ∅, #[], notesCalls⟩ <;> rfl

/-- A run ends as a run over a row does, where the tokens come from the given text. -/
inductive Run.Ends (source : String) : Run → EStateM.Result Failure Row Unit → Prop
  | ok {run : Run} {row : Row} : run.result = .ok () →
      run.forest.bare Forest.root = .mk () (.root row) → Ends source run (.ok () row)
  | error {run : Run} {failure : Failure} {row : Row} :
      run.result = .error (failure.error source) →
        run.forest.bare Forest.root = .mk () (.root row) → Ends source run (.error failure row)

/-- The run over a script can start. -/
theorem start_ofScript (again : Bool) (script : Script) (notesCalls : Bool) :
    Start again Forest.root ⟨ofScript script, ∅, #[], notesCalls⟩ ∧
      (ofScript script).row Forest.root = Row.leaves script.significant := by
  have leafRow := leafRow_ofScript script
  have branch : ((ofScript script).node Forest.root).branch? =
      some (firstRefs script.significant.length) := by rw [leafRow.root]; rfl
  refine ⟨⟨⟨leafRow.coherent, rfl, .root, by rw [Node.isBranch, branch]; rfl⟩, fun r _ => rfl,
    fun c hc => .inr (.inl ?_)⟩, ?_⟩
  · rw [childList, branch, Option.getD_some, mem_firstRefs] at hc
    obtain ⟨i, inside, rfl⟩ := hc
    rw [leafRow.leaf (List.getElem?_eq_getElem inside)]
    rfl
  · rw [row_of_branch? branch, Row.leaves]
    have h := leafRow.coherent
    have leaves := leafRow.forall₂_leaves
    generalize firstRefs script.significant.length = rs at leaves ⊢
    generalize script.significant = ts at leaves ⊢
    induction leaves with
    | nil => rfl
    | cons leaf _ ih =>
      rw [List.map_cons, List.map_cons, ih, h.bare_eq, leaf]
      rfl

theorem weight_leaves (ts : List Token) : Row.weight (Row.leaves ts) = ts.length := by
  induction ts with
  | nil => rfl
  | cons t ts ih =>
    rw [Row.leaves, List.map_cons, Row.weight_cons, ← Row.leaves, ih, Tree.weight_mk, Node.weight,
      List.length_cons, Nat.add_comm]

/-- A run over a script that meets what is asked ends as the run over its leaves. -/
theorem Meets.ends {depth : Nat} (meets : Meets again depth stabilize settle) (script : Script)
    (notesCalls : Bool) (deep : script.significant.length < depth) :
    (Run.ofResult (stabilize Forest.root ⟨ofScript script, ∅, #[], notesCalls⟩)).Ends script.source
      (settle (Row.leaves script.significant)) := by
  obtain ⟨start, row⟩ := start_ofScript again script notesCalls
  have unsettled : ¬Settled ⟨ofScript script, ∅, #[], notesCalls⟩ Forest.root := by
    rw [Settled, Std.TreeMap.getElem?_emptyc]
    rintro ⟨⟩
  obtain ⟨tracks, _⟩ := meets.runs start (by rw [row, weight_leaves]; exact deep) (.inr unsettled)
  have shown {w' : Work} (kept : Kept Forest.root ⟨ofScript script, ∅, #[], notesCalls⟩ w') :
      w'.forest.bare Forest.root = .mk () (.root (w'.forest.row Forest.root)) := by
    rw [kept.bare_site start.ready, start.ready.coherent.bare_eq, (leafRow_ofScript script).root]
    rfl
  rw [row] at tracks
  generalize settle (Row.leaves script.significant) = r at tracks ⊢
  generalize stabilize Forest.root _ = r' at tracks ⊢
  cases tracks with
  | ok kept _ => exact .ok rfl (shown kept)
  | error kept => exact .error (by rw [← source_ofScript script]; rfl) (shown kept)

/-- The depth that a run allows exceeds the number of tokens. -/
theorem length_lt_depth (script : Script) :
    script.significant.length < (ofScript script).size + (ofScript script).linkCount := by
  have := (leafRow_ofScript script).size
  omega

/-- A run over a script ends as the run over its leaves, whatever bounds the depth above the number
of tokens. -/
theorem runWith_ends (notesCalls : Bool) (script : Script) {depth : Nat}
    (deep : script.significant.length < depth) :
    (folding.runWith notesCalls Forest.root (ofScript script)).Ends script.source
      (Row.settle folding false depth (Row.leaves script.significant)) := by
  have meets := folding.stabilizeOver_meets (fun _ => return)
    ((ofScript script).size + (ofScript script).linkCount)
  rw [stabilizeOver_return] at meets
  have ends := meets.ends script notesCalls (length_lt_depth script)
  rw [← runWith_eq] at ends
  have bounded := length_lt_depth script
  rwa [Row.settle_congr folding false (by rwa [weight_leaves])
    (show _ < depth by rwa [weight_leaves])] at ends

end Folding

end SqlFold
