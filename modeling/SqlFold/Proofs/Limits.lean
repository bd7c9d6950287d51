import SqlFold.Proofs.Rows.Runs

/-!
# Limits on runs

Two bounds end a run early: the limit on sweeps, with an error, and the bound on the depth. A run with
the smaller bound is the run with the larger one or was `Cut` short by it. Because a row weighs no more
than the tokens in it, no bound above the number of tokens cuts a run short. So

* the run comes to an end by itself: what it would do at the bound on the depth does not matter;
* all limits on sweeps above the number of tokens give one run, and a smaller limit gives this run or
  the error that the limit is exceeded (`Folding.runWith_limits`).
-/

namespace SqlFold.Folding

open Forest

variable {α β : Type} {cuts : Error → Prop} {stabilize stabilize' : NodeRef → Step Unit}
  {w : Work}

/-! ## Steps that are cut short -/

/-- The first step comes to the same as the second, unless it was cut short. -/
def Cut (cuts : Error → Prop) (x y : EStateM.Result Error Work α) : Prop :=
  x = y ∨ ∃ e w, x = .error e w ∧ cuts e

theorem Cut.refl (x : EStateM.Result Error Work α) : Cut cuts x x := .inl rfl

theorem Cut.bind {x y : Step α} {k l : α → Step β} (first : Cut cuts (x w) (y w))
    (later : ∀ a w', Cut cuts (k a w') (l a w')) : Cut cuts ((x >>= k) w) ((y >>= l) w) := by
  rcases first with same | ⟨e, w', failed, cut⟩
  · cases run : x w with
    | ok a w' =>
      rw [bind_ok run, bind_ok (same.symm.trans run)]
      exact later a w'
    | error e w' =>
      rw [bind_error run, bind_error (same.symm.trans run)]
      exact .refl _
  · rw [bind_error failed]
    exact .inr ⟨e, w', rfl, cut⟩

/-- The same step before two others. -/
theorem Cut.after {x : Step α} {k l : α → Step β} (later : ∀ a w', Cut cuts (k a w') (l a w')) :
    Cut cuts ((x >>= k) w) ((x >>= l) w) := Cut.bind (.refl _) later

/-- Ways to stabilize branches of which the first may be cut short. -/
def CutAll (cuts : Error → Prop) (stabilize stabilize' : NodeRef → Step Unit) : Prop :=
  ∀ b w, Cut cuts (stabilize b w) (stabilize' b w)

theorem stabilizeBranch_cut (cut : CutAll cuts stabilize stabilize') (c : NodeRef) :
    Cut cuts (stabilizeBranch stabilize c w) (stabilizeBranch stabilize' c w) := by
  unfold stabilizeBranch
  refine Cut.after fun f w' => ?_
  split
  · exact cut c w'
  · exact .refl _

theorem stabilizeChild_cut (cut : CutAll cuts stabilize stabilize') (b : NodeRef) (offset : Nat) :
    Cut cuts (stabilizeChild stabilize b offset w) (stabilizeChild stabilize' b offset w) := by
  unfold stabilizeChild
  refine Cut.after fun f w' => ?_
  cases (f.childList b)[offset]? with
  | none => exact .refl _
  | some child => exact stabilizeBranch_cut cut child

theorem sweepFrom_cut (cut : CutAll cuts stabilize stabilize') (rule : Rule) (b : NodeRef)
    (size : Nat) (seen : Array Bool) (offset : Nat) (left right : List NodeRef) :
    Cut cuts (sweepFrom stabilize rule b size seen offset left right w)
      (sweepFrom stabilize' rule b size seen offset left right w) := by
  induction right generalizing w seen offset left with
  | nil => exact .refl _
  | cons child right ih =>
    unfold sweepFrom
    split
    · exact ih seen (offset + 1) (child :: left)
    · refine Cut.after fun folded w' => ?_
      split
      · exact Cut.bind (stabilizeChild_cut cut b offset) fun _ _ => .refl _
      · exact Cut.bind (stabilizeBranch_cut cut child) fun _ _ => ih _ (offset + 1) (child :: left)

theorem sweep_cut (cut : CutAll cuts stabilize stabilize') (rule : Rule) (b : NodeRef) :
    Cut cuts (sweep stabilize rule b w) (sweep stabilize' rule b w) := by
  unfold sweep
  exact Cut.after fun _ _ => sweepFrom_cut cut ..

/-- Fewer sweeps cut a fixpoint short. -/
theorem fixpoint_cut (cut : CutAll cuts stabilize stabilize') (rule : Rule) (b : NodeRef)
    (spent : Nat) {left left' : Nat} (fewer : left ≤ left')
    (cuts_exceeded : left < left' → ∀ sweeps, cuts (.violation (.sweepLimitExceeded rule sweeps))) :
    Cut cuts (fixpoint stabilize rule b spent left w) (fixpoint stabilize' rule b spent left' w) := by
  induction left generalizing w spent left' with
  | zero =>
    cases left' with
    | zero => exact .refl _
    | succ left' => exact .inr ⟨_, _, rfl, cuts_exceeded (Nat.succ_pos _) spent⟩
  | succ left ih =>
    obtain ⟨left', rfl⟩ := Nat.exists_eq_succ_of_ne_zero (n := left') (by omega)
    unfold fixpoint
    refine Cut.bind (sweep_cut cut rule b) fun folded w' => ?_
    split
    · exact ih (spent + 1) (Nat.le_of_succ_le_succ fewer) fun lt => cuts_exceeded (by omega)
    · exact .refl _

variable {rules : List Rule} {limit limit' : Nat} {bottom bottom' : NodeRef → Step Unit}

variable (cuts rules bottom bottom') in

/-- A smaller limit and a smaller depth cut a run short. -/
theorem stabilizeOver_cut (fewer : limit ≤ limit')
    (cuts_exceeded : limit < limit' →
      ∀ rule sweeps, cuts (.violation (.sweepLimitExceeded rule sweeps)))
    (extra : Nat) (atBottom : CutAll cuts bottom (stabilizeOver ⟨rules, limit'⟩ bottom' extra))
    (depth : Nat) :
    CutAll cuts (stabilizeOver ⟨rules, limit⟩ bottom depth)
      (stabilizeOver ⟨rules, limit'⟩ bottom' (extra + depth)) := by
  induction depth with
  | zero => exact atBottom
  | succ depth inner =>
    intro b w
    have each (listed : List Rule) (w : Work) :
        Cut cuts
          ((listed.forM fun rule =>
            fixpoint (stabilizeOver ⟨rules, limit⟩ bottom depth) rule b 0 limit : Step Unit) w)
          ((listed.forM fun rule =>
            fixpoint (stabilizeOver ⟨rules, limit'⟩ bottom' (extra + depth)) rule b 0 limit'
              : Step Unit) w) := by
      induction listed generalizing w with
      | nil => exact .refl _
      | cons rule listed ihListed =>
        exact Cut.bind (fixpoint_cut inner rule b 0 fewer fun lt => cuts_exceeded lt rule)
          fun _ w' => ihListed w'
    show Cut cuts (stabilizeOver ⟨rules, limit⟩ bottom (depth + 1) b w)
      (stabilizeOver ⟨rules, limit'⟩ bottom' (extra + depth + 1) b w)
    unfold stabilizeOver
    refine Cut.after fun current w' => Cut.after fun now w'' => ?_
    split
    · exact .refl _
    · exact Cut.bind (each rules w'') fun _ _ => .refl _

/-- A run that is not cut short leaves the same behind. -/
theorem Cut.ofResult {x y : EStateM.Result Error Work Unit} (cut : Cut cuts x y) :
    Run.ofResult x = Run.ofResult y ∨ ∃ e, (Run.ofResult x).result = .error e ∧ cuts e := by
  rcases cut with same | ⟨e, w, failed, cut⟩
  · exact .inl (congrArg Run.ofResult same)
  · refine .inr ⟨e, ?_, cut⟩
    rw [failed]
    rfl

/-! ## Runs over scripts -/

/-- The error that a rule exceeds the limit on sweeps. -/
def Exceeded (e : Error) : Prop := ∃ rule sweeps, e = .violation (.sweepLimitExceeded rule sweeps)

/-- A run over a script with something to do at the bound on the depth. -/
def runOver (folding : Folding) (bottom : NodeRef → Step Unit) (depth : Nat) (notesCalls : Bool)
    (script : Script) : Run :=
  .ofResult (folding.stabilizeOver bottom depth Forest.root
    ⟨ofScript script, ∅, #[], notesCalls⟩)

/-- A run fails as the run over its row does. -/
theorem Run.Ends.failure {source : String} {run : Run} {ending : EStateM.Result Failure Row Unit}
    {e : Error} (ends : run.Ends source ending) (failed : run.result = .error e) :
    ∃ failure : Failure, e = failure.error source := by
  cases ends with
  | ok result => cases failed.symm.trans result
  | error result =>
    cases failed.symm.trans result
    exact ⟨_, rfl⟩

theorem runOver_ends (bottom : NodeRef → Step Unit) (folding : Folding) (notesCalls : Bool) (script : Script) {depth : Nat}
    (deep : script.significant.length < depth) :
    (folding.runOver bottom depth notesCalls script).Ends script.source
      (Row.settle folding false depth (Row.leaves script.significant)) :=
  (folding.stabilizeOver_meets bottom depth).ends script notesCalls deep

/-- A bound on the depth above the number of tokens is never reached. -/
theorem runOver_eq (folding : Folding) (notesCalls : Bool) (script : Script) {depth : Nat}
    (deep : script.significant.length < depth) :
    folding.runOver bottom depth notesCalls script =
      folding.runWith notesCalls Forest.root (ofScript script) := by
  -- A run that would fail at its bound, with an error that no run over a row has, does not fail so.
  let failed : Error := .violation (.notABranch .root)
  let least := script.significant.length + 1
  let failing := folding.runOver (fun _ => throw failed) least notesCalls script
  have same (bottom : NodeRef → Step Unit) {depth : Nat} (deep : least ≤ depth) :
      failing = folding.runOver bottom depth notesCalls script := by
    obtain ⟨extra, rfl⟩ := Nat.exists_eq_add_of_le' deep
    have cut := stabilizeOver_cut (· = failed) folding.rules (fun _ => throw failed) bottom
      (Nat.le_refl folding.sweepLimit) (fun lt => absurd lt (Nat.lt_irrefl _)) extra
      (fun _ w => .inr ⟨failed, w, rfl, rfl⟩) least Forest.root
        ⟨ofScript script, ∅, #[], notesCalls⟩
    rcases cut.ofResult with same | ⟨e, result, rfl⟩
    · exact same
    · have ends := runOver_ends (fun _ => throw failed) folding notesCalls script
        (Nat.lt_succ_self script.significant.length)
      obtain ⟨failure, eq⟩ := ends.failure result
      change Error.violation (.notABranch .root) = failure.error _ at eq
      cases failure <;> cases eq
  have stabilized := same (fun _ => return) (Nat.succ_le_of_lt (length_lt_depth script))
  rw [← same bottom deep, stabilized, runOver, stabilizeOver_return, ← runWith_eq]

/-- A limit above the number of tokens is not exceeded. -/
theorem runWith_not_exceeded (folding : Folding) (notesCalls : Bool) (script : Script)
    (enough : script.significant.length < folding.sweepLimit) {e : Error}
    (failed : (folding.runWith notesCalls Forest.root (ofScript script)).result = .error e) :
    ¬Exceeded e := by
  rintro ⟨rule, sweeps, rfl⟩
  have ends := folding.runWith_ends notesCalls script (Nat.lt_succ_self _)
  have bounded := Row.settle_bounded folding false (script.significant.length + 1)
    (Row.leaves script.significant)
  generalize Row.settle folding false _ _ = r at ends bounded
  cases ends with
  | ok result => cases failed.symm.trans result
  | error result =>
    cases bounded with
    | objected => cases failed.symm.trans result
    | exhausted most =>
      rw [weight_leaves] at most
      omega

/-- A smaller limit gives the same run or is exceeded. -/
theorem runWith_cut (rules : List Rule) (notesCalls : Bool) (script : Script) {limit limit' : Nat}
    (fewer : limit ≤ limit') :
    let run (limit : Nat) :=
      (Folding.mk rules limit).runWith notesCalls Forest.root (ofScript script)
    run limit = run limit' ∨ ∃ e, (run limit).result = .error e ∧ Exceeded e := by
  intro run
  have cut := stabilizeOver_cut Exceeded rules (fun _ => return) (fun _ => return) fewer
    (fun _ rule sweeps => ⟨rule, sweeps, rfl⟩) 0
    (fun _ _ => .refl _) ((ofScript script).size + (ofScript script).linkCount) Forest.root
      ⟨ofScript script, ∅, #[], notesCalls⟩
  rw [Nat.zero_add, stabilizeOver_return, stabilizeOver_return] at cut
  have cut := cut.ofResult
  rwa [← runWith_eq, ← runWith_eq] at cut

/-- A run over a script comes to an end by itself, whatever the rules and the limit on sweeps are: it
is the same run whatever it would do at the bound on the depth, for every bound above the number of
tokens. All limits on sweeps above the number of tokens give one run, which never exceeds the limit,
and every other limit gives that run or is exceeded. -/
theorem runWith_limits (rules : List Rule) (notesCalls : Bool) (script : Script) :
    let n := script.significant.length
    let run (limit : Nat) :=
      (Folding.mk rules limit).runWith notesCalls Forest.root (ofScript script)
    (∀ limit bottom extra,
      (Folding.mk rules limit).runOver bottom (n + 1 + extra) notesCalls script = run limit) ∧
      (∀ extra rule sweeps, run (n + 1 + extra) = run (n + 1) ∧
        (run (n + 1 + extra)).result ≠ .error (.violation (.sweepLimitExceeded rule sweeps))) ∧
      ∀ limit, run limit = run (n + 1) ∨
        ∃ rule sweeps, (run limit).result = .error (.violation (.sweepLimitExceeded rule sweeps)) := by
  intro n run
  have never {limit : Nat} (enough : n < limit) {e : Error} (failed : (run limit).result = .error e) :
      ¬Exceeded e := runWith_not_exceeded ⟨rules, limit⟩ notesCalls script enough failed
  have enough {limit : Nat} (enough : n + 1 ≤ limit) : run (n + 1) = run limit := by
    rcases runWith_cut rules notesCalls script enough with same | ⟨e, failed, exceeded⟩
    · exact same
    · exact absurd exceeded (never (Nat.lt_succ_self n) failed)
  refine ⟨fun limit bottom extra => ?_, fun extra rule sweeps => ⟨?_, fun failed => ?_⟩,
    fun limit => ?_⟩
  · exact runOver_eq ⟨rules, limit⟩ notesCalls script (by omega)
  · exact (enough (Nat.le_add_right _ _)).symm
  · exact never (by omega) failed ⟨rule, sweeps, rfl⟩
  · rcases Nat.lt_or_ge n limit with above | below
    · exact .inl (enough above).symm
    · rcases runWith_cut rules notesCalls script (Nat.le_succ_of_le below) with
        same | ⟨e, failed, rule, sweeps, rfl⟩
      · exact .inl same
      · exact .inr ⟨rule, sweeps, failed⟩

end SqlFold.Folding
