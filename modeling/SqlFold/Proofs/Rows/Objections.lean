import SqlFold.Proofs.Rows.Within

/-!
# Where a rule objects

A run over leaves groups their brackets and lets the other rules come to rest one behind the other. The first rule that
objects on the way ends it (`Row.settle_objected`).
-/

namespace SqlFold.Row

variable {rule : Rule} {rules rules' : List Rule} {left right row between : Row} {here : Bare} {o : Objection Bare}
  {limit depth : Nat}

/-- A sweep ends with the first objection. -/
theorem sweep_objected (before : DeclinedBefore rule left.length (left.reverse ++ here :: right))
    (objects : rule.apply Tree.node ⟨left, here, right⟩ = .error o) :
    sweep Visits.idle rule (left.reverse ++ here :: right) = .error (.objected o) (left.reverse ++ here :: right) := by
  have swept := sweep_idle rule (left.reverse ++ here :: right)
  have answers : rule.apply Tree.node ⟨left, here, right⟩ ≠ .ok none := by
    rw [objects]
    nofun
  generalize sweep Visits.idle rule (left.reverse ++ here :: right) = r at swept
  cases swept with
  | rest declined => exact absurd (declined left here right rfl) answers
  | folded split before' answer =>
    obtain ⟨rfl, rfl, rfl⟩ := first_unique split before (split ▸ before') answers (by rw [answer]; nofun)
    cases objects.symm.trans answer
  | objected split before' answer =>
    obtain ⟨rfl, rfl, rfl⟩ := first_unique split before (split ▸ before') answers (by rw [answer]; nofun)
    cases objects.symm.trans answer
    rfl

/-- A run over leaves, whose number is below both of its bounds, ends with the objection of the first rule that does not
come to rest. -/
theorem settle_objected (order : Rule.standard.tail = rules ++ rule :: rules')
    (leaves : ∀ t ∈ row, t.node.kind = .tokenLeaf) (deep : row.weight ≤ depth) (enough : row.weight < limit)
    (grouped : Grouped Parses none row between) (rests : RestsAll rules between (left.reverse ++ here :: right))
    (before : DeclinedBefore rule left.length (left.reverse ++ here :: right))
    (objects : rule.apply Tree.node ⟨left, here, right⟩ = .error o) :
    settle (.standard limit) false (depth + 1) row = .error (.objected o) (left.reverse ++ here :: right) := by
  have positive : 0 < (Folding.standard limit).sweepLimit := Nat.zero_lt_of_lt enough
  have listed : ∀ other ∈ rules ++ rule :: rules', other ≠ .bracket := by
    rw [← order]
    decide
  have once : (rules ++ rule :: rules').Nodup := by
    rw [← order]
    decide
  have settled : Grouped (fun inner content => settle (.standard limit) false depth inner = .ok () content) none row between :=
    grouped.imp fun _ _ inner content within lt _ parses =>
      (settle_ok_iff (fun t mem => leaves t (within mem)) (by omega) (by omega)).mpr parses
  -- The brackets are grouped first, and no other rule runs before that.
  have passes : Chained Passes none [] := trivial
  have first : fixpoint (visitsBy false (settle (.standard limit) false depth)) .bracket 0 limit row = .ok () between :=
    fixpoint_of_grouped settled passes (grouped.branches_le.trans_lt enough)
  have closed : Closed between := (fixpoint_bracket positive (settle_plain positive depth) 0 limit
    (Rested.gathering (.inl (plain_of_leaves leaves)))).2 _ first
  have lighter := grouped.weight_le fun _ _ => Parses.weight_le
  have few : ∀ rule ∈ rules, made rule (left.reverse ++ here :: right) < between.made rule + limit := by
    intro rule mem
    have := rests.made_weight_le (fun listed' => listed .bracket (List.mem_append_left _ listed') rfl) rule
    omega
  show (fixpoint (visitsBy false (settle (.standard limit) false depth)) .bracket 0 limit >>=
    fun _ => Rule.standard.tail.forM fun rule => fixpoint _ rule 0 limit : Step Unit) row = _
  rw [bind_ok first, order]
  -- The rules before come to rest with the row they are said to, and the first sweep of this one ends the run.
  obtain ⟨rested, run⟩ := @run_append (.standard limit) depth positive rules
    (fun mem => listed .bracket (List.mem_append_left _ mem) rfl) once.of_append_left between _ (.inr closed) rests few
    (rule :: rules')
  obtain ⟨idle, -⟩ := fixpoint_rested false positive depth (listed rule (by simp)) 0 limit rested
  have objected : fixpoint Visits.idle rule 0 limit (left.reverse ++ here :: right) =
      .error (.objected o) (left.reverse ++ here :: right) := by
    obtain ⟨more, rfl⟩ := Nat.exists_eq_succ_of_ne_zero (Nat.ne_of_gt (Nat.zero_lt_of_lt enough))
    rw [fixpoint]
    exact bind_error (sweep_objected before objects)
  exact run.trans (bind_error (idle.trans objected))

end SqlFold.Row
