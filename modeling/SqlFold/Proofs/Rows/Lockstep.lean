import SqlFold.Proofs.Rows.Sound
import SqlFold.Proofs.Translation.Clauses

/-!
# Runs in lockstep

A change `h` of tokens that keeps what the rules read off a token (`Token.Recast`) changes nothing
about a run: the run over the changed row takes the same steps (`Row.settle_lockstep`). It ends with
the changed row, or with an objection to the changed tree for the same cause.
-/

namespace SqlFold

variable {β : Type} {h : Token → Token} {P : Token → Prop}

/-- A change of tokens that keeps what the rules read off the tokens of the sort `P`. -/
structure Token.Recast (h : Token → Token) (P : Token → Prop) : Prop where
  kind : ∀ t, (h t).kind = t.kind
  sign : ∀ t, Rule.isSign (h t) = Rule.isSign t
  equals : ∀ t, P t → Rule.startsOperator t.kind = true → ((h t).lexeme == "=") = (t.lexeme == "=")

/-- The tree with changed tokens. -/
def Tree.recast (h : Token → Token) (t : Bare) : Bare := t.translate h id

/-- The row with changed tokens. -/
def Row.recast (h : Token → Token) (row : Row) : Row := row.map (Tree.recast h)

namespace Tree

theorem node_recast (t : Bare) : (t.recast h).node = (t.node.map (recast h)).mapTokens h :=
  node_translate ..

theorem branch?_recast (t : Bare) : (t.recast h).node.branch? = t.node.branch?.map (Row.recast h) := by
  rw [node_recast, Node.branch?_mapTokens, Node.branch?_map]
  rfl

theorem recast_withRow (t : Bare) (row : Row) :
    (t.withRow row).recast h = (t.recast h).withRow (Row.recast h row) := by
  obtain ⟨⟨⟩, n⟩ := t
  rw [recast, withRow, translate_mk]
  show Tree.mk () _ = Tree.mk () (((Tree.mk () n).recast h).node.withBranch _)
  rw [node_recast]
  cases n <;> rfl

end Tree

/-- A fold of changed trees makes the changed tree. -/
theorem Fold.row_recast (fold : Fold Bare) :
    (fold.map (Tree.recast h) h).row = fold.row.recast h := by
  have origin : Origin.bare id ∘ Origin.map (Tree.recast h) h =
      Tree.recast h ∘ Origin.bare id := by
    funext o
    cases o with
    | sibling => rfl
    | newTable name =>
      show Tree.mk () _ = Tree.recast h (.mk () (.table name))
      rw [Tree.recast, Tree.translate_mk]
      rfl
  have tree : (fold.map (Tree.recast h) h).tree = fold.tree.recast h := by
    rw [Fold.tree, Fold.tree, Tree.recast, Tree.translate_mk, Fold.map, Node.map_mapTokens,
      Node.map_map, Node.map_map, origin]
    rfl
  rw [Fold.row, tree, Row.recast, Fold.row, List.map_append, List.map_cons, Fold.map,
    List.map_reverse]

namespace Rule

variable (recast : Token.Recast h P)

include recast

theorem translates_recast : Translates Tree.node Tree.node (Tree.recast h) h :=
  ⟨Tree.node_recast, recast.kind, recast.sign⟩

/-- Assignments stay assignments. -/
theorem isAssignment_recast {t : Bare} (sound : t.Sound P) :
    isAssignment Tree.node (t.recast h) = isAssignment Tree.node t := by
  have tr := translates_recast recast
  obtain @⟨n, _, slots, tokens, _⟩ := sound
  rw [isAssignment, isAssignment, Tree.node_recast]
  cases n with
  | operation o =>
    have equals : Operation.isEquals (⟨o.left.recast h, o.operator.map h, o.right.recast h⟩ :
        Operation Bare) = o.isEquals := by
      obtain ⟨left, operator, right⟩ := o
      -- Only operators of one token can be `=`, and such a token starts an operator.
      obtain ⟨_, _, shape⟩ := slots
      cases shape with
      | @single t starts =>
        exact recast.equals t (tokens t (by simp [Node.parts])) starts
      | isNot => rfl
      | notLike => rfl
    show (Operation.isEquals _ && isNode Tree.node .column (o.left.recast h)) = _
    rw [tr.isNode]
    exact congrArg (· && _) equals
  | _ => rfl

/-- A rule gives corresponding answers on sound trees and on the changed ones. -/
theorem apply_recast (rule : Rule) {left right : Row} {here : Bare}
    (sound : ∀ t ∈ left.reverse ++ here :: right, t.Sound P) :
    Agree (Tree.recast h) h (Option.map (Fold.map (Tree.recast h) h))
      (rule.apply Tree.node ⟨left, here, right⟩)
      (rule.apply Tree.node ⟨Row.recast h left, here.recast h, Row.recast h right⟩) :=
  (translates_recast recast).apply_agree rule ⟨left, here, right⟩ fun a mem =>
    isAssignment_recast recast (sound a (by simp [show a ∈ right from mem]))

end Rule

/-! ## Steps -/

/-- What two steps come to if the second does to the changed state what the first one does. -/
inductive Lockstep {σ : Type} (h : Token → Token) (P : Token → Prop) (change : σ → σ)
    (sound : σ → Prop) : EStateM.Result Failure σ β → EStateM.Result Failure σ β → Prop
  | ok (a : β) {s : σ} : sound s → Lockstep h P change sound (.ok a s) (.ok a (change s))
  | objected {culprit : Bare} {fault fault' : Fault} {s s' : σ} : culprit.Sound P →
      fault.Renamed h fault' →
        Lockstep h P change sound (.error (.objected ⟨culprit, fault⟩) s)
          (.error (.objected ⟨culprit.recast h, fault'⟩) s')
  | exhausted (rule : Rule) (sweeps : Nat) {s s' : σ} :
      Lockstep h P change sound (.error (.exhausted rule sweeps) s)
        (.error (.exhausted rule sweeps) s')

namespace Row

/-- The same for steps over rows. -/
abbrev LockRow (h : Token → Token) (P : Token → Prop) :
    EStateM.Result Failure Row β → EStateM.Result Failure Row β → Prop :=
  Lockstep h P (recast h) fun row => ∀ t ∈ row, t.Sound P

/-- The same for steps over single trees. -/
abbrev LockTree (h : Token → Token) (P : Token → Prop) :
    EStateM.Result Failure Bare Unit → EStateM.Result Failure Bare Unit → Prop :=
  Lockstep h P (Tree.recast h) (Tree.Sound P)

/-- A step and another after it. -/
theorem lockstep_bind {α : Type} {x : Step α} {y : α → Step β} {row : Row}
    (first : LockRow h P (x row) (x (Row.recast h row)))
    (second : ∀ a row', (∀ t ∈ row', t.Sound P) → LockRow h P (y a row') (y a (Row.recast h row'))) :
    LockRow h P ((x >>= y) row) ((x >>= y) (Row.recast h row)) := by
  cases run : x row with
  | ok a row' =>
    rw [run] at first
    cases run' : x (Row.recast h row) with
    | ok =>
      rw [run'] at first
      rw [bind_ok run, bind_ok run']
      cases first with
      | ok _ sound => exact second a row' sound
    | error =>
      rw [run'] at first
      cases first
  | error e row' =>
    rw [run] at first
    cases run' : x (Row.recast h row) with
    | ok =>
      rw [run'] at first
      cases first
    | error =>
      rw [run'] at first
      rw [bind_error run, bind_error run']
      cases first with
      | objected sound renamed => exact .objected sound renamed
      | exhausted rule sweeps => exact .exhausted rule sweeps

/-- A run inside a tree. -/
theorem inside_lockstep {settle : Step Unit}
    (steps : ∀ row, (∀ t ∈ row, t.Sound P) → LockRow h P (settle row) (settle (Row.recast h row)))
    {t : Bare} (sound : t.Sound P) : LockTree h P (inside settle t) (inside settle (t.recast h)) := by
  unfold inside
  rw [Tree.branch?_recast]
  cases branch : t.node.branch? with
  | none => exact .ok () sound
  | some row =>
    have isBranch : t.node.isBranch = true := by rw [Node.isBranch, branch]; rfl
    have inner := steps row (Node.children_of_branch? branch ▸ sound.children)
    simp only [Option.map_some]
    generalize settle row = r at inner ⊢
    generalize settle (Row.recast h row) = r' at inner ⊢
    cases inner with
    | @ok _ row' all =>
      dsimp only
      rw [← Tree.recast_withRow]
      exact .ok () (sound.withRow isBranch all)
    | objected culprit renamed => exact .objected culprit renamed
    | exhausted rule sweeps => exact .exhausted rule sweeps

/-- A change of one tree. -/
theorem changeAt_lockstep {change : EStateM Failure Bare Unit}
    (steps : ∀ t, t.Sound P → LockTree h P (change t) (change (t.recast h))) (offset : Nat) {row : Row}
    (sound : ∀ t ∈ row, t.Sound P) :
    LockRow h P (changeAt offset change row) (changeAt offset change (Row.recast h row)) := by
  have at_offset : (Row.recast h row)[offset]? = row[offset]?.map (Tree.recast h) := List.getElem?_map
  unfold changeAt
  rw [at_offset]
  cases found : row[offset]? with
  | none => exact .ok () sound
  | some t =>
    have inner := steps t (sound t (List.mem_of_getElem? found))
    simp only [Option.map_some]
    generalize change t = r at inner ⊢
    generalize change (t.recast h) = r' at inner ⊢
    cases inner with
    | @ok _ t' soundT =>
      have changed : (Row.recast h row).set offset (t'.recast h) = Row.recast h (row.set offset t') :=
        List.map_set.symm
      dsimp only
      rw [changed]
      refine .ok () fun u mem => ?_
      rcases List.mem_or_eq_of_mem_set mem with mem | rfl
      · exact sound u mem
      · exact soundT
    | objected culprit renamed => exact .objected culprit renamed
    | exhausted rule sweeps => exact .exhausted rule sweeps

/-- Visits that do the same to changed trees. -/
structure Visits.Locked (h : Token → Token) (P : Token → Prop) (visits : Visits) : Prop where
  fresh : ∀ t, t.Sound P → LockTree h P (visits.fresh t) (visits.fresh (t.recast h))
  passed : ∀ t, t.Sound P → LockTree h P (visits.passed t) (visits.passed (t.recast h))

variable (recast : Token.Recast h P)

section Visits

variable {visits : Visits} (locked : visits.Locked h P)

include recast locked

theorem sweepFrom_lockstep (rule : Rule) (left : Row) {right : Row}
    (sound : ∀ t ∈ left.reverse ++ right, t.Sound P) :
    LockRow h P (sweepFrom visits rule left right)
      (sweepFrom visits rule (Row.recast h left) (Row.recast h right)) := by
  induction right generalizing left with
  | nil =>
    have reversed : (Row.recast h left).reverse = Row.recast h left.reverse := List.map_reverse.symm
    show LockRow h P (.ok false left.reverse) (.ok false (Row.recast h left).reverse)
    rw [reversed]
    rw [List.append_nil] at sound
    exact .ok false sound
  | cons here right ih =>
    have answers := Rule.apply_recast recast rule sound
    show LockRow h P (sweepFrom visits rule left (here :: right))
      (sweepFrom visits rule (Row.recast h left) (here.recast h :: Row.recast h right))
    unfold sweepFrom
    cases answer : rule.apply Tree.node ⟨left, here, right⟩ with
    | error o =>
      rw [answer] at answers
      generalize rule.apply Tree.node ⟨Row.recast h left, here.recast h, Row.recast h right⟩ = answer'
        at answers ⊢
      cases answers with
      | error renamed =>
        exact .objected (Rule.culprit_of_closed (fun _ => Tree.Sound.children) sound answer) renamed
    | ok fold? =>
      rw [answer] at answers
      generalize rule.apply Tree.node ⟨Row.recast h left, here.recast h, Row.recast h right⟩ = answer'
        at answers ⊢
      cases answers with
      | ok =>
        cases fold? with
        | some fold =>
          have lengths : (Row.recast h left).length = left.length := List.length_map ..
          have offsets : (fold.map (Tree.recast h) h).left.length = fold.left.length :=
            List.length_map ..
          have after : visits.after (Row.recast h left).length (fold.map (Tree.recast h) h) =
              visits.after left.length fold := by
            rw [Visits.after, Visits.after, lengths, offsets]
          have steps : ∀ t, t.Sound P → LockTree h P (visits.after left.length fold t)
              (visits.after left.length fold (t.recast h)) := by
            intro t soundT
            unfold Visits.after
            split
            · exact locked.fresh t soundT
            · exact locked.passed t soundT
          have changed := changeAt_lockstep steps left.length (Rule.sound_row answer sound)
          dsimp only [Option.map_some]
          rw [after, lengths, Fold.row_recast]
          generalize changeAt _ _ fold.row = r at changed ⊢
          generalize changeAt _ _ (fold.row.recast h) = r' at changed ⊢
          cases changed with
          | ok _ all => exact .ok true all
          | objected culprit renamed => exact .objected culprit renamed
          | exhausted rule sweeps => exact .exhausted rule sweeps
        | none =>
          have passed := locked.passed here (sound here (by simp))
          simp only [Option.map_none]
          generalize visits.passed here = r at passed ⊢
          generalize visits.passed (here.recast h) = r' at passed ⊢
          cases passed with
          | @ok _ t soundT =>
            refine ih (t :: left) fun u mem => ?_
            rw [List.reverse_cons, List.append_assoc, List.mem_append] at mem
            rcases mem with before | mem
            · exact sound u (List.mem_append_left _ before)
            · rcases List.mem_cons.mp mem with rfl | after
              · exact soundT
              · exact sound u (List.mem_append_right _ (List.mem_cons_of_mem _ after))
          | objected culprit renamed => exact .objected culprit renamed
          | exhausted rule sweeps => exact .exhausted rule sweeps

theorem fixpoint_lockstep (rule : Rule) (spent left : Nat) {row : Row}
    (sound : ∀ t ∈ row, t.Sound P) :
    LockRow h P (fixpoint visits rule spent left row)
      (fixpoint visits rule spent left (Row.recast h row)) := by
  induction left generalizing spent row with
  | zero => exact .exhausted rule spent
  | succ left ih =>
    unfold fixpoint
    refine lockstep_bind (sweepFrom_lockstep recast locked rule [] sound) fun folded row' sound' => ?_
    split
    · exact ih (spent + 1) sound'
    · exact .ok () sound'

theorem runRules_lockstep (folding : Folding) {row : Row} (sound : ∀ t ∈ row, t.Sound P) :
    LockRow h P (runRules visits folding row) (runRules visits folding (Row.recast h row)) := by
  unfold runRules
  induction folding.rules generalizing row with
  | nil => exact .ok () sound
  | cons rule rules ih =>
    exact lockstep_bind (fixpoint_lockstep recast locked rule 0 folding.sweepLimit sound)
      fun _ _ sound' => ih sound'

end Visits

include recast

/-- A run over the row with changed tokens is the changed run. -/
theorem settle_lockstep (folding : Folding) (again : Bool) (depth : Nat) {row : Row}
    (sound : ∀ t ∈ row, t.Sound P) :
    LockRow h P (settle folding again depth row) (settle folding again depth (Row.recast h row)) := by
  induction depth generalizing row with
  | zero => exact .ok () sound
  | succ depth ih =>
    have inner : ∀ t : Bare, t.Sound P →
        LockTree h P (inside (settle folding again depth) t)
          (inside (settle folding again depth) (t.recast h)) :=
      fun t => inside_lockstep fun row sound => @ih row sound
    refine runRules_lockstep recast ⟨inner, fun t soundT => ?_⟩ folding sound
    unfold visitsBy
    cases again with
    | true => exact inner t soundT
    | false => exact .ok () soundT

end Row

end SqlFold
