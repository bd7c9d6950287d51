import SqlFold.Proofs.Lexing.Tokens
import SqlFold.Proofs.Limits
import SqlFold.Proofs.Parsing
import SqlFold.Proofs.Rows.Lifting

/-!
# Violations

The only violation that a text is ever answered with is that the limit on sweeps is exceeded, and only a text
with at least as many tokens as the limit allows sweeps is answered so (`Dialect.parse_violation`). But such
texts there are: a rule needs one sweep for every fold, so a text of `limit` values is too long
(`Dialect.parse_values`), although nothing is wrong with it.
-/

namespace SqlFold

open Text

/-! ## What a violation says of the text -/

namespace Dialect

variable {vocabulary : Vocabulary} {limit : Nat} {source : String}

/-- A text that is answered with a violation has at least as many tokens as the limit allows sweeps, and a rule
needs more sweeps than that. With a limit above the number of tokens the same text is answered with no
violation. -/
theorem parse_violation {v : Violation}
    (failed : (Dialect.mk vocabulary (.standard limit)).parse source = .error (.violation v)) :
    ∃ script rule sweeps, Script.ofText? vocabulary source = .ok script ∧ v = .sweepLimitExceeded rule sweeps ∧
      limit ≤ script.significant.length ∧
        ∀ enough, script.significant.length < enough →
          ∀ v', (Dialect.mk vocabulary (.standard enough)).parse source ≠ .error (.violation v') := by
  rw [parse_eq] at failed
  cases scanned : Script.ofText? vocabulary source with
  | error e =>
    rw [scanned] at failed
    cases e <;> cases failed
  | ok script =>
    -- A run fails as the run over its row does: a rule objects, or it is not at rest in time.
    have run_failed {limit : Nat} {v : Violation}
        (failed : (Dialect.mk vocabulary (.standard limit)).parse source = .error (.violation v)) :
        ∃ rule sweeps, v = .sweepLimitExceeded rule sweeps ∧ limit ≤ script.significant.length := by
      rw [parse_eq, scanned] at failed
      dsimp only at failed
      cases result : ((Folding.standard limit).runWith false Forest.root (.ofScript script)).result with
      | ok =>
        rw [result] at failed
        cases failed
      | error e =>
        rw [result] at failed
        cases failed
        have ends := (Folding.standard limit).runWith_ends false script (Nat.lt_succ_self _)
        obtain ⟨failure, eq⟩ := ends.failure result
        cases failure with
        | objected => cases eq
        | exhausted rule sweeps =>
          cases eq
          refine ⟨rule, sweeps, rfl, Nat.le_of_not_lt fun enough => ?_⟩
          exact Folding.runWith_not_exceeded (.standard limit) false script enough result ⟨rule, sweeps, rfl⟩
    rw [← parse_eq] at failed
    obtain ⟨rule, sweeps, rfl, few⟩ := run_failed failed
    refine ⟨script, rule, sweeps, rfl, rfl, few, fun enough above v' failed' => ?_⟩
    obtain ⟨_, _, _, few'⟩ := run_failed failed'
    omega

end Dialect

/-! ## Rows of values -/

namespace Row

variable {ts : List Token}

/-- The literals that tokens stand for by themselves. -/
def values (ts : List Token) : Row := ts.map fun t => .mk () (.literal ⟨none, t⟩)

variable (areValues : ∀ t ∈ ts, Rule.isValueKind t.kind = true)

include areValues

/-- There are no brackets among values. -/
theorem grouped_values (previous : Option Bare) : Grouped Parses previous (leaves ts) (leaves ts) := by
  induction ts generalizing previous with
  | nil => exact .nil
  | cons t ts ih =>
    obtain ⟨isValue, areValues⟩ := List.forall_mem_cons.mp areValues
    have noBracket : opens (.mk () (.leaf t)) = false ∧ closes (.mk () (.leaf t)) = false := by
      show (some t.kind == some .bracketOpen) = false ∧ (some t.kind == some .bracketClose) = false
      revert isValue
      generalize t.kind = kind
      cases kind <;> decide
    exact .cons rfl noBracket.1 noBracket.2 (ih areValues _)

/-- `Rule.literal` folds every value. -/
theorem turns_values : Turns .literal (leaves ts) (values ts) := by
  induction ts with
  | nil => exact .nil
  | cons t ts ih =>
    obtain ⟨isValue, areValues⟩ := List.forall_mem_cons.mp areValues
    refine @Turns.fold _ _ [.mk () (.leaf t)] _ _ rfl (fun left _ => ?_) (ih areValues)
    refine ⟨.mk () (.leaf t), [], ⟨left, .literal ⟨none, t⟩, leaves ts⟩, rfl, ?_, rfl, rfl, rfl⟩
    have token : (Tree.node (.mk () (.leaf t) : Bare)).token? = some t := rfl
    simp only [Rule.apply, Rule.applyLiteral, token, isValue, if_true]
    rfl

/-- Values are parsed to literals. -/
theorem parses_values : Parses (leaves ts) (values ts) := by
  refine .mk (grouped_values areValues none) (.cons ?_ (.cons (turns_values areValues).rests ?_))
  · have idle : Idle .call (leaves ts) := idle_leaves fun t mem => by
      have isValue := areValues t mem
      revert isValue
      generalize t.kind = kind
      cases kind <;> decide
    simpa using (Turns.passes idle .nil).rests
  · -- No rule behind `Rule.literal` has anything to do where there are only literals.
    have rests {rules : List Rule} (others : ∀ rule ∈ rules, rule ≠ .bracket) :
        RestsAll rules (values ts) (values ts) := by
      induction rules with
      | nil => exact .nil
      | cons rule rules ih =>
        obtain ⟨other, others⟩ := List.forall_mem_cons.mp others
        refine .cons (.rest ?_) (ih others)
        by_cases operators : rule ∈ [Rule.membership, .operation, .conjunction]
        · exact declined_noLeaf operators (List.forall_mem_map.mpr fun _ _ => rfl)
        · have idle : Idle rule (values ts).reverse := by
            intro t mem
            obtain ⟨u, _, rfl⟩ := List.mem_map.mp (List.mem_reverse.mp mem)
            show rule.startsAtNode .literal = false
            revert operators other
            cases rule <;> decide
          simpa using idle.declined
    exact rests (by decide)

omit areValues

theorem made_values (ts : List Token) : (values ts).made .literal = ts.length := by
  induction ts with
  | nil => rfl
  | cons t ts ih =>
    have one : (Tree.mk () (.literal ⟨none, t⟩) : Bare).made .literal = 1 := by
      simp [Tree.made_mk, Rule.madeAt, Node.kind, Rule.makes]
    rw [values, List.map_cons, made_cons, one, ← values, ih, List.length_cons, Nat.add_comm]

/-- As many values are within a limit as it allows sweeps, but for the last sweep. -/
theorem within_values {limit : Nat} : (values ts).Within limit ↔ ts.length < limit := by
  constructor
  · intro within
    have few := within.made .literal
    rwa [made_values] at few
  · intro few
    refine ⟨fun rule => ?_, List.forall_mem_map.mpr fun t _ => .of_children_nil rfl rfl⟩
    by_cases literal : rule = .literal
    · rwa [literal, made_values]
    · have none : (values ts).made rule = 0 := by
        clear few
        induction ts with
        | nil => rfl
        | cons t ts ih =>
          have none : (Tree.mk () (.literal ⟨none, t⟩) : Bare).made rule = 0 := by
            revert literal
            cases rule <;> simp [Tree.made_mk, Rule.madeAt, Node.kind, Node.aliases, Rule.makes]
          rw [values, List.map_cons, made_cons, none, ← values, ih]
      omega

end Row

/-! ## Texts of values -/

namespace Dialect

variable {vocabulary : Vocabulary} {limit : Nat} {source : String} {script : Script}

/-- A text of values is parsed if the limit allows more sweeps than there are values. Otherwise it is answered
with a violation. -/
theorem parse_values (scanned : Script.ofText? vocabulary source = .ok script)
    (areValues : ∀ t ∈ script.significant, Rule.isValueKind t.kind = true) :
    if script.significant.length < limit then
      ∃ f, (Dialect.mk vocabulary (.standard limit)).parse source = .ok f ∧
        f.bare Forest.root = .mk () (.root (Row.values script.significant))
    else
      ∃ rule sweeps, (Dialect.mk vocabulary (.standard limit)).parse source =
        .error (.violation (.sweepLimitExceeded rule sweeps)) := by
  have parses := Row.parses_values areValues
  split
  · next few =>
    obtain ⟨f, ok, parsed⟩ := parse_of_parses scanned parses (Row.within_values.mpr few)
    exact ⟨f, ok, parsed.bare⟩
  · next many =>
    rcases Folding.runWith_cut Rule.standard false script (Nat.le_succ_of_le (Nat.le_of_not_lt many)) with
      same | ⟨_, exceeded, rule, sweeps, rfl⟩
    · -- The run with a large limit folds all values, so the run with this one would be within its limit.
      obtain ⟨result, bare⟩ :=
        (Folding.runWith_ok_iff false (Nat.lt_succ_self script.significant.length) _).mpr parses
      have result : ((Folding.standard limit).runWith false Forest.root (.ofScript script)).result = .ok () :=
        (congrArg Folding.Run.result same).trans result
      obtain ⟨row, _, within, bare'⟩ := Folding.exists_parses false result
      have bare : ((Folding.standard limit).runWith false Forest.root (.ofScript script)).forest.bare Forest.root =
          .mk () (.root (Row.values script.significant)) :=
        (congrArg (fun run => run.forest.bare Forest.root) same).trans bare
      obtain rfl : Row.values script.significant = row := by simpa using bare.symm.trans bare'
      exact absurd (Row.within_values.mp within) many
    · refine ⟨rule, sweeps, ?_⟩
      rw [parse_eq, scanned]
      dsimp only
      rw [show ((Folding.standard limit).runWith false Forest.root (.ofScript script)).result = _ from exceeded]
      rfl

/-- The text of `n` prepared arguments. -/
def arguments (n : Nat) : String := .ofList (List.replicate n '?')

theorem tokensFrom_arguments (cur : Script.Cursor) (n : Nat) :
    ∃ ts, Script.tokensFrom .standard cur (List.replicate n '?') = .ok ts ∧ ts.length = n ∧
      ∀ t ∈ ts, t.kind = .preparedArgument := by
  induction n generalizing cur with
  | zero => exact ⟨[], by rw [Script.tokensFrom]; rfl, rfl, nofun⟩
  | succ n ih =>
    have apart : (List.replicate n '?').head?.any isWordChar = false := by
      cases n <;> rfl
    have found : Scan.next? .standard cur.before (['?'] ++ List.replicate n '?') =
        some (1, .preparedArgument) :=
      @Scan.next?_preparedArgument _ [] _ ['?'] rfl (List.cons_ne_nil _ _) apart
    obtain ⟨ts, rest, length, kinds⟩ := ih (cur.past .preparedArgument ['?'])
    refine ⟨cur.token .preparedArgument ['?'] :: ts, ?_, by rw [List.length_cons, length], ?_⟩
    · rw [Script.tokensFrom, List.replicate_succ, if_neg (List.cons_ne_nil _ _), ← List.singleton_append, found]
      have kind : (cur.token .preparedArgument ['?']).kind = .preparedArgument := by
        simp [Script.Cursor.token, TokenKind.resolveStar]
      have taken : (['?'] ++ List.replicate n '?').take 1 = ['?'] := rfl
      have left : (['?'] ++ List.replicate n '?').drop 1 = List.replicate n '?' := rfl
      simp only [taken, left, kind, rest]
      rw [dif_pos (by simp)]
      rfl
    · exact List.forall_mem_cons.mpr ⟨by simp [Script.Cursor.token, TokenKind.resolveStar], kinds⟩

/-- The standard dialect answers a long list of prepared arguments with a violation: there is one token for each,
and nothing is wrong with any of them. -/
theorem parse_arguments {n : Nat} (many : Folding.standardLimit ≤ n) :
    ∃ rule sweeps, Dialect.standard.parse (arguments n) = .error (.violation (.sweepLimitExceeded rule sweeps)) := by
  obtain ⟨ts, cut, length, kinds⟩ := tokensFrom_arguments .start n
  have scanned : Script.ofText? .standard (arguments n) = .ok ⟨arguments n, ts⟩ := by
    rw [Script.ofText?, arguments, String.toList_ofList, cut]
    rfl
  have significant : (Script.mk (arguments n) ts).significant = ts := by
    refine List.filter_eq_self.mpr fun t mem => ?_
    rw [kinds t mem]
    rfl
  have answer := @parse_values _ Folding.standardLimit _ _ scanned (by
    rw [significant]
    intro t mem
    rw [kinds t mem]
    rfl)
  rwa [significant, length, if_neg (by omega)] at answer

/-- As many prepared arguments as there may be sweeps are not parsed. -/
theorem parse_standardLimit_arguments :
    ∃ rule sweeps, Dialect.standard.parse (arguments 10000) =
      .error (.violation (.sweepLimitExceeded rule sweeps)) :=
  parse_arguments (Nat.le_refl Folding.standardLimit)

/-- There are as many tokens as there may be sweeps, and a larger limit is enough for them. -/
theorem parse_violation_arguments :
    ∃ script, Script.ofText? .standard (arguments 10000) = .ok script ∧ 10000 ≤ script.significant.length ∧
      ∀ v, (Dialect.mk .standard (.standard (script.significant.length + 1))).parse (arguments 10000) ≠
        .error (.violation v) := by
  obtain ⟨rule, sweeps, failed⟩ := parse_arguments (Nat.le_refl Folding.standardLimit)
  obtain ⟨script, _, _, scanned, _, many, enough⟩ := parse_violation failed
  exact ⟨script, scanned, many, enough _ (Nat.lt_succ_self _)⟩

end Dialect

end SqlFold
