import Mathlib
import SqlFold.Proofs.Drawings
import SqlFold.Proofs.Lexing.Tokens
import SqlFold.Proofs.Parsing
import SqlFold.Proofs.Shapes

/-!
# Errors point at the text

Whatever rules a dialect has, the tree that a rule objects to has a first token, and this token is one of the
text (`Row.settle_culprit`). So the place of a parsing error is that of a token, and the place of a lexing error
is behind the tokens taken so far. Both are drawn with the arrows at the character that stands there
(`Dialect.error_pointsAt`).
-/

namespace SqlFold

open Text Forest

/-! ## Tokens -/

/-- A significant token starts with a character that is not blank. -/
theorem Script.Scanned.not_blank {vocabulary : Vocabulary} {cur cur' : Script.Cursor} {text rest : List Char}
    {tokens : List Token} (scanned : Script.Scanned vocabulary cur text tokens cur' rest) :
    ∀ t ∈ tokens, t.kind.isTrivia = false → ∃ c cs, t.lexeme.toList = c :: cs ∧ isBlank c = false := by
  induction scanned with
  | stop => nofun
  | @take cur cur' text rest length kind tokens more positive next _ ih =>
    refine List.forall_mem_cons.mpr ⟨fun significant => ?_, ih⟩
    obtain ⟨c, text, rfl⟩ := List.exists_cons_of_ne_nil more
    obtain ⟨length, rfl⟩ := Nat.exists_eq_succ_of_ne_zero positive.ne'
    have plain : kind.isTrivia = false := by
      rcases kind.resolveStar_cases (String.ofList ((c :: text).take (length + 1))) cur.previous with same | ⟨rfl, _⟩
      · rwa [Script.Cursor.token, same] at significant
      · rfl
    refine ⟨c, text.take length, ?_, (Scan.isBlank_of_next? next plain).1⟩
    rw [Script.Cursor.token, String.toList_ofList, List.take_succ_cons]

/-- The place of a significant token points at its first character. -/
theorem Script.pointsAt_significant {vocabulary : Vocabulary} {source : String} {script : Script} {t : Token}
    (scanned : Script.ofText? vocabulary source = .ok script) (mem : t ∈ script.significant) :
    ∃ c cs, t.lexeme.toList = c :: cs ∧ PointsAt source t.position c := by
  obtain ⟨mem, significant⟩ := List.mem_filter.mp mem
  obtain ⟨_, spells, positions⟩ := Script.spelling_of_scanned scanned
  obtain ⟨before, after, split⟩ := List.append_of_mem mem
  obtain ⟨_, _, taken⟩ := Script.scanned_of_ok scanned
  obtain ⟨c, cs, lexeme, noBlank⟩ := taken.not_blank t mem (by simpa using significant)
  refine ⟨c, cs, lexeme, ?_⟩
  rw [positions before t after split]
  refine @pointsAt_behind _ _ _ (cs ++ Token.spelling after) ?_ ?_
  · rintro rfl
    cases noBlank
  · rw [← spells, split, Token.spelling, List.flatMap_append, List.flatMap_cons, lexeme]
    rfl

/-! ## Culprits -/

/-- Tokens may stay as they are. -/
theorem Token.recast_id (P : Token → Prop) : Token.Recast id P := ⟨fun _ => rfl, fun _ => rfl, fun _ _ _ => rfl⟩

/-- A run over leaves makes trees of their tokens, or it fails because of such a tree, or for want of sweeps. -/
theorem Row.settle_culprit (folding : Folding) (again : Bool) (depth : Nat) (ts : List Token) :
    match settle folding again depth (leaves ts) with
    | .ok () row => ∀ t ∈ row, t.Sound (· ∈ ts)
    | .error (.objected o) _ => o.culprit.Sound (· ∈ ts)
    | .error (.exhausted _ _) _ => True := by
  have sound : ∀ t ∈ leaves ts, t.Sound (· ∈ ts) := by
    intro t mem
    obtain ⟨token, listed, rfl⟩ := List.mem_map.mp mem
    exact .leaf listed
  have lock := settle_lockstep (Token.recast_id (· ∈ ts)) folding again depth sound
  generalize settle folding again depth (leaves ts) = r at lock
  generalize settle folding again depth (recast id (leaves ts)) = r' at lock
  cases lock with
  | ok _ all => exact all
  | objected culprit _ => exact culprit
  | exhausted => trivial

/-- The place of a sound tree is the place of one of its tokens. -/
theorem Tree.Sound.position {P : Token → Prop} {t : Bare} (sound : t.Sound P) : ∃ k, P k ∧ t.position = k.position := by
  obtain ⟨k, leading, sort⟩ := sound.leading
  refine ⟨k, sort, ?_⟩
  rw [Tree.position, leading]
  rfl

namespace Dialect

variable {dialect : Dialect} {source : String} {script : Script} {f : Forest} {e : Error}

/-! ## Where runs fail -/

/-- A text that can be cut into tokens and is not parsed fails at one of its tokens, unless a rule is not at rest
in time. -/
theorem position_of_parse (scanned : Script.ofText? dialect.vocabulary source = .ok script)
    (failed : dialect.parse source = .error e) :
    (∃ fault, ∃ t ∈ script.significant, e = .parsing fault ⟨script.source, t.position⟩) ∨
      ∃ violation, e = .violation violation := by
  rw [parse_eq, scanned] at failed
  dsimp only at failed
  cases result : (dialect.folding.runWith false root (.ofScript script)).result with
  | ok =>
    rw [result] at failed
    cases failed
  | error e' =>
    rw [result] at failed
    cases failed
    have ends := dialect.folding.runWith_ends false script (Nat.lt_succ_self _)
    have culprit := Row.settle_culprit dialect.folding false (script.significant.length + 1) script.significant
    generalize Row.settle dialect.folding false _ _ = ending at ends culprit
    cases ends with
    | ok done => cases done.symm.trans result
    | @error failure _ failed _ =>
      cases failed.symm.trans result
      cases failure with
      | exhausted rule sweeps => exact .inr ⟨_, rfl⟩
      | objected o =>
        obtain ⟨t, mem, position⟩ := Tree.Sound.position culprit
        exact .inl ⟨o.fault, t, mem, by rw [Failure.error, position]⟩

/-- A node at the root of a store that was parsed stands where one of the tokens does. -/
theorem position_of_listed (scanned : Script.ofText? dialect.vocabulary source = .ok script)
    (ok : dialect.parse source = .ok f) :
    f.source = script.source ∧ ∀ r ∈ f.childList root, ∃ t ∈ script.significant, f.position r = t.position := by
  rw [parse_eq, scanned] at ok
  dsimp only at ok
  cases result : (dialect.folding.runWith false root (.ofScript script)).result with
  | error e =>
    rw [result] at ok
    cases ok
  | ok =>
    rw [result] at ok
    cases ok
    have ready : Folding.Ready (ofScript script) root := by
      obtain ⟨start, _⟩ := Folding.start_ofScript false script false
      exact start.ready
    have confined := (Folding.runWith_changes dialect.folding false ready).confined ready
    have ends := dialect.folding.runWith_ends false script (Nat.lt_succ_self _)
    have trees := Row.settle_culprit dialect.folding false (script.significant.length + 1) script.significant
    generalize Row.settle dialect.folding false _ _ = ending at ends trees
    refine ⟨confined.source.trans (source_ofScript script), fun r listed => ?_⟩
    cases ends with
    | error failed => cases failed.symm.trans result
    | @ok row _ shown =>
      have placed : (dialect.folding.runWith false root (.ofScript script)).forest.bare r ∈ row := by
        have children := confined.coherent.node_bare root
        rw [shown] at children
        have rows := congrArg Node.children children
        rw [Node.children_map, Tree.node, Node.children_root] at rows
        exact rows ▸ List.mem_map_of_mem (mem_children_of_mem_childList listed)
      obtain ⟨t, mem, position⟩ := (trees _ placed).position
      exact ⟨t, mem, by rw [← position_bare, position]⟩

/-- Where a run over the leaves fails, the text is answered with this failure. -/
theorem parse_of_failure {failure : Failure} {row : Row} (scanned : Script.ofText? dialect.vocabulary source = .ok script)
    (failed : Row.settle dialect.folding false (script.significant.length + 1) (Row.leaves script.significant) =
      .error failure row) :
    dialect.parse source = .error (failure.error script.source) := by
  have ends := dialect.folding.runWith_ends false script (Nat.lt_succ_self _)
  rw [failed] at ends
  cases ends with
  | error result =>
    rw [parse_eq, scanned]
    dsimp only
    rw [result]
    rfl

/-! ## Errors -/

/-- An error of a text that is parsed, with statements of some kinds wanted or not, is an error about this text,
and its drawing points at a character.

* A lexing error is about the first character that no scanning rule takes.
* Where the scanner stands still the error is about the character where it does.
* A parsing error is about the first character of a token that the grammar sees. -/
theorem error_pointsAt (failed : dialect.parse source = .error e ∨ ∃ wanted, dialect.parseOnly source wanted = .error e) :
    match e with
    | .lexing site =>
      site.source = source ∧ ∃ before c rest, source.toList = before ++ c :: rest ∧
        Scan.Stuck dialect.vocabulary before.getLast? (c :: rest) ∧ site.position = .behind before ∧
          PointsAt source site.position c
    | .standstill site =>
      site.source = source ∧ ∃ before c rest, source.toList = before ++ c :: rest ∧
        (∃ kind, Scan.next? dialect.vocabulary before.getLast? (c :: rest) = some (0, kind)) ∧
          site.position = .behind before ∧ PointsAt source site.position c
    | .parsing _ site =>
      site.source = source ∧ ∃ script, Script.ofText? dialect.vocabulary source = .ok script ∧
        ∃ t ∈ script.significant, site.position = t.position ∧
          ∃ c cs, t.lexeme.toList = c :: cs ∧ PointsAt source site.position c
    | .violation _ => True := by
  cases scanned : Script.ofText? dialect.vocabulary source with
  | error failure =>
    -- Wanted or not, there are no statements.
    have unscanned : dialect.parse source = .error (scanError source failure) := by
      rw [parse_eq, scanned]
    obtain rfl : scanError source failure = e := by
      rcases failed with failed | ⟨wanted, failed⟩
      · exact Except.error.inj (unscanned.symm.trans failed)
      · rw [parseOnly, unscanned] at failed
        exact Except.error.inj failed
    have points {before : List Char} {c : Char} {rest : List Char} (split : source.toList = before ++ c :: rest)
        (other : isBlank c = false) : PointsAt source (.behind before) c := by
      refine pointsAt_behind (fun newline => ?_) split
      rw [newline] at other
      cases other
    cases failure with
    | unmatched place =>
      obtain ⟨tokens, _, rest, _, split, rfl, more, stuck⟩ := Script.stuck_of_unmatched scanned
      obtain ⟨c, rest, rfl⟩ := List.exists_cons_of_ne_nil more
      refine ⟨rfl, _, c, rest, split, stuck, rfl, points split (Bool.eq_false_iff.mpr fun blank => ?_)⟩
      have blanks := stuck.blanks
      rw [Scan.run?, List.takeWhile_cons_of_pos blank] at blanks
      cases blanks
    | standstill place =>
      obtain ⟨tokens, _, rest, _, split, rfl, more, kind, still⟩ := Script.still_of_standstill scanned
      obtain ⟨c, rest, rfl⟩ := List.exists_cons_of_ne_nil more
      refine ⟨rfl, _, c, rest, split, ⟨kind, still⟩, rfl, points split (Bool.eq_false_iff.mpr fun blank => ?_)⟩
      rw [Scan.next?, Scan.run?, List.takeWhile_cons_of_pos blank] at still
      cases still
  | ok script =>
    obtain ⟨rfl, _⟩ := Script.spelling_of_scanned scanned
    have answer : (∃ fault, ∃ t ∈ script.significant, e = .parsing fault ⟨script.source, t.position⟩) ∨
        ∃ violation, e = .violation violation := by
      rcases failed with failed | ⟨wanted, failed⟩
      · exact position_of_parse scanned failed
      · cases parsed : dialect.parse script.source with
        | error e' =>
          rw [parseOnly, parsed] at failed
          cases failed
          exact position_of_parse scanned parsed
        | ok f =>
          obtain ⟨source, listed⟩ := position_of_listed scanned parsed
          rw [parseOnly, parsed] at failed
          dsimp only [bind, Except.bind] at failed
          split at failed
          · next r found =>
            cases failed
            have statement := List.mem_of_mem_filter (List.mem_of_find?_eq_some found)
            obtain ⟨t, mem, position⟩ := listed r statement
            exact .inl ⟨_, t, mem, by rw [locate, source, position]⟩
          · cases failed
    rcases answer with ⟨fault, t, mem, rfl⟩ | ⟨violation, rfl⟩
    · exact ⟨rfl, script, rfl, t, mem, rfl, Script.pointsAt_significant scanned mem⟩
    · trivial

/-- The error about a condition without an expression points at its keyword. -/
theorem error_pointsAt_where :
    ∃ site, Dialect.standard.parse "SELECT 1\nWHERE" =
        .error (.parsing (.expected .expression (some (.lexeme "WHERE")) none) site) ∧
      PointsAt "SELECT 1\nWHERE" site.position 'W' := by
  let whereWord : Token := ⟨.whereKw, "WHERE", ⟨1, 0⟩⟩
  let script : Script := ⟨"SELECT 1\nWHERE", [⟨.selectKw, "SELECT", ⟨0, 0⟩⟩, ⟨.whitespace, " ", ⟨0, 6⟩⟩,
    ⟨.numericLiteral, "1", ⟨0, 7⟩⟩, ⟨.whitespace, "\n", ⟨0, 8⟩⟩, whereWord]⟩
  have scanned : Script.ofText? .standard "SELECT 1\nWHERE" = .ok script :=
    Script.ofText?_standard (by decide +kernel)
  have settled : Row.settle (.standard Folding.standardLimit) false 4 (Row.leaves script.significant) =
      .error (.objected ⟨.mk () (.leaf whereWord), .expected .expression (some (.lexeme "WHERE")) none⟩)
        [.mk () (.leaf ⟨.selectKw, "SELECT", ⟨0, 0⟩⟩), .mk () (.literal ⟨none, ⟨.numericLiteral, "1", ⟨0, 7⟩⟩⟩),
          .mk () (.leaf whereWord)] := by
    cbv
  have failed := @parse_of_failure Dialect.standard _ _ _ _ scanned settled
  obtain ⟨_, _, scanned', t, mem, position, c, cs, lexeme, points⟩ := error_pointsAt (.inl failed)
  cases scanned.symm.trans scanned'
  -- Only one of the tokens stands there.
  have tokens : ∀ t ∈ script.significant, t.position = ⟨1, 0⟩ → t.lexeme.toList.head? = some 'W' := by decide
  have first := tokens t mem position.symm
  rw [lexeme] at first
  cases first
  exact ⟨_, failed, points⟩

end Dialect

end SqlFold
