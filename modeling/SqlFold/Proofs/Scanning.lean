import Mathlib.Data.List.Induction
import SqlFold.Token.Script

/-!
# No character is lost

`Script.Scanned` relates a text to the tokens that the scanner takes from its front and to the place where
the scanner stands then. Whatever the vocabulary is, the tokens taken are the text behind the scanner, each
at the place that is counted from the newlines before it (`Script.ofText?_lossless`). The scanner stops at
the end of the text, at a place where no scanning rule matches, or where an entry without characters is all
that matches.
-/

namespace SqlFold

open Text

/-! ## Places, counted -/

namespace Text.Position

/-- The place right behind a text: the number of its newlines, and the number of characters behind the last
of them. -/
def behind (cs : List Char) : Position :=
  ⟨cs.count '\n', (cs.reverse.takeWhile (· ≠ '\n')).length⟩

theorem behind_concat (cs : List Char) (c : Char) : behind (cs ++ [c]) = (behind cs).step c := by
  rw [behind, behind, step, List.count_append, List.reverse_append]
  by_cases newline : c = '\n'
  · simp [newline]
  · simp [newline]

/-- Going over a text from its start counts the newlines, and the characters behind the last. -/
theorem start_advance (cs : List Char) : start.advance cs = behind cs := by
  induction cs using List.reverseRecOn with
  | nil => rfl
  | append_singleton cs c ih => rw [advance_append, ih, behind_concat, advance_cons, advance_nil]

/-- One place is before another in the text. -/
def Before (p q : Position) : Prop := p.line < q.line ∨ p.line = q.line ∧ p.column < q.column

theorem Before.irrefl (p : Position) : ¬p.Before p := by
  unfold Before
  omega

theorem Before.trans {p q r : Position} (first : p.Before q) (second : q.Before r) : p.Before r := by
  unfold Before at *
  omega

theorem before_step (p : Position) (c : Char) : p.Before (p.step c) := by
  unfold Before step
  split
  · exact .inl (Nat.lt_succ_self _)
  · exact .inr ⟨rfl, Nat.lt_succ_self _⟩

/-- Every text takes the place further. -/
theorem before_advance (p : Position) {cs : List Char} (some : cs ≠ []) :
    p.Before (p.advance cs) := by
  induction cs generalizing p with
  | nil => exact absurd rfl some
  | cons c cs ih =>
    rw [advance_cons]
    cases cs with
    | nil => exact p.before_step c
    | cons d cs => exact (p.before_step c).trans (ih (p.step c) (List.cons_ne_nil d cs))

end Text.Position

/-! ## Where no rule matches -/

/-- No scanning rule takes anything from the front of a text. -/
structure Scan.Stuck (vocabulary : Vocabulary) (before : Option Char) (text : List Char) : Prop where
  blanks : run? isBlank text = none
  comment : comment? text = none
  single : string? '\x27' text = none
  double : string? '"' text = none
  entry : vocabulary.longest? before text = none
  number : number? text = none
  quotedName : quotedName? text = none
  identifier : identifier? text = none
  preparedArgument : preparedArgument? text = none

theorem Scan.next?_eq_none {vocabulary : Vocabulary} {before : Option Char} {text : List Char}
    (none : next? vocabulary before text = none) : Stuck vocabulary before text := by
  simp only [next?, Option.or_eq_none_iff, Option.map_eq_none_iff] at none
  obtain ⟨blanks, comment, ⟨single, double⟩, entry, number, quotedName, identifier, argument⟩ := none
  exact ⟨blanks, comment, single, double, entry, number, quotedName, identifier, argument⟩

/-! ## The scanner -/

/-- The characters of tokens, one token after the other. -/
def Token.spelling (ts : List Token) : List Char := ts.flatMap fun t => t.lexeme.toList

namespace Script

variable {vocabulary : Vocabulary}

/-- From one cursor to another the scanner takes tokens from the front of a text and leaves the rest. -/
inductive Scanned (vocabulary : Vocabulary) :
    Cursor → List Char → List Token → Cursor → List Char → Prop
  | stop {cur : Cursor} {text : List Char} : Scanned vocabulary cur text [] cur text
  | take {cur cur' : Cursor} {text rest : List Char} {length : Nat} {kind : TokenKind}
      {tokens : List Token} :
      text ≠ [] → 0 < length → Scan.next? vocabulary cur.before text = some (length, kind) →
        Scanned vocabulary (cur.past (cur.token kind (text.take length)).kind (text.take length))
          (text.drop length) tokens cur' rest →
            Scanned vocabulary cur text (cur.token kind (text.take length) :: tokens) cur' rest

/-- Every token stands right behind the spelling of those before it, where `done` is behind all. -/
def Located (done : List Char) : List Token → Prop
  | [] => True
  | t :: ts => t.position = Position.behind done ∧ Located (done ++ t.lexeme.toList) ts

/-- A token among located ones stands behind the text that the tokens before it spell. -/
theorem Located.position {done : List Char} {before after : List Token} {t : Token}
    (located : Located done (before ++ t :: after)) :
    t.position = Position.behind (done ++ Token.spelling before) := by
  induction before generalizing done with
  | nil =>
    rw [Token.spelling, List.flatMap_nil, List.append_nil]
    exact located.1
  | cons u before ih =>
    have later := ih located.2
    rwa [List.append_assoc] at later

namespace Scanned

variable {cur cur' : Cursor} {text rest : List Char} {tokens : List Token}

/-- The tokens taken spell what the scanner leaves behind. -/
theorem text_eq (scanned : Scanned vocabulary cur text tokens cur' rest) :
    text = Token.spelling tokens ++ rest := by
  induction scanned with
  | stop => rfl
  | @take cur cur' text rest length kind tokens _ _ _ _ ih =>
    rw [Token.spelling, List.flatMap_cons, List.append_assoc, ← Token.spelling, ← ih]
    simp [Cursor.token]

/-- What the scanner remembers of the text behind it. -/
theorem cursor (scanned : Scanned vocabulary cur text tokens cur' rest) (done : List Char)
    (position : cur.position = Position.behind done) (before : cur.before = done.getLast?) :
    cur'.position = Position.behind (done ++ Token.spelling tokens) ∧
      cur'.before = (done ++ Token.spelling tokens).getLast? ∧ Located done tokens := by
  induction scanned generalizing done with
  | stop => exact ⟨by simpa [Token.spelling] using position, by simpa [Token.spelling] using before, trivial⟩
  | @take cur cur' text rest length kind tokens _ _ _ _ ih =>
    have lexeme : (cur.token kind (text.take length)).lexeme.toList = text.take length := by
      simp [Cursor.token]
    obtain ⟨position', before', located⟩ := ih (done ++ text.take length)
      (by
        rw [Cursor.past, position, ← Position.start_advance, ← Position.start_advance,
          Position.advance_append])
      (by
        rw [Cursor.past, before, List.getLast?_append])
    refine ⟨?_, ?_, position, ?_⟩
    · rwa [Token.spelling, List.flatMap_cons, lexeme, ← List.append_assoc]
    · rwa [Token.spelling, List.flatMap_cons, lexeme, ← List.append_assoc]
    · rwa [lexeme]

end Scanned

/-- The tokens taken stand one behind the other, none before the cursor. -/
theorem Scanned.increasing {cur cur' : Cursor} {text rest : List Char} {tokens : List Token}
    (scanned : Scanned vocabulary cur text tokens cur' rest) :
    (tokens.map Token.position).Pairwise Position.Before ∧
      ∀ t ∈ tokens, t.position = cur.position ∨ cur.position.Before t.position := by
  induction scanned with
  | stop => exact ⟨.nil, nofun⟩
  | @take cur cur' text rest length kind tokens more positive _ _ ih =>
    obtain ⟨increasing, behind⟩ := ih
    have some : text.take length ≠ [] := by
      rw [← List.length_pos_iff] at more ⊢
      rw [List.length_take]
      omega
    have further : cur.position.Before (cur.position.advance (text.take length)) :=
      cur.position.before_advance some
    have later {t : Token} (mem : t ∈ tokens) : cur.position.Before t.position := by
      rcases behind t mem with eq | before
      · exact eq ▸ further
      · exact further.trans before
    refine ⟨?_, ?_⟩
    · rw [List.map_cons, List.pairwise_cons]
      refine ⟨fun p mem => ?_, increasing⟩
      obtain ⟨t, listed, rfl⟩ := List.mem_map.mp mem
      exact later listed
    · rintro t (_ | ⟨_, mem⟩)
      · exact .inl rfl
      · exact .inr (later mem)

/-- How the scanner ends, from a cursor on. -/
inductive Ends (vocabulary : Vocabulary) (cur : Cursor) (text : List Char) :
    Except ScanFailure (List Token) → Prop
  | done {tokens : List Token} {cur' : Cursor} : Scanned vocabulary cur text tokens cur' [] →
      Ends vocabulary cur text (.ok tokens)
  | unmatched {tokens : List Token} {cur' : Cursor} {rest : List Char} :
      Scanned vocabulary cur text tokens cur' rest → rest ≠ [] →
        Scan.next? vocabulary cur'.before rest = none →
          Ends vocabulary cur text (.error (.unmatched cur'.position))
  | standstill {tokens : List Token} {cur' : Cursor} {rest : List Char} {kind : TokenKind} :
      Scanned vocabulary cur text tokens cur' rest → rest ≠ [] →
        Scan.next? vocabulary cur'.before rest = some (0, kind) →
          Ends vocabulary cur text (.error (.standstill cur'.position))

theorem tokensFrom_ends (vocabulary : Vocabulary) (cur : Cursor) (text : List Char) :
    Ends vocabulary cur text (tokensFrom vocabulary cur text) := by
  induction text using WellFounded.induction (measure List.length).wf generalizing cur with
  | _ text ih =>
    unfold tokensFrom
    by_cases empty : text = []
    · rw [if_pos empty, empty]
      exact .done .stop
    · rw [if_neg empty]
      cases next : Scan.next? vocabulary cur.before text with
      | none => exact .unmatched .stop empty next
      | some found =>
        obtain ⟨length, kind⟩ := found
        dsimp only
        by_cases progress : (text.drop length).length < text.length
        · have positive : 0 < length := by
            rw [List.length_drop] at progress
            omega
          rw [dif_pos progress]
          have rest := ih _ progress (cur.past (cur.token kind (text.take length)).kind (text.take length))
          generalize tokensFrom vocabulary _ (text.drop length) = result at rest
          cases rest with
          | done scanned => exact .done (.take empty positive next scanned)
          | unmatched scanned more none => exact .unmatched (.take empty positive next scanned) more none
          | standstill scanned more still => exact .standstill (.take empty positive next scanned) more still
        · rw [dif_neg progress]
          have still : length = 0 := by
            have positive := List.length_pos_iff.mpr empty
            rw [List.length_drop] at progress
            omega
          exact .standstill .stop empty (still ▸ next)

/-- The scanner takes the token in front and goes on behind it. -/
theorem tokensFrom_take {cur : Cursor} {cs rest : List Char} {kind : TokenKind} (some : cs ≠ [])
    (next : Scan.next? vocabulary cur.before (cs ++ rest) = .some (cs.length, kind)) :
    tokensFrom vocabulary cur (cs ++ rest) =
      (tokensFrom vocabulary (cur.past (cur.token kind cs).kind cs) rest).map (cur.token kind cs :: ·) := by
  have progress : ((cs ++ rest).drop cs.length).length < (cs ++ rest).length := by
    have positive := List.length_pos_iff.mpr some
    rw [List.drop_left, List.length_append]
    omega
  rw [tokensFrom, if_neg (List.append_ne_nil_of_left_ne_nil some rest), next]
  dsimp only
  rw [dif_pos progress, List.take_left, List.drop_left]

section Texts

variable {vocabulary : Vocabulary} {source : String} {script : Script} {place : Position}

/-- Where a text is cut into tokens, the scanner has taken them all and left nothing. -/
theorem scanned_of_ok (scanned : ofText? vocabulary source = .ok script) :
    script.source = source ∧ ∃ cur, Scanned vocabulary .start source.toList script.tokens cur [] := by
  have ends := tokensFrom_ends vocabulary .start source.toList
  unfold ofText? at scanned
  generalize tokensFrom vocabulary .start source.toList = result at ends scanned
  cases ends with
  | done taken =>
    cases scanned
    exact ⟨rfl, _, taken⟩
  | _ => cases scanned

/-- The tokens of a text spell it and stand where they are found in it. -/
theorem spelling_of_scanned (scanned : ofText? vocabulary source = .ok script) :
    script.source = source ∧ Token.spelling script.tokens = source.toList ∧
      ∀ before t after, script.tokens = before ++ t :: after →
        t.position = Position.behind (Token.spelling before) := by
  obtain ⟨same, _, taken⟩ := scanned_of_ok scanned
  refine ⟨same, by simpa using taken.text_eq.symm, fun before t after split => ?_⟩
  obtain ⟨_, _, located⟩ := taken.cursor [] rfl rfl
  rw [split] at located
  exact located.position

/-- Where no rule matches, the tokens taken so far spell what is before this place. -/
theorem stuck_of_unmatched (failed : ofText? vocabulary source = .error (.unmatched place)) :
    ∃ tokens cur rest, Scanned vocabulary .start source.toList tokens cur rest ∧
      source.toList = Token.spelling tokens ++ rest ∧ place = Position.behind (Token.spelling tokens) ∧
        rest ≠ [] ∧ Scan.Stuck vocabulary (Token.spelling tokens).getLast? rest := by
  have ends := tokensFrom_ends vocabulary .start source.toList
  unfold ofText? at failed
  generalize tokensFrom vocabulary .start source.toList = result at ends failed
  cases ends with
  | unmatched scanned more none =>
    cases failed
    obtain ⟨position, before, _⟩ := scanned.cursor [] rfl rfl
    exact ⟨_, _, _, scanned, scanned.text_eq, position, more, before ▸ Scan.next?_eq_none none⟩
  | _ => cases failed

/-- Where the scanner stands still, the tokens taken so far spell what is before this place. -/
theorem still_of_standstill (failed : ofText? vocabulary source = .error (.standstill place)) :
    ∃ tokens cur rest, Scanned vocabulary .start source.toList tokens cur rest ∧
      source.toList = Token.spelling tokens ++ rest ∧ place = Position.behind (Token.spelling tokens) ∧
        rest ≠ [] ∧ ∃ kind, Scan.next? vocabulary (Token.spelling tokens).getLast? rest = some (0, kind) := by
  have ends := tokensFrom_ends vocabulary .start source.toList
  unfold ofText? at failed
  generalize tokensFrom vocabulary .start source.toList = result at ends failed
  cases ends with
  | standstill scanned more still =>
    cases failed
    obtain ⟨position, before, _⟩ := scanned.cursor [] rfl rfl
    exact ⟨_, _, _, scanned, scanned.text_eq, position, more, _, before ▸ still⟩
  | _ => cases failed

end Texts

/-- What the tokens of a text say about it, whatever the vocabulary is.

* Where the text can be cut into tokens, their lexemes put together are the text, and every token stands
  where the newlines before it and the characters since the last newline say.
* Where no rule matches, the error is right behind the tokens taken so far: they spell the text before it,
  something is left, and no scanning rule takes anything from it.
* A scanner that stands still has spelled the text before its place, too. -/
theorem ofText?_lossless (vocabulary : Vocabulary) (source : String) :
    match ofText? vocabulary source with
    | .ok script =>
      script.source = source ∧ Token.spelling script.tokens = source.toList ∧
        ∀ before t after, script.tokens = before ++ t :: after →
          t.position = Position.behind (Token.spelling before)
    | .error (.unmatched place) =>
      ∃ tokens cur rest, Scanned vocabulary .start source.toList tokens cur rest ∧
        source.toList = Token.spelling tokens ++ rest ∧ place = Position.behind (Token.spelling tokens) ∧
          rest ≠ [] ∧ Scan.Stuck vocabulary (Token.spelling tokens).getLast? rest
    | .error (.standstill place) =>
      ∃ tokens cur rest, Scanned vocabulary .start source.toList tokens cur rest ∧
        source.toList = Token.spelling tokens ++ rest ∧ place = Position.behind (Token.spelling tokens) ∧
          rest ≠ [] ∧ ∃ kind, Scan.next? vocabulary (Token.spelling tokens).getLast? rest = some (0, kind) := by
  cases scanned : ofText? vocabulary source with
  | ok script => exact spelling_of_scanned scanned
  | error failure =>
    cases failure with
    | unmatched place => exact stuck_of_unmatched scanned
    | standstill place => exact still_of_standstill scanned

end Script

end SqlFold
