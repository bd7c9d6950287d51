import SqlFold.Proofs.Lexing.Cursors
import SqlFold.Proofs.Vocabularies
import SqlFold.Settings

/-!
# The scanner makes progress

Every scanning rule but that of the vocabulary takes some characters where it matches. The vocabulary takes none only
with a word that has none, and only settings can bring in such a word. There the scanner would stand still, so it gives
up (`ScanFailure.standstill`): a scanner that went on would take rounds without end (`Script.halts_iff`). With other
words every text is cut into tokens that are not empty, or a place is found where no rule matches
(`Settings.scan_progress`).
-/

namespace SqlFold

open Text

/-! ## Rounds -/

namespace Script

variable {vocabulary : Vocabulary} {cur cur' : Cursor} {text rest : List Char} {tokens : List Token} {kind : TokenKind}

/-- What a round of the scanner makes of its state. Nothing asks here that the token taken is not empty. -/
def Round (vocabulary : Vocabulary) (later earlier : Cursor × List Char) : Prop :=
  earlier.2 ≠ [] ∧ ∃ length kind, Scan.next? vocabulary earlier.1.before earlier.2 = some (length, kind) ∧
    later = (earlier.1.past (earlier.1.token kind (earlier.2.take length)).kind (earlier.2.take length),
      earlier.2.drop length)

/-- The rounds that start at a cursor come to an end. -/
def Halts (vocabulary : Vocabulary) (cur : Cursor) (text : List Char) : Prop := Acc (Round vocabulary) (cur, text)

theorem halts_nil (vocabulary : Vocabulary) (cur : Cursor) : Halts vocabulary cur [] :=
  .intro _ fun _ round => absurd rfl round.1

/-- There is no round where no rule matches. -/
theorem halts_of_unmatched (none : Scan.next? vocabulary cur.before text = none) : Halts vocabulary cur text := by
  refine .intro _ fun _ ⟨_, _, _, found, _⟩ => ?_
  cases none.symm.trans found

/-- There is one round at most, so the rounds end before it if and only if they end behind it. -/
theorem halts_round {length : Nat} (more : text ≠ [])
    (found : Scan.next? vocabulary cur.before text = some (length, kind)) :
    Halts vocabulary cur text ↔
      Halts vocabulary (cur.past (cur.token kind (text.take length)).kind (text.take length)) (text.drop length) := by
  constructor
  · intro halts
    exact halts.inv ⟨more, length, kind, found, rfl⟩
  · refine fun halts => .intro _ fun later ⟨_, _, _, found', same⟩ => ?_
    cases found.symm.trans found'
    exact same ▸ halts

/-- The rounds that take tokens do not matter to how it goes on. -/
theorem Scanned.halts_iff (scanned : Scanned vocabulary cur text tokens cur' rest) :
    Halts vocabulary cur text ↔ Halts vocabulary cur' rest := by
  induction scanned with
  | stop => exact Iff.rfl
  | take more _ found _ ih => exact (halts_round more found).trans ih

/-- Where nothing but an empty word matches, every round leads back to the same place. -/
theorem not_halts_of_still (more : text ≠ []) (still : Scan.next? vocabulary cur.before text = some (0, kind)) :
    ¬Halts vocabulary cur text := by
  intro halts
  unfold Halts at halts
  generalize state : (cur, text) = s at halts
  induction halts generalizing cur with
  | intro s _ ih =>
    subst state
    let next := cur.past (cur.token kind []).kind []
    have round : Round vocabulary (next, text) (cur, text) := ⟨more, 0, kind, still, rfl⟩
    -- An empty token leaves the text and the character right before it as they are.
    have again : Scan.next? vocabulary next.before text = some (0, kind) := still
    exact ih _ round again rfl

/-- An empty match ends the scan in failure. -/
theorem tokensFrom_of_still (more : text ≠ []) (still : Scan.next? vocabulary cur.before text = some (0, kind)) :
    tokensFrom vocabulary cur text = .error (.standstill cur.position) := by
  rw [tokensFrom, if_neg more, still]
  exact dif_neg (Nat.lt_irrefl _)

/-- The scanner stands still exactly where the rounds would not end. -/
theorem halts_iff (vocabulary : Vocabulary) (source : String) :
    Halts vocabulary .start source.toList ↔ ∀ place, ofText? vocabulary source ≠ .error (.standstill place) := by
  -- The rounds up to the place where the scanner stops do not matter, so only the next one is asked for there.
  have ends := tokensFrom_ends vocabulary .start source.toList
  rw [ofText?]
  generalize tokensFrom vocabulary .start source.toList = result at ends
  cases ends with
  | done scanned =>
    refine ⟨fun _ _ failed => ?_, fun _ => scanned.halts_iff.mpr (halts_nil vocabulary _)⟩
    cases failed
  | unmatched scanned _ none =>
    refine ⟨fun _ _ failed => ?_, fun _ => scanned.halts_iff.mpr (halts_of_unmatched none)⟩
    cases failed
  | standstill scanned more still =>
    constructor
    · intro halts
      exact absurd (scanned.halts_iff.mp halts) (not_halts_of_still more still)
    · intro never
      exact absurd rfl (never _)

/-- No token that the scanner takes is empty. -/
theorem Scanned.lexeme_ne_empty (scanned : Scanned vocabulary cur text tokens cur' rest) :
    ∀ t ∈ tokens, t.lexeme ≠ "" := by
  induction scanned with
  | stop => nofun
  | @take cur cur' text rest length kind tokens more positive _ _ ih =>
    refine List.forall_mem_cons.mpr ⟨fun empty => ?_, ih⟩
    have none : text.take length = [] := by
      rw [← String.toList_ofList (l := text.take length)]
      exact congrArg String.toList empty
    rcases List.take_eq_nil_iff.mp none with zero | done
    · exact absurd zero positive.ne'
    · exact more done

end Script

/-! ## Words of settings -/

namespace Settings

variable {before : Option Char} {text : List Char} {n : Nat} {kind : TokenKind}

/-- An entry without characters comes from a keyword without characters. -/
theorem mem_keywords_of_empty (s : Settings) (mem : ("", kind) ∈ s.vocabulary.entries) :
    ("", kind) ∈ s.keywords.entries := by
  rcases Vocabulary.mem_withEntries mem with listed | ⟨⟨word, _⟩, listed, same⟩
  · exact absurd rfl (Vocabulary.standard_shaped _ listed).1
  · obtain ⟨empty, rfl⟩ := Prod.mk.inj same
    obtain rfl : word = "" := upperWord_eq_empty.mp empty.symm
    exact listed

/-- A match without characters is that of a keyword without characters. -/
theorem next?_pos (s : Settings) (found : Scan.next? s.vocabulary before text = some (n, kind)) :
    0 < n ∨ ("", kind) ∈ s.keywords.entries := by
  rcases Scan.next?_bounds found with entry | ⟨positive, _⟩
  · rcases Nat.eq_zero_or_pos n with rfl | positive
    · obtain ⟨⟨⟨word, kind⟩, mem, matched, rfl⟩, _⟩ := Vocabulary.longest?_eq_some entry
      obtain ⟨cs, _, _, folds, none, _⟩ := Vocabulary.matchLength?_eq_some.mp matched
      rw [List.length_eq_zero_iff.mp none] at folds
      obtain rfl : word = "" := String.toList_inj.mp folds.symm
      exact .inr (s.mem_keywords_of_empty mem)
    · exact .inl positive
  · exact .inl positive

/-- The scanner makes progress, unless a keyword of the settings is empty.

* What a rule matches lies within the text, and it is not empty, or a keyword without characters is matched.
* The rounds of the scanner end if and only if it does not stand still.
* Where a text is cut into tokens, none of them is empty.
* Without an empty keyword the scanner never stands still: its rounds end, with all tokens or with a place where no rule
  matches. -/
theorem scan_progress (s : Settings) :
    (∀ before text n kind, Scan.next? s.vocabulary before text = some (n, kind) →
      n ≤ text.length ∧ (0 < n ∨ ("", kind) ∈ s.keywords.entries)) ∧
    ∀ source,
      (Script.Halts s.vocabulary .start source.toList ↔
        ∀ place, Script.ofText? s.vocabulary source ≠ .error (.standstill place)) ∧
      (∀ script, Script.ofText? s.vocabulary source = .ok script → ∀ t ∈ script.tokens, t.lexeme ≠ "") ∧
      ("" ∉ s.keywords.names → ∀ place, Script.ofText? s.vocabulary source ≠ .error (.standstill place)) := by
  refine ⟨fun _ _ _ _ found => ⟨Scan.next?_le found, s.next?_pos found⟩, fun source => ⟨?_, ?_, ?_⟩⟩
  · exact Script.halts_iff s.vocabulary source
  · intro script scanned
    obtain ⟨_, _, taken⟩ := Script.scanned_of_ok scanned
    exact taken.lexeme_ne_empty
  · intro noEmpty place failed
    obtain ⟨_, _, _, _, _, _, _, kind, still⟩ := Script.still_of_standstill failed
    rcases s.next?_pos still with positive | listed
    · exact Nat.lt_irrefl 0 positive
    · exact noEmpty (List.mem_map_of_mem listed)

/-- Settings whose only keyword has no characters. -/
def emptyKeyword : Settings := ⟨.ofList [("", .likeKw)], Folding.standardLimit⟩

/-- With an empty keyword a match can be empty, and then the rounds of the scanner do not end. -/
theorem scan_standstill :
    emptyKeyword.vocabulary.longestAt? "a" 0 = some (0, .likeKw) ∧
      Scan.next? emptyKeyword.vocabulary none "a".toList = some (0, .likeKw) ∧
      Script.ofText? emptyKeyword.vocabulary "a" = .error (.standstill .start) ∧
      ¬Script.Halts emptyKeyword.vocabulary .start "a".toList := by
  have still : Scan.next? emptyKeyword.vocabulary none "a".toList = some (0, .likeKw) := by
    rw [vocabulary_eq]
    decide +kernel
  have longest : emptyKeyword.vocabulary.longestAt? "a" 0 = some (0, .likeKw) := by
    rw [vocabulary_eq]
    decide +kernel
  have stands : Script.tokensFrom emptyKeyword.vocabulary .start "a".toList = .error (.standstill .start) :=
    Script.tokensFrom_of_still (by decide) still
  refine ⟨longest, still, ?_, Script.not_halts_of_still (by decide) still⟩
  rw [Script.ofText?, stands]
  rfl

end Settings

end SqlFold
