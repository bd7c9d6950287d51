import SqlFold.Proofs.Lexing.Cursors
import SqlFold.Proofs.Vocabularies
import SqlFold.Settings

/-!
# Words stay whole

Where the keywords of settings are bare identifiers, a token that ends in the middle of a word is a number, or a keyword
that begins with an underscore: only keywords that begin with a letter have to stand apart from word characters
(`Settings.words_whole`). Every scanning rule that takes word characters to its end takes all of them, so nothing else
can cut a word into two.
-/

namespace SqlFold

open Text

namespace Text

/-- A bare identifier: word characters, of which the first is no digit. -/
structure IsIdentifier (word : List Char) : Prop where
  start : word.head?.any isWordStart = true
  inside : ∀ c ∈ word, isWordChar c = true

theorem isWordStart_toUpper (c : Char) : isWordStart c.toUpper = isWordStart c := by
  by_cases ascii : c.toNat < 128
  · exact ascii_induction (p := fun c => isWordStart c.toUpper = isWordStart c) (by decide) ascii
  · rw [toUpper_of_not_ascii ascii]

/-- Whether a text is an identifier does not depend on its case. -/
theorem isIdentifier_map_toUpper {word : List Char} : IsIdentifier (word.map Char.toUpper) ↔ IsIdentifier word := by
  have start : (word.map Char.toUpper).head?.any isWordStart = word.head?.any isWordStart := by
    cases word with
    | nil => rfl
    | cons c word => exact isWordStart_toUpper c
  have inside : (∀ c ∈ word.map Char.toUpper, isWordChar c = true) ↔ ∀ c ∈ word, isWordChar c = true := by
    simp only [List.forall_mem_map, isWordChar_toUpper]
  exact ⟨fun ⟨s, i⟩ => ⟨start ▸ s, inside.mp i⟩, fun ⟨s, i⟩ => ⟨start ▸ s, inside.mpr i⟩⟩

end Text

/-! ## One token among those taken -/

namespace Script

variable {vocabulary : Vocabulary} {cur cur' : Cursor} {text rest : List Char}

/-- Where a token among those taken was found, and that the scanner went on behind it. -/
theorem Scanned.split {front back : List Token} {t : Token}
    (scanned : Scanned vocabulary cur text (front ++ t :: back) cur' rest) :
    ∃ (here : Cursor) (cs more : List Char) (kind : TokenKind), cs ≠ [] ∧
      Scan.next? vocabulary here.before (cs ++ more) = some (cs.length, kind) ∧
      t = here.token kind cs ∧ more = Token.spelling back ++ rest := by
  induction front generalizing cur text with
  | nil =>
    cases scanned with
    | @take _ _ _ _ length kind _ more positive next later =>
      have size : (text.take length).length = length := List.length_take_of_le (Scan.next?_le next)
      refine ⟨cur, text.take length, text.drop length, kind, ?_, ?_, rfl, later.text_eq⟩
      · rw [← List.length_pos_iff, size]
        exact positive
      · rw [List.take_append_drop, size]
        exact next
  | cons first front ih =>
    cases scanned with
    | take _ _ _ later => exact ih later

end Script

/-! ## Words of the vocabulary -/

namespace Vocabulary

variable {vocabulary : Vocabulary} {before : Option Char} {cs rest : List Char} {kind : TokenKind}

/-- One entry for each word, which is an identifier, or is written with other characters only. -/
structure Worded (vocabulary : Vocabulary) : Prop extends vocabulary.Folded where
  shape : ∀ e ∈ vocabulary.entries,
    IsIdentifier e.1.toList ∨ e.1.toList ≠ [] ∧ ∀ c ∈ e.1.toList, isWordChar c = false

theorem standard_worded : standard.Worded where
  toFolded := folded_empty.withEntries standardEntries
  shape e mem := by
    obtain ⟨some, letters | ⟨others, _⟩⟩ := standard_shaped e mem
    · obtain ⟨c, word, whole⟩ := List.exists_cons_of_ne_nil some
      rw [whole] at letters ⊢
      refine .inl ⟨?_, fun d listed => isWordChar_of_isLetter (letters d listed)⟩
      rw [List.head?_cons, Option.any_some, isWordStart, letters c List.mem_cons_self, Bool.true_or]
    · exact .inr ⟨some, others⟩

/-- Identifiers can be added to such a vocabulary. -/
theorem Worded.withEntries (worded : vocabulary.Worded) {extra : List (String × TokenKind)}
    (bare : ∀ e ∈ extra, IsIdentifier e.1.toList) : (vocabulary.withEntries extra).Worded where
  toFolded := worded.toFolded.withEntries extra
  shape e mem := by
    rcases mem_withEntries mem with old | ⟨x, listed, rfl⟩
    · exact worded.shape e old
    · rw [toList_upperWord]
      exact .inl (isIdentifier_map_toUpper.mpr (bare x listed))

section Worded

variable (worded : vocabulary.Worded)

include worded

/-- What is looked up with a word character in it is an identifier. -/
theorem Worded.isIdentifier (known : vocabulary.get? (String.ofList cs) = some kind) {c : Char} (mem : c ∈ cs)
    (word : isWordChar c = true) : IsIdentifier cs := by
  have entry := worded.shape _ (worded.get?_eq_some.mp known)
  rw [toList_upperWord, String.toList_ofList, isIdentifier_map_toUpper] at entry
  rcases entry with identifier | ⟨_, others⟩
  · exact identifier
  · have other := others c.toUpper (List.mem_map_of_mem mem)
    rw [isWordChar_toUpper] at other
    exact Bool.noConfusion (word.symm.trans other)

/-- What is looked up has some characters. -/
theorem Worded.ne_nil (known : vocabulary.get? (String.ofList cs) = some kind) : cs ≠ [] := by
  rintro rfl
  have entry := worded.shape _ (worded.get?_eq_some.mp known)
  rw [toList_upperWord, String.toList_ofList, List.map_nil] at entry
  rcases entry with identifier | ⟨some, _⟩
  · cases identifier.start
  · exact some rfl

end Worded

/-- A word of the vocabulary begins with an underscore, or it stands apart from other words. -/
theorem Stands.underscore_or_apart (stands : vocabulary.Stands before cs rest kind) (identifier : IsIdentifier cs) :
    cs.head? = some '_' ∨ before.any isWordChar = false ∧ rest.head?.any isWordChar = false := by
  obtain ⟨c, first, start⟩ := (Option.any_eq_true _ _).mp identifier.start
  rw [isWordStart, Bool.or_eq_true, beq_iff_eq] at start
  rcases start with letter | rfl
  · refine .inr (stands.apart ?_)
    rw [first]
    exact letter
  · exact .inl first

/-- A match that begins with a word character begins with an underscore, or it is no part of a longer word. -/
theorem Worded.longest?_apart (worded : vocabulary.Worded) {text : List Char} {n : Nat}
    (found : vocabulary.longest? before text = some (n, kind)) (word : text.head?.any isWordChar = true) :
    text.head? = some '_' ∨ before.any isWordChar = false ∧ (text.drop n).head?.any isWordChar = false := by
  obtain ⟨⟨cs, rest, rfl, rfl, stands⟩, _⟩ := worded.longest?_eq_some.mp found
  obtain ⟨c, ds, rfl⟩ := List.exists_cons_of_ne_nil (worded.ne_nil stands.known)
  rw [List.drop_left]
  exact stands.underscore_or_apart (worded.isIdentifier stands.known List.mem_cons_self word)

/-- A match that ends in the middle of a word is an entry that begins with an underscore. -/
theorem Worded.longest?_ends (worded : vocabulary.Worded)
    (found : vocabulary.longest? before (cs ++ rest) = some (cs.length, kind))
    (word : cs.getLast?.any isWordChar = true) (goesOn : rest.head?.any isWordChar = true) :
    cs.head? = some '_' ∧ vocabulary.get? (String.ofList cs) = some kind := by
  obtain ⟨⟨ds, back, split, size, stands⟩, _⟩ := worded.longest?_eq_some.mp found
  obtain ⟨rfl, rfl⟩ := List.append_inj split size.symm
  obtain ⟨c, last, isWord⟩ := (Option.any_eq_true _ _).mp word
  have identifier := worded.isIdentifier stands.known (List.mem_of_getLast? last) isWord
  rcases stands.underscore_or_apart identifier with underscore | ⟨_, stops⟩
  · exact ⟨underscore, stands.known⟩
  · exact Bool.noConfusion (goesOn.symm.trans stops)

end Vocabulary

namespace Settings

/-- Words stay whole, where the keywords of the settings are bare identifiers.

* Where a token ends with a word character and the next one begins with one, the first of the two is a number, or a
  keyword that begins with an underscore.
* Where a keyword matches, it begins with an underscore, or no word character touches it: it is neither the beginning nor
  the end of a longer identifier. -/
theorem words_whole (s : Settings) (bare : ∀ e ∈ s.keywords.entries, IsIdentifier e.1.toList) {source : String}
    {script : Script} (scanned : Script.ofText? s.vocabulary source = .ok script) :
    (∀ front t u back, script.tokens = front ++ t :: u :: back →
      t.lexeme.toList.getLast?.any isWordChar = true → u.lexeme.toList.head?.any isWordChar = true →
        t.kind = .numericLiteral ∨ t.lexeme.toList.head? = some '_' ∧ s.vocabulary.get? t.lexeme = some t.kind) ∧
    ∀ before text n kind, s.vocabulary.longest? before text = some (n, kind) → text.head?.any isWordChar = true →
      text.head? = some '_' ∨ before.any isWordChar = false ∧ (text.drop n).head?.any isWordChar = false := by
  have worded : s.vocabulary.Worded := Vocabulary.standard_worded.withEntries bare
  refine ⟨fun front t u back tokens ends begins => ?_, fun _ _ _ _ => worded.longest?_apart⟩
  obtain ⟨_, _, taken⟩ := Script.scanned_of_ok scanned
  rw [tokens] at taken
  obtain ⟨here, cs, more, kind, some, next, rfl, rfl⟩ := taken.split
  have lexeme : (here.token kind cs).lexeme.toList = cs := String.toList_ofList
  rw [lexeme] at ends ⊢
  have goesOn : (Token.spelling (u :: back) ++ []).head?.any isWordChar = true := by
    obtain ⟨c, first, word⟩ := (Option.any_eq_true _ _).mp begins
    rw [Token.spelling, List.flatMap_cons, List.append_assoc, List.head?_append, first]
    exact word
  -- A `*` is no word character, so the kind of the token is the one that was found.
  have kept : (here.token kind cs).kind = kind := by
    rcases kind.resolveStar_cases (String.ofList cs) here.previous with same | ⟨_, star, _⟩
    · exact same
    · obtain rfl : cs = ['*'] := by rw [← String.toList_ofList (l := cs), star]; rfl
      cases ends
  rw [kept]
  rcases Scan.next?_ends next some ends with number | stops | entry
  · exact .inl number
  · exact Bool.noConfusion (goesOn.symm.trans stops)
  · exact .inr (worded.longest?_ends entry ends goesOn)

/-- Settings with one keyword. -/
def withKeyword (word : String) (kind : TokenKind) : Settings := ⟨.ofList [(word, kind)], Folding.standardLimit⟩

/-- Right behind a number the letters of a keyword are an identifier. -/
theorem words_whole_number :
    (∀ e ∈ (withKeyword "ilike" .likeKw).keywords.entries, IsIdentifier e.1.toList) ∧
    Script.ofText? (withKeyword "ilike" .likeKw).vocabulary "3ILIKE" =
      .ok ⟨"3ILIKE", [⟨.numericLiteral, "3", ⟨0, 0⟩⟩, ⟨.symbol, "ILIKE", ⟨0, 1⟩⟩]⟩ ∧
    (TokenKind.numericLiteral = .numericLiteral ∨ "3".toList.head? = some '_' ∧
      (withKeyword "ilike" .likeKw).vocabulary.get? "3" = some .numericLiteral) := by
  have bare : ∀ e ∈ (withKeyword "ilike" .likeKw).keywords.entries, IsIdentifier e.1.toList := by
    intro e mem
    obtain rfl := List.mem_singleton.mp mem
    exact ⟨rfl, by decide⟩
  have scanned : Script.ofText? (withKeyword "ilike" .likeKw).vocabulary "3ILIKE" =
      .ok ⟨"3ILIKE", [⟨.numericLiteral, "3", ⟨0, 0⟩⟩, ⟨.symbol, "ILIKE", ⟨0, 1⟩⟩]⟩ :=
    Script.ofText?_eq_ok (by rw [vocabulary_eq]; decide +kernel)
  exact ⟨bare, scanned, (words_whole _ bare scanned).1 [] _ _ [] rfl (by decide) (by decide)⟩

/-- A keyword that begins with an underscore is found at the beginning of a longer identifier, which is cut into two: a
word character ends the first token, one begins the next, and the first is no number. -/
theorem words_split :
    (∀ e ∈ (withKeyword "_x" .likeKw).keywords.entries, IsIdentifier e.1.toList) ∧
    (withKeyword "_x" .likeKw).vocabulary.longest? none "_xy".toList = some (2, .likeKw) ∧
    Script.ofText? (withKeyword "_x" .likeKw).vocabulary "_xy" =
      .ok ⟨"_xy", [⟨.likeKw, "_x", ⟨0, 0⟩⟩, ⟨.symbol, "y", ⟨0, 2⟩⟩]⟩ ∧
    "_x".toList.getLast?.any isWordChar = true ∧ "y".toList.head?.any isWordChar = true ∧
    TokenKind.likeKw ≠ .numericLiteral := by
  have longest : (withKeyword "_x" .likeKw).vocabulary.longest? none "_xy".toList = some (2, .likeKw) := by
    rw [vocabulary_eq]
    decide +kernel
  have scanned : Script.ofText? (withKeyword "_x" .likeKw).vocabulary "_xy" =
      .ok ⟨"_xy", [⟨.likeKw, "_x", ⟨0, 0⟩⟩, ⟨.symbol, "y", ⟨0, 2⟩⟩]⟩ :=
    Script.ofText?_eq_ok (by rw [vocabulary_eq]; decide +kernel)
  refine ⟨fun e mem => ?_, longest, scanned, by decide, by decide, by decide⟩
  obtain rfl := List.mem_singleton.mp mem
  exact ⟨rfl, by decide⟩

end Settings

end SqlFold
