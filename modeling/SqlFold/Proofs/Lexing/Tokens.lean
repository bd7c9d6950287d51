import SqlFold.Proofs.Lexing.Words
import SqlFold.Token.Script

/-!
# Tokens that are found again

A token was found in one place of a text. Where its characters stand in another text, the scanner finds the same
token there, if what is behind it does not go on with it (`TokenKind.Clear`) and, for words, nothing is right before
it. This is said by `Token.Standard`, and it is so of every token that the scanner finds with the vocabulary of SQL
(`Token.standard_of_next?`), except for a word that stands right behind a number.
-/

namespace SqlFold

open Text

variable {before before' : Option Char} {text rest rest' cs : List Char} {c : Char} {n : Nat} {p : Char → Bool}

/-! ## Scanning rules, one by one -/

/-- A closing quote is found again, if no further quote is behind it. -/
theorem Text.Quoted.closing_append {quote : Char} {escapes : Bool}
    (found : closing quote escapes (cs ++ rest) = some cs.length) (apart : rest'.head? ≠ some quote) :
    closing quote escapes (cs ++ rest') = some cs.length := by
  generalize size : cs.length = n at found
  induction n using Nat.strongRecOn generalizing cs with
  | ind n ih =>
    subst size
    match cs, found with
    | [], found => exact absurd (closing_le_length found).1 (Nat.lt_irrefl 0)
    | [c], found =>
      have ends : (escapes && c == '\\') = false ∧ c = quote := by
        cases rest with
        | nil =>
          rw [List.append_nil, closing] at found
          split at found
          · cases found
          · next plain =>
            split at found
            · next same => exact ⟨Bool.eq_false_iff.mpr plain, same⟩
            · cases found
        | cons d rest =>
          rw [List.singleton_append, closing] at found
          split at found
          · obtain ⟨m, _, same⟩ := Option.map_eq_some_iff.mp found
            exact absurd same (by simp)
          · next plain =>
            split at found
            · next same => exact ⟨Bool.eq_false_iff.mpr plain, same⟩
            · obtain ⟨m, inner, same⟩ := Option.map_eq_some_iff.mp found
              have := (closing_le_length inner).1
              exact absurd same (by simp; omega)
      cases rest' with
      | nil => rw [List.append_nil, closing, if_neg (Bool.eq_false_iff.mp ends.1), if_pos ends.2]; rfl
      | cons d rest' =>
        have other : d ≠ quote := fun same => apart (congrArg some same)
        rw [List.singleton_append, closing, if_neg (Bool.eq_false_iff.mp ends.1), if_pos ends.2, if_neg other]
        rfl
    | c :: d :: cs, found =>
      have skip (inner : closing quote escapes (cs ++ rest) = some cs.length) :
          closing quote escapes (cs ++ rest') = some cs.length :=
        ih cs.length (by simp only [List.length_cons]; omega) rfl inner
      have inner {ds : List Char} {k : Nat} (found : (closing quote escapes (ds ++ rest)).map (· + k) = some (ds.length + k)) :
          closing quote escapes (ds ++ rest) = some ds.length := by
        obtain ⟨m, inner, same⟩ := Option.map_eq_some_iff.mp found
        rw [inner, Nat.add_right_cancel same]
      rw [List.cons_append, List.cons_append, closing] at found ⊢
      split at found
      · next escape =>
        rw [if_pos escape, skip (inner found)]
        rfl
      · next plain =>
        rw [if_neg plain]
        split at found
        · next same =>
          rw [if_pos same]
          split at found
          · next double =>
            rw [if_pos double, skip (inner found)]
            rfl
          · cases found
        · next other =>
          rw [if_neg other]
          have later := ih (d :: cs).length (by simp) rfl (inner found)
          rw [List.cons_append] at later
          rw [later]
          rfl

namespace Scan

theorem run?_of_head (other : p c = false) : run? p (c :: text) = none := by
  rw [run?, List.takeWhile_cons_of_neg (Bool.eq_false_iff.mp other)]
  rfl

/-- A run is found again, if it does not go on. -/
theorem run?_append (some : cs ≠ []) (inside : ∀ c ∈ cs, p c = true) (apart : rest.head?.any p = false) :
    run? p (cs ++ rest) = .some cs.length := by
  have none : rest.takeWhile p = [] := by
    cases rest with
    | nil => rfl
    | cons d rest => exact List.takeWhile_cons_of_neg (Bool.eq_false_iff.mp apart)
  rw [run?, List.takeWhile_append_of_pos inside, none, List.append_nil]
  cases cs with
  | nil => exact absurd rfl some
  | cons => rfl

/-- What a run is made of. -/
theorem run?_eq_some (found : run? p text = some n) :
    ∃ cs rest, text = cs ++ rest ∧ cs.length = n ∧ cs ≠ [] ∧ (∀ c ∈ cs, p c = true) ∧ rest.head?.any p = false := by
  refine ⟨text.takeWhile p, text.dropWhile p, List.takeWhile_append_dropWhile.symm, ?_, ?_, ?_, ?_⟩
  · rw [run?] at found
    split at found
    · cases found
    · next size => cases found; exact size
  · intro none
    rw [run?, none] at found
    cases found
  · exact fun c mem => (List.all_eq_true.mp List.all_takeWhile c mem)
  · cases more : text.dropWhile p with
    | nil => rfl
    | cons d rest =>
      have := List.head?_dropWhile_not p text
      rw [more] at this
      simpa using this

/-- The digits of a number. -/
inductive Number : List Char → Prop
  | whole {ds : List Char} : ds ≠ [] → (∀ c ∈ ds, c.isDigit = true) → Number ds
  | decimal {ds fs : List Char} : ds ≠ [] → (∀ c ∈ ds, c.isDigit = true) → fs ≠ [] → (∀ c ∈ fs, c.isDigit = true) →
      Number (ds ++ '.' :: fs)

theorem Number.head (number : Number cs) : ∃ c rest, cs = c :: rest ∧ c.isDigit = true := by
  cases number with
  | whole some digits =>
    obtain ⟨c, rest, rfl⟩ := List.exists_cons_of_ne_nil some
    exact ⟨c, rest, rfl, digits c List.mem_cons_self⟩
  | decimal some digits =>
    obtain ⟨c, rest, rfl⟩ := List.exists_cons_of_ne_nil some
    exact ⟨c, _, rfl, digits c List.mem_cons_self⟩

theorem number?_eq_some (found : number? text = some n) : ∃ cs rest, text = cs ++ rest ∧ cs.length = n ∧ Number cs := by
  obtain ⟨m, digits, size⟩ := Option.map_eq_some_iff.mp found
  obtain ⟨ds, more, rfl, rfl, some, inside, stops⟩ := run?_eq_some digits
  clear stops
  rw [List.drop_left] at size
  split at size
  · next fraction =>
    cases decimals : run? Char.isDigit fraction with
    | none =>
      rw [decimals] at size
      exact ⟨ds, _, rfl, size, .whole some inside⟩
    | some k =>
      rw [decimals] at size
      obtain ⟨fs, rest, rfl, rfl, some', inside', _⟩ := run?_eq_some decimals
      refine ⟨ds ++ '.' :: fs, rest, by simp, ?_, .decimal some inside some' inside'⟩
      obtain rfl : ds.length + 1 + fs.length = n := size
      rw [List.length_append, List.length_cons]
      omega
  · exact ⟨ds, _, rfl, size, .whole some inside⟩

/-- A number is found again, if neither digits nor a point are behind it. -/
theorem number?_append (number : Number cs) (apart : ∀ c ∈ rest.head?, c.isDigit = false ∧ c ≠ '.') :
    number? (cs ++ rest) = some cs.length := by
  have stops : rest.head?.any Char.isDigit = false := by
    cases rest with
    | nil => rfl
    | cons d rest => exact (apart d rfl).1
  cases number with
  | whole some digits =>
    rw [number?, run?_append some digits stops, Option.map_some, List.drop_left]
    split
    · exact absurd rfl (apart '.' rfl).2
    · rfl
  | @decimal ds fs some digits some' digits' =>
    rw [number?, List.append_assoc, run?_append some digits (by rfl), Option.map_some, List.drop_left, List.cons_append]
    simp only [run?_append some' digits' stops, List.length_append, List.length_cons]
    congr 1
    omega

theorem comment?_of_head (first : c ≠ '#' ∧ c ≠ '-' ∧ c ≠ '/') : comment? (c :: text) = none := by
  unfold comment?
  split
  · next eq => exact absurd (List.cons.inj eq).1 first.1
  · next eq => exact absurd (List.cons.inj eq).1 first.2.1
  · next eq => exact absurd (List.cons.inj eq).1 first.2.2
  · rfl

/-- Where no comment starts none starts again, if nothing is behind that makes one. -/
theorem comment?_append (none : comment? (c :: cs ++ rest) = none) (apart : ∀ d ∈ rest'.head?, d ≠ '-' ∧ d ≠ '*') :
    comment? (c :: cs ++ rest') = .none := by
  cases cs with
  | cons d cs =>
    unfold comment? at none ⊢
    split
    · next eq => obtain ⟨rfl, _⟩ := List.cons.inj eq; cases none
    · next eq =>
      obtain ⟨rfl, eq'⟩ := List.cons.inj eq
      obtain ⟨rfl, _⟩ := List.cons.inj eq'
      cases none
    · next eq =>
      obtain ⟨rfl, eq'⟩ := List.cons.inj eq
      obtain ⟨rfl, _⟩ := List.cons.inj eq'
      cases none
    · rfl
  | nil =>
    rw [List.singleton_append]
    unfold comment?
    split
    · next eq =>
      obtain ⟨rfl, _⟩ := List.cons.inj eq
      cases none
    · next eq =>
      obtain ⟨_, rfl⟩ := List.cons.inj eq
      exact absurd rfl (apart '-' rfl).1
    · next eq =>
      obtain ⟨_, rfl⟩ := List.cons.inj eq
      exact absurd rfl (apart '*' rfl).2
    · rfl

theorem string?_of_head {quote : Char} (other : c ≠ quote) : string? quote (c :: text) = none := by
  rw [string?, if_neg other]

theorem number?_of_head (other : c.isDigit = false) : number? (c :: text) = none := by
  rw [number?, run?_of_head other]
  rfl

theorem quotedName?_of_head (other : c ≠ '\x60') : quotedName? (c :: text) = none := by
  rw [quotedName?, if_neg other]

theorem identifier?_of_head (other : isWordStart c = false) : identifier? (c :: text) = none := by
  rw [identifier?, if_neg (Bool.eq_false_iff.mp other)]

end Scan

/-! ## Tokens -/

namespace TokenKind

/-- The kind that the scanner finds, before it looks at the tokens behind it. -/
def scanned : TokenKind → TokenKind
  | star => operator
  | kind => kind

/-- Whether a token is a word, which must not touch another one. -/
def isVerbal (kind : TokenKind) : Bool := kind == symbol || kind.isKeyword

/-- The text of the marks, which have one text each. -/
def mark? : TokenKind → Option String
  | dot => "."
  | comma => ","
  | semicolon => ";"
  | bracketOpen => "("
  | bracketClose => ")"
  | star => "*"
  | _ => none

end TokenKind

/-- What may stand right behind a token of a kind, so that it is found as it was. -/
def TokenKind.Clear (kind : TokenKind) (next : Option Char) : Prop :=
  kind = .dot ∨ kind = .bracketOpen ∨
    ∀ c ∈ next, c ∈ [' ', '\n', ')', ',', ';'] ∨ kind = .symbol ∧ c ∈ ['.', '('] ∨ kind = .operator ∧ c.isDigit = true

namespace Token

/-- A token that is found again where its characters stand, with the vocabulary of SQL. -/
structure Standard (t : Token) : Prop where
  significant : t.kind.isTrivia = false
  /-- It starts with a character that is not blank. -/
  starts : ∃ c rest, t.lexeme.toList = c :: rest ∧ isBlank c = false
  mark : ∀ m ∈ t.kind.mark?, t.lexeme = m
  number : t.kind = .numericLiteral → t.lexeme.toList.head?.any Char.isDigit = true
  again : ∀ before rest, (t.kind.isVerbal = true → before.any isWordChar = false) → t.kind.Clear rest.head? →
    Scan.next? .standard before (t.lexeme.toList ++ rest) = some (t.lexeme.toList.length, t.kind.scanned)

end Token

namespace Scan

/-- The first character of a token that is not trivia is not blank. -/
theorem isBlank_of_next? {vocabulary : Vocabulary} {kind : TokenKind} (found : next? vocabulary before (c :: text) = some (n, kind))
    (significant : kind.isTrivia = false) : isBlank c = false ∧ comment? (c :: text) = none := by
  rw [next?, Option.or_eq_some_iff, Option.or_eq_some_iff] at found
  rcases found with blank | ⟨noBlank, comment | ⟨noComment, _⟩⟩
  · obtain ⟨_, _, same⟩ := Option.map_eq_some_iff.mp blank
    cases same
    cases significant
  · obtain ⟨_, _, same⟩ := Option.map_eq_some_iff.mp comment
    cases same
    cases significant
  · refine ⟨Bool.eq_false_iff.mpr fun blank => ?_, Option.map_eq_none_iff.mp noComment⟩
    rw [Option.map_eq_none_iff, run?, List.takeWhile_cons_of_pos blank] at noBlank
    cases noBlank

variable {vocabulary : Vocabulary} {kind : TokenKind}

/-- Which rule finds a token, whatever the vocabulary is. -/
theorem next?_cases (found : next? vocabulary before text = some (n, kind)) :
    run? isBlank text = some n ∧ kind = .whitespace ∨
    comment? text = some n ∧ kind = .comment ∨
    (∃ quote, (quote = '\x27' ∨ quote = '"') ∧ string? quote text = some n) ∧ kind = .stringLiteral ∨
    vocabulary.longest? before text = some (n, kind) ∨
    vocabulary.longest? before text = none ∧
      (number? text = some n ∧ kind = .numericLiteral ∨ quotedName? text = some n ∧ kind = .symbol ∨
        identifier? text = some n ∧ kind = .symbol ∨ preparedArgument? text = some n ∧ kind = .preparedArgument) := by
  have sized {o : Option Nat} {k : TokenKind} (found : o.map (·, k) = some (n, kind)) : o = some n ∧ kind = k := by
    obtain ⟨m, rfl, same⟩ := Option.map_eq_some_iff.mp found
    obtain ⟨rfl, rfl⟩ := Prod.mk.inj same
    exact ⟨rfl, rfl⟩
  simp only [next?, Option.or_eq_some_iff] at found
  rcases found with blank | ⟨_, comment | ⟨_, string | ⟨_, entry | ⟨noEntry, rest⟩⟩⟩⟩
  · exact .inl (sized blank)
  · exact .inr (.inl (sized comment))
  · obtain ⟨taken, same⟩ := sized string
    refine .inr (.inr (.inl ⟨?_, same⟩))
    rcases Option.or_eq_some_iff.mp taken with single | ⟨_, double⟩
    · exact ⟨_, .inl rfl, single⟩
    · exact ⟨_, .inr rfl, double⟩
  · exact .inr (.inr (.inr (.inl entry)))
  · refine .inr (.inr (.inr (.inr ⟨noEntry, ?_⟩)))
    rcases rest with number | ⟨_, quoted | ⟨_, bare | ⟨_, argument⟩⟩⟩
    · exact .inl (sized number)
    · exact .inr (.inl (sized quoted))
    · exact .inr (.inr (.inl (sized bare)))
    · exact .inr (.inr (.inr (sized argument)))

/-- What the scanner finds where neither a blank nor a comment nor a string starts. -/
theorem next?_of_head (noBlank : isBlank c = false) (noComment : comment? (c :: text) = none) (noString : c ≠ '\x27' ∧ c ≠ '"') :
    next? vocabulary before (c :: text) =
      ((vocabulary.longest? before (c :: text)).or <| ((number? (c :: text)).map (·, .numericLiteral)).or <|
        ((quotedName? (c :: text)).map (·, .symbol)).or <| ((identifier? (c :: text)).map (·, .symbol)).or <|
          (preparedArgument? (c :: text)).map (·, .preparedArgument)) := by
  rw [next?, run?_of_head noBlank, noComment, string?_of_head noString.1, string?_of_head noString.2]
  rfl

/-- A string is found again, if its quote is not behind it. -/
theorem next?_string {quote : Char} (isQuote : quote = '\x27' ∨ quote = '"') (found : string? quote (cs ++ rest) = some cs.length)
    (some : cs ≠ []) (apart : rest'.head? ≠ .some quote) :
    next? vocabulary before (cs ++ rest') = .some (cs.length, .stringLiteral) := by
  obtain ⟨c, body, rfl⟩ := List.exists_cons_of_ne_nil some
  rw [List.cons_append, string?] at found
  split at found
  · next same =>
    obtain ⟨m, closes, size⟩ := Option.map_eq_some_iff.mp found
    obtain rfl : m = body.length := Nat.add_right_cancel size
    have again : string? quote (c :: body ++ rest') = .some (c :: body).length := by
      rw [List.cons_append, string?, if_pos same, Text.Quoted.closing_append closes apart]
      rfl
    subst same
    rw [List.cons_append] at again ⊢
    rcases isQuote with rfl | rfl
    · rw [next?, run?_of_head (by decide), comment?_of_head (by decide), again]
      rfl
    · rw [next?, run?_of_head (by decide), comment?_of_head (by decide), string?_of_head (by decide), again]
      rfl
  · cases found

/-- Classes of the characters that tokens start with. -/
theorem wordStart_class (start : isWordStart c = true) :
    isBlank c = false ∧ (c ≠ '#' ∧ c ≠ '-' ∧ c ≠ '/') ∧ (c ≠ '\x27' ∧ c ≠ '"') ∧ c.isDigit = false ∧ c ≠ '\x60' :=
  ascii_induction (p := fun c => isWordStart c = true →
    isBlank c = false ∧ (c ≠ '#' ∧ c ≠ '-' ∧ c ≠ '/') ∧ (c ≠ '\x27' ∧ c ≠ '"') ∧ c.isDigit = false ∧ c ≠ '\x60')
    (by decide) (ascii_of_isWordChar (isWordChar_of_isWordStart start)) start

theorem digit_class (digit : c.isDigit = true) :
    isBlank c = false ∧ (c ≠ '#' ∧ c ≠ '-' ∧ c ≠ '/') ∧ (c ≠ '\x27' ∧ c ≠ '"') :=
  ascii_induction (p := fun c => c.isDigit = true →
    isBlank c = false ∧ (c ≠ '#' ∧ c ≠ '-' ∧ c ≠ '/') ∧ (c ≠ '\x27' ∧ c ≠ '"'))
    (by decide) (ascii_of_isWordChar (by simp [isWordChar, Char.isAlphanum, digit])) digit

/-- A number is found again, if neither digits nor a point are behind it. -/
theorem next?_number (number : Number cs) (apart : ∀ c ∈ rest.head?, c.isDigit = false ∧ c ≠ '.') :
    next? .standard before (cs ++ rest) = some (cs.length, .numericLiteral) := by
  obtain ⟨c, ds, rfl, digit⟩ := number.head
  obtain ⟨noBlank, noComment, noString⟩ := digit_class digit
  have again := number?_append number apart
  rw [List.cons_append] at again ⊢
  rw [next?_of_head noBlank (comment?_of_head noComment) noString, Vocabulary.standard_longest?_of_head (.inl digit), again]
  rfl

/-- A quoted name is found again, if no further quote is behind it. -/
theorem next?_quotedName (found : quotedName? (cs ++ rest) = some cs.length) (some : cs ≠ []) (apart : rest'.head? ≠ .some '\x60') :
    next? .standard before (cs ++ rest') = .some (cs.length, .symbol) := by
  obtain ⟨c, body, rfl⟩ := List.exists_cons_of_ne_nil some
  rw [List.cons_append, quotedName?] at found
  split at found
  · next same =>
    obtain ⟨m, closes, size⟩ := Option.map_eq_some_iff.mp found
    obtain rfl : m = body.length := Nat.add_right_cancel size
    subst same
    rw [List.cons_append, next?_of_head (c := '\x60') (by decide) (comment?_of_head (by decide)) (by decide),
      Vocabulary.standard_longest?_of_head (.inr (by decide)), number?_of_head (by decide), quotedName?, if_pos rfl,
      Text.Quoted.closing_append closes apart]
    rfl
  · cases found

/-- What a prepared argument looks like. -/
theorem preparedArgument?_eq_some (found : preparedArgument? (cs ++ rest) = some cs.length) (some : cs ≠ []) :
    cs = ['?'] ∨ ∃ name, cs = ':' :: name ∧ name ≠ [] ∧ (∀ c ∈ name, isWordChar c = true) ∧
      rest.head?.any isWordChar = false := by
  obtain ⟨c, name, rfl⟩ := List.exists_cons_of_ne_nil some
  rw [List.cons_append] at found
  unfold preparedArgument? at found
  split at found
  · next eq =>
    obtain ⟨rfl, _⟩ := List.cons.inj eq
    have size : 1 = name.length + 1 := Option.some.inj found
    exact .inl (by rw [List.length_eq_zero_iff.mp (Nat.add_right_cancel size.symm)])
  · next eq =>
    obtain ⟨rfl, rfl⟩ := List.cons.inj eq
    obtain ⟨m, run, size⟩ := Option.map_eq_some_iff.mp found
    obtain ⟨ds, more, split, size', some, inside, stops⟩ := run?_eq_some run
    obtain ⟨rfl, rfl⟩ := List.append_inj split (size'.trans (Nat.add_right_cancel size)).symm
    exact .inr ⟨name, rfl, some, inside, stops⟩
  · cases found

/-- A prepared argument is found again, if its name does not go on behind it. -/
theorem next?_preparedArgument (found : preparedArgument? (cs ++ rest) = some cs.length) (some : cs ≠ [])
    (apart : rest'.head?.any isWordChar = false) :
    next? .standard before (cs ++ rest') = .some (cs.length, .preparedArgument) := by
  rcases preparedArgument?_eq_some found some with rfl | ⟨name, rfl, some, inside, _⟩
  · rw [List.singleton_append, next?_of_head (by decide) (comment?_of_head (by decide)) (by decide),
      Vocabulary.standard_longest?_of_head (.inr (by decide)), number?_of_head (by decide), quotedName?_of_head (by decide),
      identifier?_of_head (by decide)]
    rfl
  · have again : preparedArgument? (':' :: (name ++ rest')) = (run? isWordChar (name ++ rest')).map (· + 1) := rfl
    rw [List.cons_append, next?_of_head (by decide) (comment?_of_head (by decide)) (by decide),
      Vocabulary.standard_longest?_of_head (.inr (by decide)), number?_of_head (by decide), quotedName?_of_head (by decide),
      identifier?_of_head (by decide), again, run?_append some inside apart]
    rfl

/-- What a bare identifier looks like. -/
theorem identifier?_eq_some (found : identifier? (cs ++ rest) = some cs.length) (some : cs ≠ []) :
    ∃ c ds, cs = c :: ds ∧ isWordStart c = true ∧ (∀ d ∈ ds, isWordChar d = true) ∧ rest.head?.any isWordChar = false := by
  obtain ⟨c, ds, rfl⟩ := List.exists_cons_of_ne_nil some
  rw [List.cons_append, identifier?] at found
  split at found
  · next start =>
    have split := List.takeWhile_append_dropWhile (p := isWordChar) (l := ds ++ rest)
    have size : ((ds ++ rest).takeWhile isWordChar).length = ds.length := Nat.add_right_cancel (Option.some.inj found)
    obtain ⟨whole, behind⟩ := List.append_inj split size
    refine ⟨c, ds, rfl, start, whole ▸ List.all_eq_true.mp List.all_takeWhile, ?_⟩
    have stops := List.head?_dropWhile_not isWordChar (ds ++ rest)
    rw [behind] at stops
    cases rest with
    | nil => rfl
    | cons d rest => exact stops
  · cases found

/-- A bare identifier is found again, if it stands apart from other words. -/
theorem next?_identifier (found : identifier? (cs ++ rest) = some cs.length) (some : cs ≠ [])
    (noEntry : Vocabulary.standard.longest? before (cs ++ rest) = none)
    (alone : cs.head?.any isWordChar = true → before.any isWordChar = false)
    (alone' : before'.any isWordChar = false) (apart : rest'.head?.any isWordChar = false) :
    next? .standard before' (cs ++ rest') = .some (cs.length, .symbol) := by
  obtain ⟨c, ds, rfl, start, inside, last⟩ := identifier?_eq_some found some
  have insides : ∀ d ∈ c :: ds, isWordChar d = true :=
    List.forall_mem_cons.mpr ⟨isWordChar_of_isWordStart start, inside⟩
  have noEntry' : Vocabulary.standard.longest? before' (c :: ds ++ rest') = none :=
    (Vocabulary.standard_longest?_word some insides alone' apart (alone (isWordChar_of_isWordStart start)) last).trans noEntry
  obtain ⟨noBlank, noComment, noString, noDigit, noQuote⟩ := wordStart_class start
  have stops : (ds ++ rest').takeWhile isWordChar = ds := by
    rw [List.takeWhile_append_of_pos inside]
    cases rest' with
    | nil => exact List.append_nil _
    | cons d rest' =>
      have other : isWordChar d = false := apart
      rw [List.takeWhile_cons_of_neg (Bool.eq_false_iff.mp other), List.append_nil]
  rw [List.cons_append] at noEntry' ⊢
  rw [next?_of_head noBlank (comment?_of_head noComment) noString, noEntry', number?_of_head noDigit,
    quotedName?_of_head noQuote, identifier?, if_pos start, stops]
  rfl

/-- What the entries of `standard` stand for: words for keywords, marks for kinds with one text. -/
theorem standard_kinds : ∀ e ∈ Vocabulary.standard.entries,
    (∀ m ∈ e.2.mark?, e.1 = m) ∧ e.2.isKeyword = e.1.toList.head?.any isLetter ∧ e.2.isTrivia = false ∧
      e.2 ∉ [.symbol, .star, .stringLiteral, .numericLiteral, .preparedArgument] := by
  rw [Vocabulary.standard_entries]
  decide

/-- What an entry was found at. -/
theorem entry_of_longest? (found : Vocabulary.standard.longest? before (cs ++ rest) = some (cs.length, kind)) :
    ∃ e ∈ Vocabulary.standard.entries, e.2 = kind ∧ cs.map Char.toUpper = e.1.toList ∧
      (kind.isKeyword = true → Vocabulary.boundary before rest.head? = true) := by
  obtain ⟨⟨e, mem, matched, rfl⟩, _⟩ := Vocabulary.longest?_eq_some found
  obtain ⟨ds, after, split, folds, size, ends⟩ := Vocabulary.matchLength?_eq_some.mp matched
  obtain ⟨rfl, rfl⟩ := List.append_inj split size.symm
  exact ⟨e, mem, rfl, folds, fun keyword => ends ((standard_kinds e mem).2.1 ▸ keyword)⟩

section Entry

variable {e : String × TokenKind} (mem : e ∈ Vocabulary.standard.entries) (folds : cs.map Char.toUpper = e.1.toList)

include mem folds

/-- The keywords are written with letters. -/
theorem isLetter_of_entry (keyword : e.2.isKeyword = true) : ∀ c ∈ cs, isLetter c = true := by
  have head := (standard_kinds e mem).2.1
  obtain ⟨some, letters | ⟨others, _⟩⟩ := Vocabulary.standard_shaped e mem
  · intro c listed
    rw [← isLetter_toUpper]
    exact letters _ (folds ▸ List.mem_map_of_mem listed)
  · obtain ⟨c, word, whole⟩ := List.exists_cons_of_ne_nil some
    rw [keyword, whole] at head
    have other := others c (by rw [whole]; exact List.mem_cons_self)
    exact Bool.noConfusion ((isWordChar_of_isLetter head.symm).symm.trans other)

/-- All other entries are written without word characters. -/
theorem not_isWordChar_of_entry (noKeyword : e.2.isKeyword = false) : ∀ c ∈ cs, isWordChar c = false := by
  have head := (standard_kinds e mem).2.1
  obtain ⟨some, letters | ⟨others, _⟩⟩ := Vocabulary.standard_shaped e mem
  · obtain ⟨c, word, whole⟩ := List.exists_cons_of_ne_nil some
    rw [noKeyword, whole] at head
    have letter := letters c (by rw [whole]; exact List.mem_cons_self)
    exact Bool.noConfusion (letter.symm.trans head.symm)
  · intro c listed
    rw [← isWordChar_toUpper]
    exact others _ (folds ▸ List.mem_map_of_mem listed)

end Entry

/-- An entry is found again, if nothing goes on with it. -/
theorem next?_entry (found : Vocabulary.standard.longest? before (cs ++ rest) = some (cs.length, kind)) (some : cs ≠ [])
    (noBlank : ∀ c ∈ cs.head?, isBlank c = false) (noComment : comment? (cs ++ rest) = none)
    (alone : kind.isKeyword = true → before'.any isWordChar = false) (clear : kind.Clear rest'.head?) :
    next? .standard before' (cs ++ rest') = .some (cs.length, kind) := by
  obtain ⟨e, mem, rfl, folds, bounds⟩ := entry_of_longest? found
  obtain ⟨marks, keyword, _, others⟩ := standard_kinds e mem
  obtain ⟨c, ds, rfl⟩ := List.exists_cons_of_ne_nil some
  have noString : c ≠ '\x27' ∧ c ≠ '"' := by
    constructor
    all_goals
      rintro rfl
      cases (Vocabulary.standard_longest?_of_head (.inr (by decide))).symm.trans found
  suffices again : comment? (c :: ds ++ rest') = none ∧
      Vocabulary.standard.longest? before' (c :: ds ++ rest') = .some ((c :: ds).length, e.2) by
    obtain ⟨noComment, again⟩ := again
    rw [List.cons_append] at noComment again ⊢
    rw [next?_of_head (noBlank c rfl) noComment noString, again]
    rfl
  cases word : e.2.isKeyword with
  | true =>
    have letters := isLetter_of_entry mem folds word
    have bounds := bounds word
    rw [Vocabulary.boundary, Bool.and_eq_true, Bool.not_eq_true', Bool.not_eq_true'] at bounds
    have inside : ∀ d ∈ c :: ds, isWordChar d = true := fun d listed => isWordChar_of_isLetter (letters d listed)
    have last : rest'.head?.any isWordChar = false := by
      cases more : rest'.head? with
      | none => rfl
      | some d =>
        rw [more] at clear
        rcases clear with dot | opening | clear
        · rw [dot] at word; cases word
        · rw [opening] at word; cases word
        · rcases clear d rfl with blank | ⟨symbol, _⟩ | ⟨operator, _⟩
          · have noWord : ∀ d ∈ [' ', '\n', ')', ',', ';'], isWordChar d = false := by decide
            exact noWord d blank
          · rw [symbol] at word; cases word
          · rw [operator] at word; cases word
    refine ⟨?_, ?_⟩
    · have start : isWordStart c = true := by
        rw [isWordStart, letters c List.mem_cons_self]
        rfl
      exact comment?_of_head (wordStart_class start).2.1
    · exact (Vocabulary.standard_longest?_word some inside (alone word) last bounds.1 bounds.2).trans found
  | false =>
    have other := not_isWordChar_of_entry mem folds word c List.mem_cons_self
    have mark {m : String} {d : Char} (same : .some m = e.2.mark?) (isMark : m.toList = [d]) (fold : d.toUpper = d)
        (plain : isLetter d = false) : c = d := by
      have text := folds
      rw [marks m same.symm, isMark] at text
      have head : c.toUpper = d := (List.cons.inj text).1
      have noLetter : isLetter c = false := by rw [← isLetter_toUpper, head, plain]
      rwa [toUpper_of_not_isLetter noLetter] at head
    rcases clear with dot | opening | clear
    · obtain rfl := mark (m := ".") (d := '.') (by rw [dot]; rfl) rfl rfl rfl
      exact ⟨comment?_of_head (by decide), Vocabulary.standard_longest?_operator other found (.inl (by decide))⟩
    · obtain rfl := mark (m := "(") (d := '(') (by rw [opening]; rfl) rfl rfl rfl
      exact ⟨comment?_of_head (by decide), Vocabulary.standard_longest?_operator other found (.inl (by decide))⟩
    · have behind : ∀ d ∈ rest'.head?, (d ≠ '-' ∧ d ≠ '*') ∧ d ∉ Vocabulary.operatorTail := by
        intro d first
        rcases clear d first with blank | ⟨symbol, _⟩ | ⟨_, digit⟩
        · clear first
          revert d
          decide
        · rw [symbol] at others
          exact absurd (by decide) others
        · exact ascii_induction (p := fun d => d.isDigit = true → (d ≠ '-' ∧ d ≠ '*') ∧ d ∉ Vocabulary.operatorTail)
            (by decide) (ascii_of_isWordChar (by simp [isWordChar, Char.isAlphanum, digit])) digit
      exact ⟨comment?_append noComment fun d first => (behind d first).1,
        Vocabulary.standard_longest?_operator other found (.inr fun d first => (behind d first).2)⟩

/-- Which rule finds a token. -/
inductive Found (before : Option Char) (cs rest : List Char) : TokenKind → Prop
  | blank : run? isBlank (cs ++ rest) = some cs.length → Found before cs rest .whitespace
  | comment : comment? (cs ++ rest) = some cs.length → Found before cs rest .comment
  | string {quote : Char} : quote = '\x27' ∨ quote = '"' → string? quote (cs ++ rest) = some cs.length →
      Found before cs rest .stringLiteral
  | entry {kind : TokenKind} : Vocabulary.standard.longest? before (cs ++ rest) = some (cs.length, kind) →
      Found before cs rest kind
  | number : Number cs → Found before cs rest .numericLiteral
  | quotedName : quotedName? (cs ++ rest) = some cs.length → Found before cs rest .symbol
  | identifier : Vocabulary.standard.longest? before (cs ++ rest) = none → identifier? (cs ++ rest) = some cs.length →
      Found before cs rest .symbol
  | preparedArgument : preparedArgument? (cs ++ rest) = some cs.length → Found before cs rest .preparedArgument

theorem found_of_next? (found : next? .standard before (cs ++ rest) = some (cs.length, kind)) : Found before cs rest kind := by
  rcases next?_cases found with ⟨taken, rfl⟩ | ⟨taken, rfl⟩ | ⟨⟨quote, isQuote, taken⟩, rfl⟩ | entry |
    ⟨noEntry, ⟨taken, rfl⟩ | ⟨taken, rfl⟩ | ⟨taken, rfl⟩ | ⟨taken, rfl⟩⟩
  · exact .blank taken
  · exact .comment taken
  · exact .string isQuote taken
  · exact .entry entry
  · obtain ⟨ds, after, split, size, isNumber⟩ := number?_eq_some taken
    obtain ⟨rfl, rfl⟩ := List.append_inj split size.symm
    exact .number isNumber
  · exact .quotedName taken
  · exact .identifier noEntry taken
  · exact .preparedArgument taken

/-- What is found is found again, where it stands apart. -/
theorem Found.again (found : Found before cs rest kind) (significant : kind.isTrivia = false) (some : cs ≠ []) (noBlank : ∀ c ∈ cs.head?, isBlank c = false)
    (noComment : comment? (cs ++ rest) = none)
    (alone : kind = .symbol → cs.head?.any isWordChar = true → before.any isWordChar = false)
    (alone' : kind.isVerbal = true → before'.any isWordChar = false) (clear : kind.Clear rest'.head?) :
    next? .standard before' (cs ++ rest') = .some (cs.length, kind) := by
  have plain (noDot : kind ≠ .dot) (noOpening : kind ≠ .bracketOpen) (noSymbol : kind ≠ .symbol) (noOperator : kind ≠ .operator) :
      ∀ c ∈ rest'.head?, c ∈ [' ', '\n', ')', ',', ';'] := by
    rcases clear with dot | opening | clear
    · exact absurd dot noDot
    · exact absurd opening noOpening
    · intro c first
      rcases clear c first with blank | ⟨symbol, _⟩ | ⟨operator, _⟩
      · exact blank
      · exact absurd symbol noSymbol
      · exact absurd operator noOperator
  have named (symbol : kind = .symbol) : ∀ c ∈ rest'.head?, c ∈ [' ', '\n', ')', ',', ';', '.', '('] := by
    subst symbol
    rcases clear with dot | opening | clear
    · cases dot
    · cases opening
    · intro c first
      rcases clear c first with blank | ⟨_, glued⟩ | ⟨operator, _⟩
      · exact List.mem_append_left ['.', '('] blank
      · exact List.mem_append_right [' ', '\n', ')', ',', ';'] glued
      · cases operator
  have apart {p : Char → Bool} {l : List Char} (behind : ∀ c ∈ rest'.head?, c ∈ l) (other : ∀ c ∈ l, p c = false) :
      rest'.head?.any p = false := by
    cases first : rest'.head? with
    | none => rfl
    | some c => exact other c (behind c first)
  cases found with
  | blank => cases significant
  | comment => cases significant
  | @string quote isQuote found =>
    refine next?_string isQuote found some fun same => ?_
    have behind := plain nofun nofun nofun nofun quote same
    rcases isQuote with rfl | rfl
    all_goals exact absurd behind (by decide)
  | entry found =>
    refine next?_entry found some noBlank noComment (fun keyword => alone' ?_) clear
    rw [TokenKind.isVerbal, keyword, Bool.or_true]
  | number number =>
    refine next?_number number fun c first => ?_
    have others : ∀ c ∈ [' ', '\n', ')', ',', ';'], c.isDigit = false ∧ c ≠ '.' := by decide
    exact others c (plain nofun nofun nofun nofun c first)
  | quotedName found =>
    exact next?_quotedName found some fun same => absurd (named rfl _ same) (by decide)
  | identifier noEntry found =>
    exact next?_identifier found some noEntry (alone rfl) (alone' rfl) (apart (named rfl) (by decide))
  | preparedArgument found =>
    exact next?_preparedArgument found some (apart (plain nofun nofun nofun nofun) (by decide))

/-- The scanner itself never finds a `*` that stands for all columns. -/
theorem Found.not_star (found : Found before cs rest kind) : kind ≠ .star := by
  cases found with
  | entry found =>
    obtain ⟨e, mem, rfl, _⟩ := entry_of_longest? found
    intro star
    have others := (standard_kinds e mem).2.2.2
    rw [star] at others
    exact others (by decide)
  | _ => exact nofun

end Scan

/-- Only the kind of a `*` is resolved. -/
theorem TokenKind.resolveStar_cases (kind : TokenKind) (lexeme : String) (previous : Option TokenKind) :
    kind.resolveStar lexeme previous = kind ∨
      kind = .operator ∧ lexeme = "*" ∧ kind.resolveStar lexeme previous = .star := by
  unfold TokenKind.resolveStar
  split
  · next product => exact .inr ⟨product.1, product.2.1, rfl⟩
  · exact .inl rfl

namespace Token

variable {kind : TokenKind}

/-- The tokens that the scanner finds with the vocabulary of SQL are found again, if they are no words right behind
others. -/
theorem standard_of_next? (found : Scan.next? .standard before (cs ++ rest) = some (cs.length, kind)) (some : cs ≠ [])
    (significant : kind.isTrivia = false)
    (alone : kind = .symbol → cs.head?.any isWordChar = true → before.any isWordChar = false)
    (previous : Option TokenKind) (place : Position) :
    Standard ⟨kind.resolveStar (String.ofList cs) previous, String.ofList cs, place⟩ := by
  obtain ⟨c, ds, rfl⟩ := List.exists_cons_of_ne_nil some
  obtain ⟨noBlank, noComment⟩ := Scan.isBlank_of_next? found significant
  have origin := Scan.found_of_next? found
  have noStar := origin.not_star
  have mark : ∀ m ∈ kind.mark?, String.ofList (c :: ds) = m := by
    intro m isMark
    cases origin with
    | entry found =>
      obtain ⟨e, mem, rfl, folds, _⟩ := Scan.entry_of_longest? found
      rw [(Scan.standard_kinds e mem).1 m isMark] at folds
      have single : ∀ k : TokenKind, ∀ m ∈ k.mark?, ∃ d, m.toList = [d] ∧ isLetter d = false := by
        intro k m isMark
        cases k <;> cases isMark <;> exact ⟨_, rfl, rfl⟩
      obtain ⟨d, isSingle, noLetter⟩ := single e.2 m isMark
      rw [isSingle] at folds
      obtain ⟨rfl, none⟩ := List.cons.inj folds
      obtain rfl := List.map_eq_nil_iff.mp none
      rw [isLetter_toUpper] at noLetter
      rw [toUpper_of_not_isLetter noLetter] at isSingle
      rw [← isSingle, String.ofList_toList]
    | _ => cases isMark
  have again (before' : Option Char) (rest' : List Char) (apart : kind.isVerbal = true → before'.any isWordChar = false)
      (clear : kind.Clear rest'.head?) :=
    origin.again significant some (by rintro _ ⟨⟩; exact noBlank) noComment alone apart clear
  rcases TokenKind.resolveStar_cases kind (String.ofList (c :: ds)) previous with same | ⟨rfl, star, same⟩
  · rw [same]
    refine ⟨significant, ⟨c, ds, String.toList_ofList, noBlank⟩, mark, ?_, ?_⟩
    · rintro rfl
      cases origin with
      | number number =>
        obtain ⟨d, _, eq, digit⟩ := number.head
        obtain ⟨rfl, _⟩ := List.cons.inj eq
        rw [String.toList_ofList]
        exact digit
      | entry found =>
        obtain ⟨e, mem, eq, _⟩ := Scan.entry_of_longest? found
        have others := (Scan.standard_kinds e mem).2.2.2
        rw [eq] at others
        exact absurd (by decide) others
    · intro before' rest' alone' clear
      rw [String.toList_ofList, again before' rest' alone' clear]
      cases kind <;> first | rfl | exact absurd rfl noStar
  · rw [same]
    refine ⟨rfl, ⟨c, ds, String.toList_ofList, noBlank⟩, ?_, nofun, ?_⟩
    · rintro _ ⟨⟩
      exact star
    · intro before' rest' _ clear
      rw [String.toList_ofList]
      refine again before' rest' nofun ?_
      rcases clear with none | none | clear
      · cases none
      · cases none
      · refine .inr (.inr fun d first => ?_)
        rcases clear d first with blank | ⟨none, _⟩ | ⟨none, _⟩
        · exact .inl blank
        · cases none
        · cases none

end Token

end SqlFold
