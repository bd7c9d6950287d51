import SqlFold.Proofs.Lexing.Tokens
import SqlFold.Proofs.Scanning

/-!
# What the scanner finds in a row

Where the scanner stands right behind a word character, it stands behind a number, or no word goes on there
(`Script.Cursor.Calm`). So all tokens of a text are found again elsewhere, except for names that stand behind a
number, and a `*` is told from a product by the token before it (`Script.lexed_significant`).
-/

namespace SqlFold

open Text

variable {before : Option Char} {text rest cs : List Char} {n : Nat} {kind : TokenKind}

/-! ## Ends of tokens -/

/-- A closing quote is the last character that is taken. -/
theorem Text.Quoted.take_closing {quote : Char} {escapes : Bool} (found : closing quote escapes text = some n) :
    ∃ front, text.take n = front ++ [quote] := by
  have behind {cs text : List Char} {k m n : Nat} (later : ∃ front, text.take m = front ++ [quote]) (size : m + k = n)
      (ds : List Char) (split : cs = ds ++ text) (same : ds.length = k) : ∃ front, cs.take n = front ++ [quote] := by
    obtain ⟨front, later⟩ := later
    refine ⟨ds ++ front, ?_⟩
    rw [split, ← size, ← same, Nat.add_comm, List.take_length_add_append, later, List.append_assoc]
  fun_induction closing quote escapes text generalizing n with
  | case1 => cases found
  | case2 => cases found
  | case3 =>
    cases found
    exact ⟨[], rfl⟩
  | case4 => cases found
  | case5 c d rest _ ih =>
    obtain ⟨m, inner, size⟩ := Option.map_eq_some_iff.mp found
    exact behind (ih inner) size [c, d] rfl rfl
  | case6 rest _ ih =>
    obtain ⟨m, inner, size⟩ := Option.map_eq_some_iff.mp found
    exact behind (ih inner) size [_, _] rfl rfl
  | case7 =>
    cases found
    exact ⟨[], rfl⟩
  | case8 c d rest _ _ ih =>
    obtain ⟨m, inner, size⟩ := Option.map_eq_some_iff.mp found
    exact behind (ih inner) size [c] rfl rfl

namespace Scan

/-- A block comment runs up to a slash, or to the end of the text. -/
theorem take_blockLength (text : List Char) :
    (∃ front, text.take (blockLength text) = front ++ ['/']) ∨ text.drop (blockLength text) = [] := by
  fun_induction blockLength text with
  | case1 => exact .inr rfl
  | case2 => exact .inr rfl
  | case3 c d rest same =>
    obtain ⟨rfl, rfl⟩ := same
    exact .inl ⟨['*'], rfl⟩
  | case4 c d rest _ ih =>
    refine ih.imp_left ?_
    rintro ⟨front, ih⟩
    exact ⟨c :: front, by rw [List.take_succ_cons, ih, List.cons_append]⟩

/-- No word goes on behind a line. -/
theorem head?_drop_line (text : List Char) :
    (text.drop (text.takeWhile (· != '\n')).length).head?.any isWordChar = false := by
  have behind : text.drop (text.takeWhile (· != '\n')).length = text.dropWhile (· != '\n') := by
    have split := List.takeWhile_append_dropWhile (p := (· != '\n')) (l := text)
    generalize text.takeWhile (· != '\n') = front at split ⊢
    generalize text.dropWhile (· != '\n') = back at split ⊢
    rw [← split, List.drop_left]
  rw [behind]
  have stops := List.head?_dropWhile_not (· != '\n') text
  cases first : (text.dropWhile (· != '\n')).head? with
  | none => rfl
  | some c =>
    rw [first] at stops
    obtain rfl : c = '\n' := by simpa using stops
    rfl

theorem not_isWordChar_of_isBlank {c : Char} (blank : isBlank c = true) : isWordChar c = false :=
  Bool.eq_false_iff.mpr fun word => Bool.noConfusion (blank.symm.trans
    (ascii_induction (p := fun c => isWordChar c = true → isBlank c = false) (by decide) (ascii_of_isWordChar word) word))

theorem blockLength_le (text : List Char) : blockLength text ≤ text.length := by
  fun_induction blockLength text with
  | case1 => exact Nat.le_refl _
  | case2 => exact Nat.le_refl _
  | case3 => simp
  | case4 _ _ _ _ ih => exact Nat.succ_le_succ ih

/-! ## How much is taken -/

section Bounds

variable {m : Nat}

theorem run?_bounds {p : Char → Bool} (found : run? p text = some m) : 0 < m ∧ m ≤ text.length := by
  obtain ⟨cs, rest, rfl, rfl, some, _⟩ := run?_eq_some found
  rw [List.length_append]
  exact ⟨List.length_pos_iff.mpr some, Nat.le_add_right _ _⟩

theorem comment?_bounds (found : comment? text = some m) : 0 < m ∧ m ≤ text.length := by
  unfold comment? at found
  split at found
  · next rest =>
    cases found
    exact ⟨Nat.succ_pos _, Nat.succ_le_succ (List.takeWhile_prefix _).length_le⟩
  · next rest =>
    cases found
    exact ⟨Nat.succ_pos _, Nat.succ_le_succ (Nat.succ_le_succ (List.takeWhile_prefix _).length_le)⟩
  · next rest =>
    cases found
    exact ⟨Nat.succ_pos _, Nat.succ_le_succ (Nat.succ_le_succ (blockLength_le rest))⟩
  · cases found

theorem closing_bounds {c quote : Char} {escapes : Bool} {rest : List Char}
    (found : (Text.Quoted.closing quote escapes rest).map (· + 1) = some m) : 0 < m ∧ m ≤ (c :: rest).length := by
  obtain ⟨m, closes, rfl⟩ := Option.map_eq_some_iff.mp found
  exact ⟨Nat.succ_pos m, Nat.succ_le_succ (Text.Quoted.closing_le_length closes).2⟩

theorem string?_bounds {quote : Char} (found : string? quote text = some m) : 0 < m ∧ m ≤ text.length := by
  unfold string? at found
  split at found
  · cases found
  · split at found
    · exact closing_bounds found
    · cases found

theorem number?_bounds (found : number? text = some m) : 0 < m ∧ m ≤ text.length := by
  obtain ⟨cs, rest, rfl, rfl, number⟩ := number?_eq_some found
  obtain ⟨c, ds, rfl, _⟩ := number.head
  rw [List.length_append]
  exact ⟨Nat.succ_pos _, Nat.le_add_right _ _⟩

theorem quotedName?_bounds (found : quotedName? text = some m) : 0 < m ∧ m ≤ text.length := by
  unfold quotedName? at found
  split at found
  · cases found
  · split at found
    · exact closing_bounds found
    · cases found

theorem identifier?_bounds (found : identifier? text = some m) : 0 < m ∧ m ≤ text.length := by
  unfold identifier? at found
  split at found
  · cases found
  · split at found
    · cases found
      exact ⟨Nat.succ_pos _, Nat.succ_le_succ (List.takeWhile_prefix _).length_le⟩
    · cases found

theorem preparedArgument?_bounds (found : preparedArgument? text = some m) : 0 < m ∧ m ≤ text.length := by
  unfold preparedArgument? at found
  split at found
  · cases found
    exact ⟨Nat.one_pos, Nat.succ_le_succ (Nat.zero_le _)⟩
  · obtain ⟨m, named, rfl⟩ := Option.map_eq_some_iff.mp found
    exact ⟨Nat.succ_pos m, Nat.succ_le_succ (run?_bounds named).2⟩
  · cases found

/-- Every rule but that of the vocabulary takes some characters, and no more than there are. -/
theorem next?_bounds {vocabulary : Vocabulary} (found : next? vocabulary before text = some (n, kind)) :
    vocabulary.longest? before text = some (n, kind) ∨ 0 < n ∧ n ≤ text.length := by
  rcases next?_cases found with ⟨taken, _⟩ | ⟨taken, _⟩ | ⟨⟨quote, _, taken⟩, _⟩ | entry |
    ⟨_, ⟨taken, _⟩ | ⟨taken, _⟩ | ⟨taken, _⟩ | ⟨taken, _⟩⟩
  · exact .inr (run?_bounds taken)
  · exact .inr (comment?_bounds taken)
  · exact .inr (string?_bounds taken)
  · exact .inl entry
  · exact .inr (number?_bounds taken)
  · exact .inr (quotedName?_bounds taken)
  · exact .inr (identifier?_bounds taken)
  · exact .inr (preparedArgument?_bounds taken)

/-- The scanner takes no more than there is. -/
theorem next?_le {vocabulary : Vocabulary} (found : next? vocabulary before text = some (n, kind)) : n ≤ text.length := by
  rcases next?_bounds found with entry | ⟨_, le⟩
  · obtain ⟨⟨_, _, matched, _⟩, _⟩ := Vocabulary.longest?_eq_some entry
    obtain ⟨cs, rest, rfl, _, rfl, _⟩ := Vocabulary.matchLength?_eq_some.mp matched
    rw [List.length_append]
    exact Nat.le_add_right _ _
  · exact le

/-- What the scanner takes stands at the front of the text. -/
theorem next?_cut {vocabulary : Vocabulary} (found : next? vocabulary before text = some (n, kind)) :
    ∃ cs rest, text = cs ++ rest ∧ n = cs.length :=
  ⟨text.take n, text.drop n, (List.take_append_drop n text).symm, (List.length_take_of_le (next?_le found)).symm⟩

end Bounds

/-! ## Where a token ends -/

/-- A comment ends at the end of a line, or at a slash. -/
theorem comment?_ends (found : comment? text = some n) (word : (text.take n).getLast?.any isWordChar = true) :
    (text.drop n).head?.any isWordChar = false := by
  unfold comment? at found
  split at found
  · next rest =>
    cases found
    exact head?_drop_line rest
  · next rest =>
    cases found
    exact head?_drop_line rest
  · next rest =>
    cases found
    rcases take_blockLength rest with ⟨front, ends⟩ | ends
    · rw [show ('/' :: '*' :: rest).take (blockLength rest + 2) = '/' :: '*' :: rest.take (blockLength rest) from rfl, ends] at word
      rw [← List.cons_append, ← List.cons_append, List.getLast?_concat] at word
      cases word
    · rw [show ('/' :: '*' :: rest).drop (blockLength rest + 2) = rest.drop (blockLength rest) from rfl, ends]
      rfl
  · cases found

/-- A text in quotes ends with its quote. -/
theorem getLast?_quoted {quote : Char} {escapes : Bool} {body : List Char}
    (found : (Text.Quoted.closing quote escapes (body ++ rest)).map (· + 1) = some (quote :: body).length) :
    (quote :: body).getLast? = some quote := by
  obtain ⟨m, closes, size⟩ := Option.map_eq_some_iff.mp found
  obtain rfl : m = body.length := Nat.add_right_cancel size
  obtain ⟨front, ends⟩ := Text.Quoted.take_closing closes
  rw [List.take_left] at ends
  rw [ends, ← List.cons_append, List.getLast?_concat]

/-- What the scanner takes ends with a word character only if it is a number or an entry of the vocabulary, or if no
word goes on behind it. -/
theorem next?_ends {vocabulary : Vocabulary} (found : next? vocabulary before (cs ++ rest) = some (cs.length, kind))
    (some : cs ≠ []) (word : cs.getLast?.any isWordChar = true) :
    kind = .numericLiteral ∨ rest.head?.any isWordChar = false ∨
      vocabulary.longest? before (cs ++ rest) = .some (cs.length, kind) := by
  obtain ⟨c, body, rfl⟩ := List.exists_cons_of_ne_nil some
  rcases next?_cases found with ⟨taken, _⟩ | ⟨taken, _⟩ | ⟨⟨quote, isQuote, taken⟩, _⟩ | entry |
    ⟨_, ⟨_, number⟩ | ⟨taken, _⟩ | ⟨taken, _⟩ | ⟨taken, _⟩⟩
  · -- blanks
    obtain ⟨ds, after, split, size, _, inside, _⟩ := run?_eq_some taken
    obtain ⟨rfl, rfl⟩ := List.append_inj split size.symm
    obtain ⟨d, last, isWord⟩ := Option.any_eq_true _ _ |>.mp word
    exact Bool.noConfusion (isWord.symm.trans (not_isWordChar_of_isBlank (inside d (List.mem_of_getLast? last))))
  · -- a comment
    have ends := comment?_ends taken
    rw [List.take_left, List.drop_left] at ends
    exact .inr (.inl (ends word))
  · -- a string
    rw [List.cons_append, string?] at taken
    split at taken
    · next same =>
      subst same
      rw [getLast?_quoted taken] at word
      rcases isQuote with rfl | rfl <;> cases word
    · cases taken
  · exact .inr (.inr entry)
  · exact .inl number
  · -- a quoted name
    rw [List.cons_append, quotedName?] at taken
    split at taken
    · next same =>
      subst same
      rw [getLast?_quoted taken] at word
      cases word
    · cases taken
  · obtain ⟨_, _, _, _, _, stops⟩ := identifier?_eq_some taken some
    exact .inr (.inl stops)
  · rcases preparedArgument?_eq_some taken some with same | ⟨_, _, _, _, stops⟩
    · rw [same] at word
      cases word
    · exact .inr (.inl stops)

/-- With the vocabulary of SQL, only behind a number a word goes on. -/
theorem standard_next?_ends (found : next? .standard before (cs ++ rest) = some (cs.length, kind)) (some : cs ≠ [])
    (word : cs.getLast?.any isWordChar = true) : kind = .numericLiteral ∨ rest.head?.any isWordChar = false := by
  rcases next?_ends found some word with number | stops | entry
  · exact .inl number
  · exact .inr stops
  · obtain ⟨e, mem, rfl, folds, bounds⟩ := entry_of_longest? entry
    cases keyword : e.2.isKeyword with
    | true =>
      have bounds := bounds keyword
      rw [Vocabulary.boundary, Bool.and_eq_true, Bool.not_eq_true', Bool.not_eq_true'] at bounds
      exact .inr bounds.2
    | false =>
      obtain ⟨d, last, isWord⟩ := Option.any_eq_true _ _ |>.mp word
      have other := not_isWordChar_of_entry mem folds keyword d (List.mem_of_getLast? last)
      exact Bool.noConfusion (isWord.symm.trans other)

end Scan

namespace Script

/-- Where the scanner stands right behind a word character, it stands behind a number, or no word goes on. -/
def Cursor.Calm (cur : Cursor) (text : List Char) : Prop :=
  cur.before.any isWordChar = true → cur.previous = some .numericLiteral ∨ text.head?.any isWordChar = false

/-- Tokens as they stand behind one of the kind `previous`, trivia left out: they are found again elsewhere, but
for names right behind a number, and what stands before a `*` says whether it multiplies. -/
def Lexed : Option TokenKind → List Token → Prop
  | _, [] => True
  | previous, t :: ts =>
    ((previous = some .numericLiteral → t.kind ≠ .symbol) → t.Standard) ∧
      (t.kind = .star → previous.any TokenKind.beforeProduct = false) ∧
      (t.kind = .operator → t.lexeme = "*" → previous.any TokenKind.beforeProduct = true) ∧ Lexed (some t.kind) ts

variable {cur cur' : Cursor} {tokens : List Token}

/-- A `*` gets its kind from the token before it. -/
theorem star_of_resolveStar {lexeme : String} {previous : Option TokenKind} (noStar : kind ≠ .star) :
    (kind.resolveStar lexeme previous = .star → previous.any TokenKind.beforeProduct = false) ∧
      (kind.resolveStar lexeme previous = .operator → lexeme = "*" → previous.any TokenKind.beforeProduct = true) := by
  unfold TokenKind.resolveStar
  split
  · next product => exact ⟨fun _ => by simpa using product.2.2, nofun⟩
  · next other =>
    refine ⟨fun star => absurd star noStar, fun isOperator star => ?_⟩
    by_contra noProduct
    exact other ⟨isOperator, star, by simpa using noProduct⟩

/-- The scanner stays calm behind what it takes. -/
theorem Cursor.Calm.past {cs rest : List Char} {sort : TokenKind}
    (next : Scan.next? .standard cur.before (cs ++ rest) = some (cs.length, kind)) (some : cs ≠ [])
    (same : kind = .numericLiteral → sort = .numericLiteral) : (cur.past sort cs).Calm rest := by
  intro word
  have ends : cs.getLast?.any isWordChar = true := by
    rw [Cursor.past, List.getLast?_eq_some_getLast some, Option.some_or] at word
    rwa [List.getLast?_eq_some_getLast some]
  rcases Scan.standard_next?_ends next some ends with number | stops
  · left
    rw [Cursor.past, same number]
    rfl
  · exact .inr stops

/-- The tokens that the scanner takes from a calm place on. -/
theorem Scanned.lexed (scanned : Scanned .standard cur text tokens cur' rest) (calm : cur.Calm text) :
    Lexed cur.previous (tokens.filter (!·.kind.isTrivia)) := by
  induction scanned with
  | stop => trivial
  | @take cur cur' text rest length kind tokens more positive next _ ih =>
    obtain ⟨cs, rest', rfl, rfl⟩ := Scan.next?_cut next
    rw [List.take_left, List.drop_left] at *
    have some : cs ≠ [] := List.length_pos_iff.mp positive
    have found := Scan.found_of_next? next
    have noStar : kind ≠ .star := found.not_star
    have resolved := TokenKind.resolveStar_cases kind (String.ofList cs) cur.previous
    have later := ih (.past next some fun number => by
      rcases resolved with same | ⟨isOperator, _⟩
      · exact same.trans number
      · exact absurd (isOperator.symm.trans number) nofun)
    rcases Bool.eq_false_or_eq_true (cur.token kind cs).kind.isTrivia with trivia | significant
    · rw [List.filter_cons_of_neg (by simp [trivia])]
      rwa [Cursor.past, if_pos trivia] at later
    · rw [List.filter_cons_of_pos (by simp [significant])]
      rw [Cursor.past, if_neg (by simp [significant])] at later
      have plain : kind.isTrivia = false := by
        rcases resolved with same | ⟨rfl, _⟩
        · rwa [Cursor.token, same] at significant
        · rfl
      obtain ⟨star, product⟩ := @star_of_resolveStar _ (String.ofList cs) cur.previous noStar
      refine ⟨fun noName => ?_, star, product, later⟩
      refine Token.standard_of_next? next some plain (fun symbol starts => Bool.eq_false_iff.mpr fun word => ?_) cur.previous
        cur.position
      -- A name goes on behind a word character only where that one ends a number.
      rcases calm word with number | stops
      · exact noName number (by rcases resolved with same | ⟨isOperator, _⟩ <;> simp_all [Cursor.token])
      · obtain ⟨c, ds, rfl⟩ := List.exists_cons_of_ne_nil some
        exact Bool.noConfusion (starts.symm.trans stops)

/-- The significant tokens of a text are found again elsewhere, but for names right behind numbers. -/
theorem lexed_significant {source : String} {script : Script} (scanned : ofText? .standard source = .ok script) :
    Lexed none script.significant := by
  obtain ⟨_, _, taken⟩ := scanned_of_ok scanned
  exact taken.lexed nofun

end Script

end SqlFold
