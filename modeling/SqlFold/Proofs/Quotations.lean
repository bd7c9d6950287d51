import SqlFold.Proofs.Lexing.Tokens
import SqlFold.Proofs.Scanning

/-!
# Nothing breaks out of a string

Between the quotes of a string stand pairs of a backslash and any character, pairs of quotes, and characters that are
neither (`Text.Quoted.Body`). Where such a body stands before a quote that is not doubled, the scanner stops at this
quote and at no other one (`Text.Quoted.closing_eq_some`). So a text whose backslashes and quotes were written twice is
one string again, whatever it holds (`Scan.strings_sealed`).
-/

namespace SqlFold

open Text

namespace Text.Quoted

variable {quote : Char} {cs ds rest rest' text : List Char} {n : Nat}

/-- What may stand between the quotes of a string. -/
inductive Body (quote : Char) : List Char → Prop
  | nil : Body quote []
  | escaped (c : Char) {cs : List Char} : Body quote cs → Body quote ('\\' :: c :: cs)
  | doubled {cs : List Char} : Body quote cs → Body quote (quote :: quote :: cs)
  | plain {c : Char} {cs : List Char} : c ≠ '\\' → c ≠ quote → Body quote cs → Body quote (c :: cs)

/-- The text with every backslash and every quote written twice. -/
def guarded (quote : Char) (cs : List Char) : List Char :=
  cs.flatMap fun c => if c = '\\' ∨ c = quote then [c, c] else [c]

/-- The guarded text between quotes. -/
def literal (quote : Char) (cs : List Char) : List Char := quote :: guarded quote cs ++ [quote]

/-- A guarded text may stand between quotes. -/
theorem body_guarded (quote : Char) (cs : List Char) : Body quote (guarded quote cs) := by
  induction cs with
  | nil => exact .nil
  | cons c cs ih =>
    rw [guarded, List.flatMap_cons, ← guarded]
    by_cases backslash : c = '\\'
    · rw [if_pos (.inl backslash), backslash]
      exact .escaped '\\' ih
    · by_cases same : c = quote
      · rw [if_pos (.inr same), same]
        exact .doubled ih
      · rw [if_neg (not_or.mpr ⟨backslash, same⟩)]
        exact .plain backslash same ih

/-- The scan goes over a character that is neither an escape nor a quote. -/
theorem closing_plain {escapes : Bool} {c : Char} (noEscape : ¬(escapes && c == '\\') = true) (other : c ≠ quote)
    (text : List Char) : closing quote escapes (c :: text) = (closing quote escapes text).map (· + 1) := by
  cases text with
  | nil => simp only [closing, if_neg noEscape, if_neg other, Option.map_none]
  | cons d text => rw [closing, if_neg noEscape, if_neg other]

/-- The scan goes over a quote that is doubled. -/
theorem closing_pair {escapes : Bool} (noEscape : ¬(escapes && quote == '\\') = true) (text : List Char) :
    closing quote escapes (quote :: quote :: text) = (closing quote escapes text).map (· + 2) := by
  rw [closing, if_neg noEscape, if_pos rfl, if_pos rfl]

/-- The scan stops at a quote that is not doubled. -/
theorem closing_quote {escapes : Bool} (noEscape : ¬(escapes && quote == '\\') = true)
    (ends : rest.head? ≠ some quote) : closing quote escapes (quote :: rest) = some 1 := by
  cases rest with
  | nil => rw [closing, if_neg noEscape, if_pos rfl]
  | cons d rest =>
    have single : d ≠ quote := fun same => ends (congrArg some same)
    rw [closing, if_neg noEscape, if_pos rfl, if_neg single]

/-- The scan goes over a whole body, up to the quote behind it. -/
theorem Body.closing (body : Body quote cs) (noEscape : quote ≠ '\\') (ends : rest.head? ≠ some quote) :
    closing quote true (cs ++ quote :: rest) = some (cs.length + 1) := by
  have noEscape : ¬(true && quote == '\\') = true := by simpa using noEscape
  induction body with
  | nil => exact closing_quote noEscape ends
  | escaped c _ ih =>
    rw [List.cons_append, List.cons_append, Quoted.closing, if_pos (by decide), ih]
    rfl
  | doubled _ ih =>
    rw [List.cons_append, List.cons_append, closing_pair noEscape, ih]
    rfl
  | plain backslash other _ ih =>
    rw [List.cons_append, closing_plain (by simpa using backslash) other, ih]
    rfl

/-- Where the scan stops, it has gone over a body, and the quote there is not doubled. -/
theorem body_of_closing (found : closing quote true text = some n) :
    ∃ cs rest, text = cs ++ quote :: rest ∧ cs.length + 1 = n ∧ Body quote cs ∧ rest.head? ≠ some quote := by
  generalize escapes : true = e at found
  -- The steps of the scan are the constructors of a body, and it stops in cases 3 and 7 only.
  fun_induction closing quote e text generalizing n with
  | case1 => cases found
  | case2 => cases found
  | case3 =>
    cases found
    exact ⟨[], [], rfl, rfl, .nil, (Option.some_ne_none quote).symm⟩
  | case4 => cases found
  | case5 c d rest escape ih =>
    obtain ⟨m, inner, rfl⟩ := Option.map_eq_some_iff.mp found
    obtain ⟨cs, rest, rfl, rfl, body, ends⟩ := ih inner
    obtain rfl : c = '\\' := by simpa [← escapes] using escape
    exact ⟨'\\' :: d :: cs, rest, rfl, rfl, .escaped d body, ends⟩
  | case6 rest _ ih =>
    obtain ⟨m, inner, rfl⟩ := Option.map_eq_some_iff.mp found
    obtain ⟨cs, rest, rfl, rfl, body, ends⟩ := ih inner
    exact ⟨quote :: quote :: cs, rest, rfl, rfl, .doubled body, ends⟩
  | case7 d rest single =>
    cases found
    exact ⟨[], d :: rest, rfl, rfl, .nil, fun same => single (Option.some.inj same)⟩
  | case8 c d rest noEscape other ih =>
    obtain ⟨m, inner, rfl⟩ := Option.map_eq_some_iff.mp found
    obtain ⟨cs, rest, split, rfl, body, ends⟩ := ih inner
    have backslash : c ≠ '\\' := by simpa [← escapes] using noEscape
    exact ⟨c :: cs, rest, by rw [split, List.cons_append], rfl, .plain backslash other body, ends⟩

/-- The scan stops exactly behind a body, at a quote that is not doubled. -/
theorem closing_eq_some (noEscape : quote ≠ '\\') : closing quote true text = some n ↔
    ∃ cs rest, text = cs ++ quote :: rest ∧ cs.length + 1 = n ∧ Body quote cs ∧ rest.head? ≠ some quote := by
  refine ⟨body_of_closing, ?_⟩
  rintro ⟨cs, rest, rfl, rfl, body, ends⟩
  exact body.closing noEscape ends

/-- A text goes on from a quote with one body at most. -/
theorem Body.unique (body : Body quote cs) (body' : Body quote ds) (noEscape : quote ≠ '\\')
    (ends : rest.head? ≠ some quote) (ends' : rest'.head? ≠ some quote)
    (same : cs ++ quote :: rest = ds ++ quote :: rest') : cs = ds ∧ rest = rest' := by
  have found := body.closing noEscape ends
  rw [same, body'.closing noEscape ends'] at found
  obtain ⟨rfl, behind⟩ := List.append_inj same (Nat.add_right_cancel (Option.some.inj found)).symm
  exact ⟨rfl, (List.cons.inj behind).2⟩

end Text.Quoted

namespace Scan

variable {quote : Char} {text : List Char}

/-- At a quote the string rules look for the quote that closes it. -/
theorem strings_of_head (isQuote : quote = '\x27' ∨ quote = '"') (text : List Char) :
    (string? '\x27' (quote :: text)).or (string? '"' (quote :: text)) =
      (Quoted.closing quote true text).map (· + 1) := by
  rcases isQuote with rfl | rfl
  · have noDouble : string? '"' ('\x27' :: text) = none := string?_of_head (by decide)
    rw [noDouble, Option.or_none, string?, if_pos rfl]
  · have noSingle : string? '\x27' ('"' :: text) = none := string?_of_head (by decide)
    rw [noSingle, Option.none_or, string?, if_pos rfl]

/-- Strings are sealed: what stands in one cannot end it, and what is behind it is not drawn into it.

* A text of any characters, put between quotes with its backslashes and quotes doubled, is the next token, whatever the
  vocabulary is and wherever the scanner stands, if no further quote follows; the scanner goes on right behind it.
* At a quote the string rules match exactly the texts from this quote to one that is not doubled with a body between.
* There is at most one such text. -/
theorem strings_sealed (isQuote : quote = '\x27' ∨ quote = '"') :
    (∀ (vocabulary : Vocabulary) (cur : Script.Cursor) (cs rest : List Char), rest.head? ≠ some quote →
      next? vocabulary cur.before (Quoted.literal quote cs ++ rest) =
          some ((Quoted.literal quote cs).length, .stringLiteral) ∧
        Script.tokensFrom vocabulary cur (Quoted.literal quote cs ++ rest) =
          (Script.tokensFrom vocabulary (cur.past .stringLiteral (Quoted.literal quote cs)) rest).map
            (⟨.stringLiteral, String.ofList (Quoted.literal quote cs), cur.position⟩ :: ·)) ∧
    (∀ text n, (string? '\x27' (quote :: text)).or (string? '"' (quote :: text)) = some n ↔
      ∃ body rest, quote :: text = quote :: body ++ [quote] ++ rest ∧ (quote :: body ++ [quote]).length = n ∧
        Quoted.Body quote body ∧ rest.head? ≠ some quote) ∧
    ∀ body rest body' rest', Quoted.Body quote body → Quoted.Body quote body' → rest.head? ≠ some quote →
      rest'.head? ≠ some quote → quote :: body ++ [quote] ++ rest = quote :: body' ++ [quote] ++ rest' →
        body = body' ∧ rest = rest' := by
  have noEscape : quote ≠ '\\' := by rcases isQuote with rfl | rfl <;> decide
  have regroup (body rest : List Char) : quote :: body ++ [quote] ++ rest = quote :: (body ++ quote :: rest) := by
    rw [List.append_assoc, List.singleton_append, List.cons_append]
  refine ⟨?_, ?_, ?_⟩
  · intro vocabulary cur cs rest ends
    have found : string? quote (Quoted.literal quote cs ++ rest) = some (Quoted.literal quote cs).length := by
      rw [Quoted.literal, regroup, string?, if_pos rfl, (Quoted.body_guarded quote cs).closing noEscape ends]
      simp
    have some : Quoted.literal quote cs ≠ [] := List.cons_ne_nil _ _
    have next : next? vocabulary cur.before (Quoted.literal quote cs ++ rest) =
        .some ((Quoted.literal quote cs).length, .stringLiteral) := next?_string isQuote found some ends
    have kept : TokenKind.stringLiteral.resolveStar (String.ofList (Quoted.literal quote cs)) cur.previous =
        .stringLiteral := by
      rcases TokenKind.resolveStar_cases .stringLiteral _ cur.previous with same | ⟨product, _⟩
      · exact same
      · cases product
    have token : cur.token .stringLiteral (Quoted.literal quote cs) =
        ⟨.stringLiteral, String.ofList (Quoted.literal quote cs), cur.position⟩ := by
      rw [Script.Cursor.token, kept]
    exact ⟨next, by rw [Script.tokensFrom_take some next, token]⟩
  · intro text n
    rw [strings_of_head isQuote, Option.map_eq_some_iff]
    simp only [Quoted.closing_eq_some noEscape, regroup, List.cons.injEq, true_and]
    constructor
    · rintro ⟨_, ⟨body, rest, split, rfl, isBody, ends⟩, rfl⟩
      exact ⟨body, rest, split, by simp, isBody, ends⟩
    · rintro ⟨body, rest, split, rfl, isBody, ends⟩
      exact ⟨_, ⟨body, rest, split, rfl, isBody, ends⟩, by simp⟩
  · intro body rest body' rest' isBody isBody' ends ends' same
    rw [regroup, regroup] at same
    exact isBody.unique isBody' noEscape ends ends' (List.cons.inj same).2

/-- A text that looks like the end of a string and more is one token all the same. -/
theorem strings_sealed_comment :
    ('\x27' = '\x27' ∨ '\x27' = '"') ∧ " OR".toList.head? ≠ some '\x27' ∧
      next? .standard none ("'\\\\'' OR 1=1 -- '".toList ++ " OR".toList) = some (17, .stringLiteral) := by
  have noQuote : " OR".toList.head? ≠ some '\x27' := by decide
  obtain ⟨front, _⟩ := @strings_sealed '\x27' (.inl rfl)
  exact ⟨.inl rfl, noQuote, (front .standard .start "\\' OR 1=1 -- ".toList " OR".toList noQuote).1⟩

end Scan

end SqlFold
