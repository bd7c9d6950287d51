import SqlFold.Proofs.Identifiers
import SqlFold.Proofs.Quotations

/-!
# Names between quotes

A name of any characters can be written between name quotes, with its own quotes doubled (`Token.quoted`). The scanner
stops at a quote that is not doubled and takes a doubled name and nothing else before it
(`Scan.quotedName?_eq_some`), and reading back what it takes gives the name (`Token.unquoted_quoted`). So writing and
reading names are inverse to each other in every vocabulary that leaves the name quote alone (`Scan.names_sealed`).
-/

namespace SqlFold

open Text

/-! ## Doubling -/

namespace Text.Quoted

variable {quote : Char} {rest text : List Char} {n : Nat}

theorem double_quote (quote : Char) (cs : List Char) : double quote (quote :: cs) = quote :: quote :: double quote cs :=
  if_pos rfl

theorem double_plain {c : Char} (other : c ≠ quote) (cs : List Char) : double quote (c :: cs) = c :: double quote cs :=
  if_neg other

theorem undouble_plain {c : Char} (other : c ≠ quote) (cs : List Char) :
    undouble quote (c :: cs) = c :: undouble quote cs := by
  cases cs with
  | nil => rfl
  | cons d cs => rw [undouble, if_neg fun pair => other pair.1]

/-- What was doubled is read back, whatever runs of quotes are in it. -/
theorem undouble_double (quote : Char) (cs : List Char) : undouble quote (double quote cs) = cs := by
  induction cs with
  | nil => rfl
  | cons c cs ih =>
    by_cases same : c = quote
    · rw [same, double_quote, undouble, if_pos ⟨rfl, rfl⟩, ih]
    · rw [double_plain same, undouble_plain same, ih]

/-- What was put between quotes is read back. -/
theorem inner_enclose (quote : Char) (cs : List Char) : inner quote (enclose quote cs) = cs := by
  rw [inner, enclose, List.cons_append, List.drop_succ_cons, List.drop_zero, List.dropLast_concat, undouble_double]

theorem enclose_append (quote : Char) (cs rest : List Char) :
    enclose quote cs ++ rest = quote :: (double quote cs ++ quote :: rest) := by
  rw [enclose, List.append_assoc, List.singleton_append, List.cons_append]

theorem length_enclose (quote : Char) (cs : List Char) : (enclose quote cs).length = (double quote cs).length + 1 + 1 := by
  rw [enclose, List.length_append, List.length_cons, List.length_singleton]

/-- Without escapes the scan goes over a doubled text, up to the quote behind it. -/
theorem closing_double (cs : List Char) (ends : rest.head? ≠ some quote) :
    closing quote false (double quote cs ++ quote :: rest) = some ((double quote cs).length + 1) := by
  have noEscape (c : Char) : ¬(false && c == '\\') = true := Bool.false_ne_true
  induction cs with
  | nil => exact closing_quote (noEscape quote) ends
  | cons c cs ih =>
    by_cases same : c = quote
    · rw [same, double_quote, List.cons_append, List.cons_append, closing_pair (noEscape quote), ih]
      rfl
    · rw [double_plain same, List.cons_append, closing_plain (noEscape c) same, ih]
      rfl

/-- Where the scan stops without escapes, it has gone over a doubled text. -/
theorem exists_double_of_closing (found : closing quote false text = some n) :
    ∃ cs rest, text = double quote cs ++ quote :: rest ∧ (double quote cs).length + 1 = n ∧ rest.head? ≠ some quote := by
  generalize escapes : false = e at found
  -- A pair of quotes is one quote of the name (case 6), and the scan stops in cases 3 and 7 only.
  fun_induction closing quote e text generalizing n with
  | case1 => cases found
  | case2 => cases found
  | case3 =>
    cases found
    exact ⟨[], [], rfl, rfl, (Option.some_ne_none quote).symm⟩
  | case4 => cases found
  | case5 c d rest escape ih =>
    subst escapes
    cases escape
  | case6 rest _ ih =>
    obtain ⟨m, inner, rfl⟩ := Option.map_eq_some_iff.mp found
    obtain ⟨cs, rest, rfl, rfl, ends⟩ := ih inner
    refine ⟨quote :: cs, rest, ?_, ?_, ends⟩
    · rw [double_quote, List.cons_append, List.cons_append]
    · rw [double_quote, List.length_cons, List.length_cons]
  | case7 d rest single =>
    cases found
    exact ⟨[], d :: rest, rfl, rfl, fun same => single (Option.some.inj same)⟩
  | case8 c d rest _ other ih =>
    obtain ⟨m, inner, rfl⟩ := Option.map_eq_some_iff.mp found
    obtain ⟨cs, rest, split, rfl, ends⟩ := ih inner
    refine ⟨c :: cs, rest, ?_, ?_, ends⟩
    · rw [double_plain other, split, List.cons_append]
    · rw [double_plain other, List.length_cons]

end Text.Quoted

/-! ## Names -/

namespace Token

/-- The name between quotes. -/
def quoted (name : String) : String := String.ofList (Quoted.enclose nameQuote name.toList)

theorem toList_quoted (name : String) : (quoted name).toList = Quoted.enclose nameQuote name.toList :=
  String.toList_ofList

/-- A quoted name is read back. -/
theorem unquoted_quoted (name : String) (position : Position) :
    (Token.mk .symbol (quoted name) position).unquoted = name := by
  have long : 2 ≤ (quoted name).toList.length := by
    rw [toList_quoted, Quoted.length_enclose]
    omega
  have first : (quoted name).toList.head? = some nameQuote := by
    rw [toList_quoted]
    rfl
  rw [unquoted, if_pos ⟨rfl, long, first⟩, toList_quoted, Quoted.inner_enclose, String.ofList_toList]

end Token

namespace Scan

variable {vocabulary : Vocabulary} {before : Option Char} {text cs rest : List Char} {n : Nat} {kind : TokenKind}

/-- The rule for quoted names takes what a name is written as, where no further quote follows. -/
theorem quotedName?_eq_some : quotedName? text = some n ↔
    ∃ cs rest, text = Quoted.enclose Token.nameQuote cs ++ rest ∧ (Quoted.enclose Token.nameQuote cs).length = n ∧
      rest.head? ≠ some Token.nameQuote := by
  constructor
  · intro found
    cases text with
    | nil => cases found
    | cons c text =>
      rw [quotedName?] at found
      split at found
      · next isQuote =>
        obtain ⟨m, closes, rfl⟩ := Option.map_eq_some_iff.mp found
        obtain ⟨cs, rest, rfl, rfl, ends⟩ := Quoted.exists_double_of_closing closes
        exact ⟨cs, rest, by rw [isQuote, Quoted.enclose_append]; rfl, Quoted.length_enclose _ _, ends⟩
      · cases found
  · rintro ⟨cs, rest, rfl, rfl, ends⟩
    rw [Quoted.enclose_append, Quoted.length_enclose, quotedName?, if_pos (show Token.nameQuote = '\x60' from rfl)]
    exact congrArg (Option.map (· + 1)) (Quoted.closing_double cs ends)

/-- At a name quote the other rules before the one for quoted names do not match, if no entry begins with it. -/
theorem next?_nameQuote (heads : ∀ e ∈ vocabulary.entries, e.1 ≠ "" ∧ e.1.toList.head? ≠ some Token.nameQuote) :
    next? vocabulary before (Token.nameQuote :: text) =
      (quotedName? (Token.nameQuote :: text)).map (·, TokenKind.symbol) := by
  have noEntry : vocabulary.longest? before (Token.nameQuote :: text) = none := Vocabulary.longest?_of_head heads
  have noIdentifier : identifier? (Token.nameQuote :: text) = none := identifier?_of_head (by decide)
  have noArgument : preparedArgument? (Token.nameQuote :: text) = none := rfl
  rw [next?_of_head (by decide) (comment?_of_head (by decide)) (by decide), noEntry, number?_of_head (by decide),
    noIdentifier, noArgument]
  simp

/-- Names of any characters can be written and read back, where no entry of the vocabulary is empty or begins with the
name quote.

* A quoted name that no further quote follows is the next token, wherever the scanner stands; it spells the name, and
  the scanner goes on right behind it.
* Every token that begins with the name quote is a quoted name, and its text is the one that its name is written as. -/
theorem names_sealed (heads : ∀ e ∈ vocabulary.entries, e.1 ≠ "" ∧ e.1.toList.head? ≠ some Token.nameQuote) :
    (∀ (cur : Script.Cursor) (name : String) (rest : List Char), rest.head? ≠ some Token.nameQuote →
      let t : Token := ⟨.symbol, Token.quoted name, cur.position⟩
      next? vocabulary cur.before (t.lexeme.toList ++ rest) = some (t.lexeme.toList.length, .symbol) ∧
        Script.tokensFrom vocabulary cur (t.lexeme.toList ++ rest) =
          (Script.tokensFrom vocabulary (cur.past .symbol t.lexeme.toList) rest).map (t :: ·) ∧
        t.unquoted = name) ∧
    ∀ {cur cur' : Script.Cursor} {text rest : List Char} {tokens : List Token},
      Script.Scanned vocabulary cur text tokens cur' rest → ∀ t ∈ tokens, t.lexeme.toList.head? = some Token.nameQuote →
        t.kind = .symbol ∧ t.lexeme = Token.quoted t.unquoted := by
  -- A quoted name is no `*`, so its kind stays the one that the rule gives.
  have kept (cur : Script.Cursor) (cs : List Char) : cur.token .symbol cs = ⟨.symbol, String.ofList cs, cur.position⟩ := by
    rw [Script.Cursor.token, TokenKind.resolveStar, if_neg fun star => TokenKind.noConfusion star.1]
  constructor
  · intro cur name rest ends
    have next : next? vocabulary cur.before ((Token.quoted name).toList ++ rest) =
        some ((Token.quoted name).toList.length, .symbol) := by
      have found := quotedName?_eq_some.mpr ⟨name.toList, rest, rfl, rfl, ends⟩
      rw [Quoted.enclose_append] at found
      rw [Token.toList_quoted, Quoted.enclose_append, next?_nameQuote heads, found]
      rfl
    have nonempty : (Token.quoted name).toList ≠ [] := by
      rw [Token.toList_quoted]
      exact List.cons_ne_nil _ _
    refine ⟨next, ?_, Token.unquoted_quoted name cur.position⟩
    rw [Script.tokensFrom_take nonempty next, kept, String.ofList_toList]
  · intro cur cur' text rest tokens scanned t mem first
    obtain ⟨front, back, rfl⟩ := List.append_of_mem mem
    obtain ⟨here, cs, more, kind, nonempty, next, rfl, -⟩ := scanned.split
    rw [Script.Cursor.token, String.toList_ofList] at first
    obtain ⟨c, body, rfl⟩ := List.exists_cons_of_ne_nil nonempty
    obtain rfl : c = Token.nameQuote := Option.some.inj first
    rw [List.cons_append, next?_nameQuote heads] at next
    obtain ⟨n, found, same⟩ := Option.map_eq_some_iff.mp next
    obtain ⟨rfl, rfl⟩ := Prod.mk.inj same
    obtain ⟨name, behind, split, size, -⟩ := quotedName?_eq_some.mp found
    -- The token and the quoted name begin one text and have one length.
    obtain ⟨lexeme, -⟩ := List.append_inj split size.symm
    have written : String.ofList (Token.nameQuote :: body) = Token.quoted (String.ofList name) := by
      rw [Token.quoted, String.toList_ofList, lexeme]
    rw [kept, written, Token.unquoted_quoted]
    exact ⟨rfl, rfl⟩

/-- A name that begins and ends with quotes is written and read back, and so is the one token of a text that begins with
a quote. -/
theorem names_sealed_quotes :
    (∀ e ∈ Vocabulary.standard.entries, e.1 ≠ "" ∧ e.1.toList.head? ≠ some Token.nameQuote) ∧
    ".b".toList.head? ≠ some Token.nameQuote ∧ Token.quoted "\x60a\x60" = "\x60\x60\x60a\x60\x60\x60" ∧
    next? .standard none ((Token.quoted "\x60a\x60").toList ++ ".b".toList) = some (7, .symbol) ∧
    (Token.mk .symbol (Token.quoted "\x60a\x60") .start).unquoted = "\x60a\x60" ∧
    ∃ t : Token, Script.ofText? .standard "\x60a\x60\x60\x60" = .ok ⟨"\x60a\x60\x60\x60", [t]⟩ ∧
      t.kind = .symbol ∧ t.lexeme = Token.quoted t.unquoted ∧ t.unquoted = "a\x60" := by
  have heads : ∀ e ∈ Vocabulary.standard.entries, e.1 ≠ "" ∧ e.1.toList.head? ≠ some Token.nameQuote := by
    rw [Vocabulary.standard_entries]
    decide
  have noQuote : ".b".toList.head? ≠ some Token.nameQuote := by decide
  obtain ⟨writing, reading⟩ := names_sealed heads
  obtain ⟨next, -, read⟩ := writing .start "\x60a\x60" ".b".toList noQuote
  have scanned : Script.ofText? .standard "\x60a\x60\x60\x60" =
      .ok ⟨"\x60a\x60\x60\x60", [⟨.symbol, "\x60a\x60\x60\x60", ⟨0, 0⟩⟩]⟩ :=
    Script.ofText?_standard (by decide +kernel)
  obtain ⟨-, _, taken⟩ := Script.scanned_of_ok scanned
  obtain ⟨kind, lexeme⟩ := reading taken _ List.mem_cons_self (by decide)
  exact ⟨heads, noQuote, by decide, next, read, _, scanned, kind, lexeme, by decide⟩

end Scan

end SqlFold
