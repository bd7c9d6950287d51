import SqlFold.Proofs.Regeneration.Seams
import SqlFold.Proofs.Regeneration.Spacing

/-!
# Tokens with single spaces between them

A text may be written anew with its lexemes, one space between any two, and without its comments. It is cut into the
same tokens (`Script.ofText?_respaced`), unless a name stands right behind a number in it: a word that goes on behind
a digit is a name, even where it spells a keyword. All other tokens are found again wherever they stand apart
(`Script.Scanned.standard`), and behind a space they do (`Script.respells_spaced`). A `*` has the same token before
it as in the first text, as comments do not count.
-/

namespace SqlFold.Script

open Text

/-! ## Tokens of a text -/

/-- Where the scanner stands right behind a word character, the last token is a number, or no word goes on. -/
def Cursor.Behind (cur : Cursor) (last : Option TokenKind) (text : List Char) : Prop :=
  cur.before.any isWordChar = true → last = some .numericLiteral ∨ text.head?.any isWordChar = false

/-- The significant tokens that the scanner takes are found again elsewhere, if no name stands right behind a
number. Behind a number and a separator a name may stand. -/
theorem Scanned.standard {cur cur' : Cursor} {text rest : List Char} {tokens : List Token} {last : Option TokenKind}
    (scanned : Scanned .standard cur text tokens cur' rest) (behind : cur.Behind last text)
    (seams : tokens.IsChain Token.Seam) (first : ∀ t ∈ tokens.head?, last = some .numericLiteral → t.kind ≠ .symbol) :
    ∀ t ∈ tokens, t.kind.isTrivia = false → t.Standard := by
  induction scanned generalizing last with
  | stop => nofun
  | @take cur cur' text rest length kind tokens more positive next _ ih =>
    obtain ⟨cs, rest', rfl, rfl⟩ := Scan.next?_cut next
    rw [List.take_left, List.drop_left] at *
    have some : cs ≠ [] := List.length_pos_iff.mp positive
    obtain ⟨following, seams⟩ := List.isChain_cons.mp seams
    have resolved : (cur.token kind cs).kind = kind ∨ kind = .operator ∧ _ :=
      TokenKind.resolveStar_cases kind (String.ofList cs) cur.previous
    have kept {sort : TokenKind} (other : sort ≠ .operator) (same : kind = sort) : (cur.token kind cs).kind = sort := by
      rcases resolved with eq | ⟨isOperator, _⟩
      · exact eq.trans same
      · exact absurd (same.symm.trans isOperator) other
    have onward : (cur.past (cur.token kind cs).kind cs).Behind (.some (cur.token kind cs).kind) rest' := by
      intro word
      have ends : cs.getLast?.any isWordChar = true := by
        rw [Cursor.past, List.getLast?_eq_some_getLast some, Option.some_or] at word
        rwa [List.getLast?_eq_some_getLast some]
      rcases Scan.standard_next?_ends next some ends with number | stops
      · exact .inl (congrArg Option.some (kept (by decide) number))
      · exact .inr stops
    have later := ih onward seams fun t isNext number => following t isNext (Option.some.inj number)
    refine List.forall_mem_cons.mpr ⟨fun significant => ?_, later⟩
    have plain : kind.isTrivia = false := by
      rcases resolved with eq | ⟨rfl, _⟩
      · rwa [eq] at significant
      · rfl
    refine Token.standard_of_next? next some plain (fun symbol starts => Bool.eq_false_iff.mpr fun word => ?_)
      cur.previous cur.position
    -- A name goes on behind a word character only where that one ends a number.
    rcases behind word with number | stops
    · exact first _ rfl number (kept (by decide) symbol)
    · obtain ⟨c, ds, rfl⟩ := List.exists_cons_of_ne_nil some
      exact Bool.noConfusion (starts.symm.trans stops)

/-! ## Tokens behind spaces -/

/-- The characters of tokens with a space before each. -/
def spaced (ts : List Token) : List Char := ts.flatMap fun t => ' ' :: t.lexeme.toList

/-- With single spaces between them, all tokens but the first have a space before them. -/
theorem toList_intercalate_cons (t : Token) (ts : List Token) :
    (" ".intercalate ((t :: ts).map (·.lexeme))).toList = t.lexeme.toList ++ spaced ts := by
  have space : " ".toList = [' '] := rfl
  rw [String.toList_intercalate, space, List.map_map]
  induction ts generalizing t with
  | nil => simp [spaced]
  | cons u ts ih =>
    rw [List.map_cons, List.map_cons, List.intercalate_cons_cons, ← List.map_cons, ih u, spaced, spaced,
      List.flatMap_cons]
    simp

/-- Behind a token stands a space or nothing. -/
theorem clear_spaced (kind : TokenKind) (ts : List Token) : kind.Clear (spaced ts).head? := by
  refine .inr (.inr fun c first => .inl ?_)
  cases ts with
  | nil => cases first
  | cons =>
    cases first
    decide

/-- The text at a cursor is cut into tokens of the given kinds and lexemes, with whitespace between them. -/
def Respells (cur : Cursor) (cs : List Char) (ts : List Token) : Prop :=
  ∃ tokens, tokensFrom .standard cur cs = .ok tokens ∧
    (tokens.filter (·.kind != .whitespace)).map (fun t => (t.kind, t.lexeme)) = ts.map fun t => (t.kind, t.lexeme)

variable {cur : Cursor} {t : Token} {ts : List Token} {cs : List Char}

theorem respells_nil (cur : Cursor) : Respells cur [] [] := ⟨[], by rw [tokensFrom, if_pos rfl], rfl⟩

theorem Respells.space (respells : Respells (cur.past .whitespace [' ']) cs ts)
    (noBlank : cs.head?.any isBlank = false) : Respells cur (' ' :: cs) ts := by
  obtain ⟨tokens, run, same⟩ := respells
  exact ⟨cur.token .whitespace [' '] :: tokens, by rw [tokensFrom_blank (by decide) noBlank, run]; rfl, same⟩

theorem Respells.token (respells : Respells (cur.past t.kind t.lexeme.toList) cs ts) (standard : t.Standard)
    (star : t.kind = .star → cur.previous.any TokenKind.beforeProduct = false)
    (product : t.kind = .operator → t.lexeme = "*" → cur.previous.any TokenKind.beforeProduct = true)
    (apart : t.kind.isVerbal = true → cur.before.any isWordChar = false) (clear : t.kind.Clear cs.head?) :
    Respells cur (t.lexeme.toList ++ cs) (t :: ts) := by
  obtain ⟨tokens, run, same⟩ := respells
  refine ⟨⟨t.kind, t.lexeme, cur.position⟩ :: tokens, ?_, ?_⟩
  · rw [tokensFrom_standard standard star product apart clear, run]
    rfl
  · have visible : t.kind ≠ .whitespace := by
      intro blank
      have significant := standard.significant
      rw [blank] at significant
      cases significant
    rw [List.filter_cons_of_pos (by simpa using visible)]
    exact congrArg₂ List.cons rfl same

theorem Cursor.previous_past (standard : t.Standard) : (cur.past t.kind t.lexeme.toList).previous = some t.kind := by
  rw [Cursor.past, standard.significant]
  rfl

/-- Tokens with a space before each are taken one after the other. -/
theorem respells_spaced (lexed : Lexed cur.previous ts) (standard : ∀ t ∈ ts, t.Standard) :
    Respells cur (spaced ts) ts := by
  induction ts generalizing cur with
  | nil => exact respells_nil cur
  | cons t ts ih =>
    obtain ⟨_, star, product, later⟩ := lexed
    obtain ⟨here, others⟩ := List.forall_mem_cons.mp standard
    obtain ⟨c, cs, split, noBlank⟩ := here.starts
    have front : (t.lexeme.toList ++ spaced ts).head?.any isBlank = false := by
      rw [split]
      exact noBlank
    have behind : Respells ((cur.past .whitespace [' ']).past t.kind t.lexeme.toList) (spaced ts) ts :=
      ih (by rwa [Cursor.previous_past here]) others
    exact (behind.token here star product (fun _ => rfl) (clear_spaced t.kind ts)).space front

/-- The significant lexemes of a text, with single spaces between them, are cut into tokens of the same kinds with
the same lexemes, if no name stands right behind a number in the text. -/
theorem ofText?_respaced {source : String} {script : Script} (scanned : ofText? .standard source = .ok script)
    (seams : script.tokens.IsChain Token.Seam) :
    ∃ again, ofText? .standard (" ".intercalate (script.significant.map (·.lexeme))) = .ok again ∧
      again.dropWhitespace.tokens.map (fun t => (t.kind, t.lexeme)) =
        script.significant.map fun t => (t.kind, t.lexeme) := by
  obtain ⟨_, _, taken⟩ := scanned_of_ok scanned
  have standards : ∀ t ∈ script.significant, t.Standard := by
    intro t mem
    obtain ⟨listed, significant⟩ := List.mem_filter.mp mem
    have start : Cursor.start.Behind none source.toList := nofun
    exact taken.standard start seams nofun t listed (by simpa using significant)
  have lexed := lexed_significant scanned
  generalize script.significant = ts at standards lexed
  have respells : Respells .start (" ".intercalate (ts.map (·.lexeme))).toList ts := by
    cases ts with
    | nil => exact respells_nil .start
    | cons t ts =>
      obtain ⟨_, star, product, later⟩ := lexed
      obtain ⟨here, others⟩ := List.forall_mem_cons.mp standards
      have behind : Respells (Cursor.start.past t.kind t.lexeme.toList) (spaced ts) ts :=
        respells_spaced (by rwa [Cursor.previous_past here]) others
      rw [toList_intercalate_cons]
      exact behind.token here star product (fun _ => rfl) (clear_spaced t.kind ts)
  obtain ⟨tokens, run, same⟩ := respells
  exact ⟨⟨_, tokens⟩, by rw [ofText?, run]; rfl, same⟩

/-- Comments stand between a name and the `*` that multiplies it, between two signs, and between a number and a name;
two strings touch. With spaces instead the tokens are the same. -/
theorem ofText?_respaced_comments :
    let script : Script := ⟨"a/**/*2-#\n-'b'\"c\"1/* */x",
      [⟨.symbol, "a", ⟨0, 0⟩⟩, ⟨.comment, "/**/", ⟨0, 1⟩⟩, ⟨.operator, "*", ⟨0, 5⟩⟩, ⟨.numericLiteral, "2", ⟨0, 6⟩⟩,
        ⟨.operator, "-", ⟨0, 7⟩⟩, ⟨.comment, "#", ⟨0, 8⟩⟩, ⟨.whitespace, "\n", ⟨0, 9⟩⟩, ⟨.operator, "-", ⟨1, 0⟩⟩,
        ⟨.stringLiteral, "'b'", ⟨1, 1⟩⟩, ⟨.stringLiteral, "\"c\"", ⟨1, 4⟩⟩, ⟨.numericLiteral, "1", ⟨1, 7⟩⟩,
        ⟨.comment, "/* */", ⟨1, 8⟩⟩, ⟨.symbol, "x", ⟨1, 13⟩⟩]⟩
    ofText? .standard "a/**/*2-#\n-'b'\"c\"1/* */x" = .ok script ∧ script.tokens.IsChain Token.Seam ∧
      " ".intercalate (script.significant.map (·.lexeme)) = "a * 2 - - 'b' \"c\" 1 x" ∧
      ∃ again, ofText? .standard "a * 2 - - 'b' \"c\" 1 x" = .ok again ∧
        again.dropWhitespace.tokens.map (fun t => (t.kind, t.lexeme)) =
          script.significant.map fun t => (t.kind, t.lexeme) := by
  intro script
  have scanned : ofText? .standard "a/**/*2-#\n-'b'\"c\"1/* */x" = .ok script :=
    ofText?_standard (by decide +kernel)
  have seams : script.tokens.IsChain Token.Seam := by simp [script, Token.Seam]
  have joined : " ".intercalate (script.significant.map (·.lexeme)) = "a * 2 - - 'b' \"c\" 1 x" := by decide
  exact ⟨scanned, seams, joined, joined ▸ ofText?_respaced scanned seams⟩

end SqlFold.Script
