import Mathlib.Data.List.Chain
import SqlFold.Proofs.Lexing.Cursors
import SqlFold.Proofs.Rows.Wording
import SqlFold.Proofs.Rows.Yields

/-!
# Lines that are scanned again

In the line of a tree tokens stand without a space between them only where one of them is a mark, or where a number
follows its sign (`Tree.tidy_line`). There both are found again, so a line is cut into the tokens that it is made of
(`Line.tokensFrom_chars`).
-/

namespace SqlFold

open Text

/-! ## Tokens without a space between them -/

/-- Whether a token of the second kind may stand right behind one of the first. -/
def TokenKind.touches (k l : TokenKind) : Bool :=
  k ∈ [dot, bracketOpen] || l ∈ [comma, semicolon, bracketClose] || k == symbol && l ∈ [dot, bracketOpen] ||
    k == operator && l == numericLiteral

namespace Token

variable {t u : Token}

theorem Standard.toList_ne_nil (standard : t.Standard) : t.lexeme.toList ≠ [] := by
  obtain ⟨c, cs, split, _⟩ := standard.starts
  rw [split]
  exact List.cons_ne_nil c cs

theorem Standard.head_of_mark (standard : t.Standard) {c : Char} (isMark : t.kind.mark? = some (String.singleton c)) :
    t.lexeme.toList = [c] := by
  rw [standard.mark _ isMark]
  simp

/-- Tokens that may touch are told apart. -/
theorem Standard.apart (standard : t.Standard) (standard' : u.Standard) (touches : t.kind.touches u.kind = true)
    (rest : List Char) :
    t.kind.Clear (u.lexeme.toList ++ rest).head? ∧ (u.kind.isVerbal = true → t.lexeme.toList.getLast?.any isWordChar = false) := by
  have silent {kind : TokenKind} (same : u.kind = kind) (noWord : kind.isVerbal = false) (verbal : u.kind.isVerbal = true) :
      t.lexeme.toList.getLast?.any isWordChar = false := by
    rw [same, noWord] at verbal
    cases verbal
  simp only [TokenKind.touches, Bool.or_eq_true, Bool.and_eq_true, decide_eq_true_eq, beq_iff_eq, List.mem_cons,
    List.not_mem_nil, or_false] at touches
  rcases touches with (((isDot | isOpening) | (isComma | isSemicolon | isClosing)) | ⟨isSymbol, isDot | isOpening⟩) |
    ⟨isOperator, isNumber⟩
  · refine ⟨.inl isDot, fun _ => ?_⟩
    rw [standard.head_of_mark (c := '.') (by rw [isDot]; rfl)]
    rfl
  · refine ⟨.inr (.inl isOpening), fun _ => ?_⟩
    rw [standard.head_of_mark (c := '(') (by rw [isOpening]; rfl)]
    rfl
  · rw [standard'.head_of_mark (c := ',') (by rw [isComma]; rfl)]
    exact ⟨.inr (.inr (by rintro _ ⟨⟩; exact .inl (by decide))), silent isComma rfl⟩
  · rw [standard'.head_of_mark (c := ';') (by rw [isSemicolon]; rfl)]
    exact ⟨.inr (.inr (by rintro _ ⟨⟩; exact .inl (by decide))), silent isSemicolon rfl⟩
  · rw [standard'.head_of_mark (c := ')') (by rw [isClosing]; rfl)]
    exact ⟨.inr (.inr (by rintro _ ⟨⟩; exact .inl (by decide))), silent isClosing rfl⟩
  · rw [standard'.head_of_mark (c := '.') (by rw [isDot]; rfl)]
    exact ⟨.inr (.inr (by rintro _ ⟨⟩; exact .inr (.inl ⟨isSymbol, by decide⟩))), silent isDot rfl⟩
  · rw [standard'.head_of_mark (c := '(') (by rw [isOpening]; rfl)]
    exact ⟨.inr (.inr (by rintro _ ⟨⟩; exact .inr (.inl ⟨isSymbol, by decide⟩))), silent isOpening rfl⟩
  · refine ⟨.inr (.inr fun c first => .inr (.inr ⟨isOperator, ?_⟩)), silent isNumber rfl⟩
    obtain ⟨d, cs, split, _⟩ := standard'.starts
    have digit := standard'.number isNumber
    rw [split] at digit first
    obtain rfl : d = c := Option.some.inj first
    exact digit

end Token

namespace Script

variable {cur : Cursor}

/-- A blank is taken as a whole where no further one follows. -/
theorem tokensFrom_blank {vocabulary : Vocabulary} {c : Char} {rest : List Char} (blank : isBlank c = true)
    (noBlank : rest.head?.any isBlank = false) :
    tokensFrom vocabulary cur (c :: rest) =
      (tokensFrom vocabulary (cur.past .whitespace [c]) rest).map (cur.token .whitespace [c] :: ·) := by
  refine @tokensFrom_take _ _ [c] rest .whitespace (List.cons_ne_nil _ _) ?_
  rw [Scan.next?, Scan.run?_append (List.cons_ne_nil _ _) (by simpa using blank) noBlank]
  rfl

/-- A token gets its own kind, where what stands before it says whether a `*` multiplies. -/
theorem resolveStar_scanned {t : Token} {previous : Option TokenKind} (standard : t.Standard)
    (star : t.kind = .star → previous.any TokenKind.beforeProduct = false)
    (product : t.kind = .operator → t.lexeme = "*" → previous.any TokenKind.beforeProduct = true) :
    t.kind.scanned.resolveStar t.lexeme previous = t.kind := by
  by_cases isStar : t.kind = .star
  · have lexeme := standard.mark "*" (by rw [isStar]; rfl)
    rw [isStar, lexeme, TokenKind.resolveStar, if_pos]
    exact ⟨rfl, rfl, by rw [star isStar]; rfl⟩
  · have plain : t.kind.scanned = t.kind := by
      generalize t.kind = kind at isStar
      cases kind <;> first | rfl | exact absurd rfl isStar
    rw [plain, TokenKind.resolveStar, if_neg]
    rintro ⟨isOperator, lexeme, noProduct⟩
    rw [product isOperator lexeme] at noProduct
    cases noProduct

/-- A token that stands apart is taken as it is. -/
theorem tokensFrom_standard {t : Token} {rest : List Char} (standard : t.Standard)
    (star : t.kind = .star → cur.previous.any TokenKind.beforeProduct = false)
    (product : t.kind = .operator → t.lexeme = "*" → cur.previous.any TokenKind.beforeProduct = true)
    (apart : t.kind.isVerbal = true → cur.before.any isWordChar = false) (clear : t.kind.Clear rest.head?) :
    tokensFrom .standard cur (t.lexeme.toList ++ rest) =
      (tokensFrom .standard (cur.past t.kind t.lexeme.toList) rest).map (⟨t.kind, t.lexeme, cur.position⟩ :: ·) := by
  have token : cur.token t.kind.scanned t.lexeme.toList = ⟨t.kind, t.lexeme, cur.position⟩ := by
    rw [Cursor.token, String.ofList_toList, resolveStar_scanned standard star product]
  rw [tokensFrom_take standard.toList_ne_nil (standard.again cur.before rest apart clear), token]

end Script

namespace Line

open Script

/-- Only tokens that may touch stand without a space between them. -/
def Tidy (line : Line) : Prop := line.IsChain fun a b => b.1 = true ∨ a.2.kind.touches b.2.kind = true

/-- What stands behind a token in a tidy line does not go on with it. Nor does a new line behind the last one. -/
theorem Tidy.clear {a : Bool × Token} {line : Line} {tail : List Char} (tidy : Tidy (a :: line))
    (standard : ∀ t ∈ (a :: line).map Prod.snd, t.Standard) (ends : ∀ c ∈ tail.head?, c = '\n') :
    a.2.kind.Clear (chars line ++ tail).head? ∧
      ∀ b ∈ line.head?, b.1 = true ∨ (b.2.kind.isVerbal = true → a.2.lexeme.toList.getLast?.any isWordChar = false) := by
  rcases line with _ | ⟨⟨space, u⟩, line⟩
  · refine ⟨.inr (.inr fun c first => .inl ?_), nofun⟩
    rw [ends c first]
    decide
  · cases space with
    | true => exact ⟨.inr (.inr (by rintro _ ⟨⟩; exact .inl (by decide))), by rintro _ ⟨⟩; exact .inl rfl⟩
    | false =>
      have touches := (List.isChain_cons_cons.mp tidy).1.resolve_left nofun
      obtain ⟨clear, apart⟩ := (standard a.2 (by simp)).apart (standard u (by simp)) touches (chars line ++ tail)
      rw [← List.append_assoc] at clear
      exact ⟨clear, by rintro _ ⟨⟩; exact .inr apart⟩

theorem holds_of_fits {P : Token → Prop} {ts : List Token} {before : Option Bare}
    (fits : Row.Chained (Row.Fits P) before (Row.leaves ts)) : ∀ t ∈ ts, P t := by
  induction ts generalizing before with
  | nil => nofun
  | cons t ts ih =>
    obtain ⟨here, later⟩ := fits
    cases here with
    | leaf holds => exact List.forall_mem_cons.mpr ⟨holds, ih later⟩

/-- The text is cut into tokens, with blanks between them. -/
def Yields (cur : Cursor) (cs : List Char) (ts : List Token) : Prop :=
  ∃ tokens, tokensFrom .standard cur cs = .ok tokens ∧ Alike (tokens.filter (!·.kind.isTrivia)) ts

theorem yields_nil (cur : Cursor) : Yields cur [] [] := ⟨[], by rw [tokensFrom, if_pos rfl], rfl⟩

theorem yields_blank {cur : Cursor} {c : Char} {cs : List Char} {ts : List Token} (blank : isBlank c = true)
    (noBlank : cs.head?.any isBlank = false) (yields : Yields (cur.past .whitespace [c]) cs ts) :
    Yields cur (c :: cs) ts := by
  obtain ⟨tokens, rest, alike⟩ := yields
  exact ⟨cur.token .whitespace [c] :: tokens, by rw [tokensFrom_blank blank noBlank, rest]; rfl, alike⟩

/-- A tidy line is cut into the tokens that it is made of, also in front of more lines. -/
theorem yields_chars {line : Line} {cur : Cursor} {before : Option Bare} {tail : List Char} {us : List Token}
    (tidy : line.Tidy) (fits : Row.Chained (Row.Fits Token.Standard) before (Row.leaves (line.map Prod.snd)))
    (same : before.any Row.multiplies = cur.previous.any TokenKind.beforeProduct)
    (apart : ∀ a ∈ line.head?, a.1 = true ∨ (a.2.kind.isVerbal = true → cur.before.any isWordChar = false))
    (ends : ∀ c ∈ tail.head?, c = '\n')
    (behind : ∀ cur' : Cursor, ((Row.leaves (line.map Prod.snd)).getLast?.or before).any Row.multiplies =
      cur'.previous.any TokenKind.beforeProduct → Yields cur' tail us) :
    Yields cur (line.chars ++ tail) (line.map Prod.snd ++ us) := by
  induction line generalizing cur before with
  | nil => exact behind cur same
  | cons a line ih =>
    obtain ⟨space, t⟩ := a
    have standards := holds_of_fits fits
    obtain ⟨clear, nextApart⟩ := tidy.clear standards ends
    have last : (Row.leaves (((space, t) :: line).map Prod.snd)).getLast?.or before =
        (Row.leaves (line.map Prod.snd)).getLast?.or (some (.mk () (.leaf t))) := by
      cases line <;> rfl
    rw [last] at behind
    obtain ⟨here, fits⟩ := fits
    obtain ⟨standard, star, product⟩ : t.Standard ∧ (t.kind = .star → before.any Row.multiplies = false) ∧
        (t.kind = .operator → t.lexeme = "*" → before.any Row.multiplies = true) := by
      cases here with
      | leaf holds star product => exact ⟨holds, star, product⟩
    obtain ⟨c, cs, split, noBlank⟩ := standard.starts
    -- From any cursor where the token may stand it is taken, and the rest of the line behind it.
    have take (cur : Cursor) (same : before.any Row.multiplies = cur.previous.any TokenKind.beforeProduct)
        (apart : t.kind.isVerbal = true → cur.before.any isWordChar = false) :
        Yields cur (t.lexeme.toList ++ (chars line ++ tail)) (t :: (line.map Prod.snd ++ us)) := by
      obtain ⟨tokens, rest, alike⟩ := @ih (cur.past t.kind t.lexeme.toList) (Option.some (.mk () (.leaf t)))
        (List.isChain_of_isChain_cons tidy) fits
        (by rw [Cursor.past, standard.significant]; rfl)
        (by
          rw [Cursor.past, List.getLast?_eq_some_getLast standard.toList_ne_nil, Option.some_or,
            ← List.getLast?_eq_some_getLast standard.toList_ne_nil]
          exact nextApart)
        behind
      refine ⟨⟨t.kind, t.lexeme, cur.position⟩ :: tokens, ?_, ?_⟩
      · rw [tokensFrom_standard standard (same ▸ star) (same ▸ product) apart clear, rest]
        rfl
      · rw [List.filter_cons_of_pos (by rw [standard.significant]; rfl)]
        exact congrArg₂ List.cons rfl alike
    rw [chars_cons, List.append_assoc, List.append_assoc]
    cases space with
    | false => exact take cur same ((apart _ rfl).resolve_left Bool.false_ne_true)
    | true =>
      refine yields_blank (by decide) ?_ (take (cur.past .whitespace [' ']) same fun _ => rfl)
      rw [split, List.cons_append]
      exact noBlank

/-- Lines with a new line behind each are cut into the tokens that they are made of. -/
theorem yields_lines {lines : List Line} {cur : Cursor} {before : Option Bare} (tidy : ∀ line ∈ lines, line.Tidy)
    (fits : Row.Chained (Row.Fits Token.Standard) before (Row.leaves (lines.flatMap (·.map Prod.snd))))
    (same : before.any Row.multiplies = cur.previous.any TokenKind.beforeProduct)
    (heads : ∀ line ∈ lines, ∃ u rest, line = (false, u) :: rest) (apart : cur.before.any isWordChar = false) :
    Yields cur (lines.flatMap fun line => line.chars ++ ['\n']) (lines.flatMap (·.map Prod.snd)) := by
  induction lines generalizing cur before with
  | nil => exact yields_nil cur
  | cons line lines ih =>
    obtain ⟨here, tidy⟩ := List.forall_mem_cons.mp tidy
    obtain ⟨_, heads⟩ := List.forall_mem_cons.mp heads
    rw [List.flatMap_cons, List.flatMap_cons, List.append_assoc, List.singleton_append]
    rw [List.flatMap_cons, Row.leaves, List.map_append, Row.chained_append] at fits
    refine yields_chars here fits.1 same (fun a _ => .inr fun _ => apart) (by rintro _ ⟨⟩; rfl) fun cur' same' => ?_
    refine yields_blank (by decide) ?_ (ih tidy fits.2 same' heads rfl)
    cases lines with
    | nil => rfl
    | cons next lines =>
      obtain ⟨u, rest, rfl⟩ := heads next List.mem_cons_self
      have standard := holds_of_fits fits.2 u (by simp)
      obtain ⟨c, cs, split, noBlank⟩ := standard.starts
      rw [List.flatMap_cons, chars_cons, split]
      exact noBlank

end Line

/-! ## Lines of trees -/

namespace Layout

open Line

variable {ps qs : Spaced Bare} {p q : Bool × Piece Bare}

/-- Whether the line of a piece may stand behind that of another. -/
def Adjoins (p q : Bool × Piece Bare) : Prop :=
  ∀ a ∈ (ofPiece Tree.line p).getLast?, ∀ b ∈ (ofPiece Tree.line q).head?, b.1 = true ∨ a.2.kind.touches b.2.kind = true

/-- A piece that may stand behind any other: there is a space before it, or it starts with a mark. -/
def Light (q : Bool × Piece Bare) : Prop :=
  q.1 = true ∨ ∀ b ∈ (ofPiece Tree.line q).head?, b.2.kind ∈ [TokenKind.comma, .semicolon, .bracketClose]

theorem head_ofPiece {b : Bool × Token} (first : b ∈ (ofPiece Tree.line q).head?) : b.1 = q.1 := by
  obtain ⟨space, piece⟩ := q
  cases piece with
  | child c =>
    rw [ofPiece] at first
    generalize c.line = line at first
    cases line <;> cases first
    rfl
  | _ => cases first; rfl

theorem Light.adjoins (light : Light q) : Adjoins p q := by
  intro a _ b first
  refine light.imp (fun space => (head_ofPiece first).trans space) fun mark => ?_
  have isMark := mark b first
  rw [TokenKind.touches, decide_eq_true isMark, Bool.or_true]
  rfl

theorem light_spaced (piece : Piece Bare) : Light (true, piece) := .inl rfl

theorem light_mark {t : Token} (isMark : t.kind ∈ [TokenKind.comma, .semicolon, .bracketClose]) : Light (false, .token t) :=
  .inr (by rintro _ ⟨⟩; exact isMark)

theorem chain_of_light (lights : ∀ q ∈ ps.tail, Light q) : ps.IsChain Adjoins := by
  cases ps with
  | nil => exact .nil
  | cons p ps =>
    induction ps generalizing p with
    | nil => exact .singleton p
    | cons q ps ih =>
      obtain ⟨here, others⟩ := List.forall_mem_cons.mp lights
      exact List.isChain_cons_cons.mpr ⟨here.adjoins, ih q others⟩

theorem light_loose (ts : List Token) : ∀ q ∈ (loose ts : Spaced Bare), Light q := by
  refine List.forall_mem_map.mpr fun t _ => light_spaced _

theorem light_labelled (name : Option Token) : ∀ q ∈ (labelled name : Spaced Bare), Light q :=
  List.forall_mem_map.mpr fun _ _ => light_spaced _

theorem light_clauses (cs : Row) : ∀ q ∈ Layout.clauses cs, Light q :=
  List.forall_mem_map.mpr fun _ _ => light_spaced _

theorem light_listed {entries : List (Spaced Bare)} (lights : ∀ entry ∈ entries, ∀ q ∈ entry, Light q) :
    ∀ q ∈ listed entries, Light q := by
  induction entries with
  | nil => nofun
  | cons entry entries ih =>
    obtain ⟨here, others⟩ := List.forall_mem_cons.mp lights
    cases entries with
    | nil => exact here
    | cons =>
      refine List.forall_mem_append.mpr ⟨here, List.forall_mem_cons.mpr ⟨?_, ih others⟩⟩
      exact light_mark (by decide)

/-- Words and what follows them with spaces. -/
theorem chain_words {t : Token} {ts : List Token} (lights : ∀ q ∈ ps, Light q) : (words (t :: ts) ++ ps).IsChain Adjoins :=
  chain_of_light (List.forall_mem_append.mpr ⟨light_loose ts, lights⟩)

/-- What stands in a branch is separated by spaces, but for marks. -/
theorem light_sequence (cs : Row) : ∀ q ∈ (sequence Render.isGlued cs).tail, Light q := by
  cases cs with
  | nil => exact List.forall_mem_nil _
  | cons c cs =>
    refine List.forall_mem_map.mpr fun d _ => ?_
    cases glued : Render.isGlued d with
    | false => exact light_spaced _
    | true =>
      obtain ⟨⟨⟩, n⟩ := d
      cases n with
      | leaf t =>
        have mark : t.kind = .comma ∨ t.kind = .semicolon := by
          unfold Render.isGlued at glued
          split at glued
          · next comma => exact .inl (Option.some.inj comma)
          · next semicolon => exact .inr (Option.some.inj semicolon)
          · cases glued
        refine light_mark (t := t) ?_
        rcases mark with isComma | isSemicolon
        · simp [isComma]
        · simp [isSemicolon]
      | _ => cases glued

/-- Behind a point or an opening bracket anything may stand. -/
theorem chain_behind {space : Bool} {t : Token} (opens : t.kind ∈ [TokenKind.dot, .bracketOpen]) (chain : ps.IsChain Adjoins) :
    ((space, Piece.token t) :: ps).IsChain Adjoins := by
  refine List.isChain_cons.mpr ⟨fun q _ a last b _ => .inr ?_, chain⟩
  obtain rfl : a = (space, t) := (Option.some.inj last).symm
  rw [TokenKind.touches, decide_eq_true opens]
  rfl

/-- Names are joined by points. -/
theorem chain_dotted {qualifiers : List (Option Token)} {name : Token} (symbols : ∀ t ∈ qualifiers.filterMap id, t.kind = .symbol) :
    (dotted qualifiers name : Spaced Bare).IsChain Adjoins := by
  rw [dotted]
  generalize qualifiers.filterMap id = names at symbols
  induction names with
  | nil => exact .singleton _
  | cons t names ih =>
    obtain ⟨isSymbol, others⟩ := List.forall_mem_cons.mp symbols
    obtain ⟨u, rest, split⟩ := List.exists_cons_of_ne_nil (List.append_ne_nil_of_right_ne_nil names (List.cons_ne_nil name []))
    rw [List.cons_append, split, List.intersperse_cons_cons, ← split]
    refine List.isChain_cons_cons.mpr ⟨?_, chain_behind (t := .point) (by decide) (ih others)⟩
    rintro _ ⟨⟩ _ ⟨⟩
    refine .inr ?_
    show t.kind.touches .dot = true
    rw [isSymbol]
    rfl

end Layout

open Layout in
/-- The pieces of a layer stand apart, or may touch. -/
theorem Node.layout_adjoins {n : Node Bare} (slots : n.Slots (Rule.glance Tree.node))
    (below : ∀ c ∈ n.children, c.node.Slots (Rule.glance Tree.node)) : (n.layout Render.isGlued).IsChain Adjoins := by
  cases n with
  | leaf t => exact .singleton _
  | column c =>
    refine chain_dotted fun t mem => slots.symbols t (List.mem_append_left _ ?_)
    rcases c with ⟨_ | s, _ | u, v⟩ <;> simp_all
  | literal l =>
    rcases l with ⟨_ | s, v⟩
    · exact .singleton _
    · obtain ⟨isSign, isNumber⟩ := slots.2 s rfl
      rw [Rule.isSign, Bool.and_eq_true, beq_iff_eq] at isSign
      refine List.isChain_cons_cons.mpr ⟨?_, .singleton _⟩
      rintro _ ⟨⟩ _ ⟨⟩
      refine .inr ?_
      show s.kind.touches v.kind = true
      rw [isSign.1, isNumber]
      rfl
  | operation o =>
    exact chain_of_light (List.forall_mem_append.mpr ⟨light_loose _, List.forall_mem_singleton.mpr (light_spaced _)⟩)
  | membership o =>
    exact chain_of_light (List.forall_mem_append.mpr ⟨light_loose _, List.forall_mem_singleton.mpr (light_spaced _)⟩)
  | conjunction c =>
    rcases c with ⟨⟨_, e⟩, second, rest⟩
    obtain rfl : _ = none := slots.2.1
    refine chain_of_light (List.forall_mem_flatMap.mpr fun j mem => ?_)
    obtain ⟨t, shown, _⟩ := slots.2.2 j mem
    rw [junct, shown]
    exact List.forall_mem_cons.mpr ⟨light_spaced _, List.forall_mem_singleton.mpr (light_spaced _)⟩
  | bracket p =>
    have closing : Light (false, .token p.closing) := light_mark (by rw [slots.2]; decide)
    refine chain_behind (by rw [slots.1]; decide) (chain_of_light ?_)
    have inside := light_sequence p.children
    cases cs : sequence Render.isGlued p.children with
    | nil => exact List.forall_mem_nil _
    | cons q qs =>
      rw [cs] at inside
      exact List.forall_mem_append.mpr ⟨inside, List.forall_mem_singleton.mpr closing⟩
  | call c =>
    rcases c with ⟨name, distinct, arguments⟩
    obtain ⟨isSymbol, isBracket, _⟩ := slots
    have opening := below arguments (by simp)
    obtain ⟨⟨⟩, m⟩ := arguments
    cases m with
    | bracket p =>
      refine List.isChain_cons_cons.mpr ⟨?_, .singleton _⟩
      rw [Adjoins, Line.ofPiece, Line.ofPiece, Tree.line_mk]
      rintro _ ⟨⟩ _ ⟨⟩
      refine .inr ?_
      show name.kind.touches p.opening.kind = true
      rw [isSymbol, opening.1]
      rfl
    | _ => cases isBracket
  | allColumns a =>
    refine chain_dotted fun t mem => slots.1 t ?_
    rcases a with ⟨_ | s, _ | u, v⟩ <;> simp_all
  | table t =>
    refine chain_dotted fun u mem => slots u (List.mem_append_left _ ?_)
    rcases t with ⟨_ | s, v⟩ <;> simp_all
  | fromClause c =>
    exact chain_of_light (List.forall_mem_cons.mpr ⟨light_spaced _, light_labelled _⟩)
  | join j =>
    obtain ⟨⟨modifiers, word, keywords, _⟩, _⟩ := slots
    obtain ⟨t, ts, split⟩ := List.exists_cons_of_ne_nil (List.append_ne_nil_of_right_ne_nil modifiers (List.cons_ne_nil word []))
    rw [layout, keywords, split, List.append_assoc]
    refine chain_words (List.forall_mem_append.mpr ⟨List.forall_mem_cons.mpr ⟨light_spaced _, light_labelled _⟩, ?_⟩)
    refine List.forall_mem_flatMap.mpr fun c _ => ?_
    exact List.forall_mem_cons.mpr ⟨light_spaced _, List.forall_mem_singleton.mpr (light_spaced _)⟩
  | whereClause c => exact chain_of_light (List.forall_mem_singleton.mpr (light_spaced _))
  | havingClause c => exact chain_of_light (List.forall_mem_singleton.mpr (light_spaced _))
  | groupBy g =>
    exact chain_words (light_listed (List.forall_mem_map.mpr fun e _ => List.forall_mem_singleton.mpr (light_spaced _)))
  | orderBy o =>
    exact chain_words (light_listed (List.forall_mem_map.mpr fun i _ => List.forall_mem_cons.mpr ⟨light_spaced _, light_loose _⟩))
  | select s =>
    have items : ∀ entry ∈ s.items.map projection, ∀ q ∈ entry, Light q := by
      refine List.forall_mem_map.mpr fun i _ => ?_
      rcases i with ⟨e, _ | t⟩ <;> simp [projection, light_spaced]
    rw [layout, List.append_assoc]
    exact chain_words (List.forall_mem_append.mpr ⟨light_listed items, light_clauses _⟩)
  | update u =>
    have assignments : ∀ entry ∈ u.assignments.map fun e => [(true, .child e)], ∀ q ∈ entry, Light q :=
      List.forall_mem_map.mpr fun e _ => List.forall_mem_singleton.mpr (light_spaced _)
    have lights : ∀ q ∈ [(true, Piece.child u.table)] ++ labelled u.aliasName ++ Layout.clauses u.joins ++
        (true, .token u.setKeyword) :: listed (u.assignments.map fun e => [(true, .child e)]) ++
        Layout.clauses (u.filter.toList ++ u.ordering.toList), Light q := by
      simp only [List.forall_mem_append, List.forall_mem_cons]
      exact ⟨⟨⟨⟨⟨light_spaced _, List.forall_mem_nil _⟩, light_labelled _⟩, light_clauses _⟩, light_spaced _, light_listed assignments⟩, light_clauses _⟩
    exact chain_of_light lights
  | root cs => exact chain_of_light (light_sequence cs)

namespace Tree

/-- The line of a layer is tidy, if those of the sub-trees are. -/
theorem tidy_line_mk {n : Node Bare} (slots : n.Slots (Rule.glance node)) (nests : n.Nests kind)
    (below : ∀ c ∈ n.children, c.All Regular) (tidy : ∀ c ∈ n.children, c.line.Tidy) : (mk () n).line.Tidy := by
  have placed : ∀ p ∈ n.layout Render.isGlued, ∀ c, p.2 = .child c → c ∈ n.children := fun p mem c shown =>
    (n.mem_children_iff_layout Render.isGlued nests).mpr ⟨p.1, shown ▸ mem⟩
  have adjoins := Node.layout_adjoins slots fun c listed => (below c listed).node.2.1
  -- The line of a piece is that of its sub-tree, with a space before it or not.
  have pieces : ∀ line ∈ (n.layout Render.isGlued).map (Line.ofPiece Tree.line), line ≠ [] ∧ line.Tidy := by
    refine List.forall_mem_map.mpr fun p mem => ?_
    obtain ⟨space, piece⟩ := p
    cases piece with
    | child c =>
      have listed := placed _ mem c rfl
      obtain ⟨u, rest, head⟩ := line_head (below c listed)
      have inside := tidy c listed
      rw [Line.ofPiece, head, Line.lead]
      rw [head] at inside
      refine ⟨List.cons_ne_nil _ _, ?_⟩
      rw [Line.Tidy, List.isChain_cons] at inside ⊢
      exact inside
    | _ => exact ⟨List.cons_ne_nil _ _, .singleton _⟩
  rw [line_mk, List.flatMap_def, Line.Tidy, List.isChain_flatten fun empty => (pieces _ empty).1 rfl]
  exact ⟨fun line mem => (pieces line mem).2, (List.isChain_map _).mpr adjoins⟩

/-- The line of a tree is tidy. -/
theorem tidy_line {t : Bare} (regular : t.All Regular) : t.line.Tidy := by
  induction regular with
  | mk here below ih => exact tidy_line_mk here.2.1 here.2.2 below ih

end Tree

end SqlFold
