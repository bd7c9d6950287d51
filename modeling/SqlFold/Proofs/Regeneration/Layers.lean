import SqlFold.Proofs.Embedding
import SqlFold.Proofs.Regeneration.Seams

/-!
# Statements that can be written again

A tree is written with the tokens of its layers, and with points, commas and `AS` (`Node.mem_parts_of_shows`). All
of these are found again elsewhere. So what is parsed from a text into statements, or into whatever else stands by
itself, is made of layers that can be written, scanned and folded again (`Dialect.Parsed.restores_apart`).
-/

namespace SqlFold

namespace Layout
variable {α : Type} {t u : Token} {ps qs : Spaced α}

/-- A token stands in a layout. -/
def Shows (t : Token) (ps : Spaced α) : Prop := .token t ∈ pieces ps ∨ .name t ∈ pieces ps

@[simp] theorem not_shows_nil : ¬Shows t ([] : Spaced α) := by simp [Shows]

@[simp] theorem shows_token {space : Bool} : Shows t ((space, .token u) :: ps) ↔ t = u ∨ Shows t ps := by
  simp [Shows, or_assoc]

@[simp] theorem shows_name {space : Bool} : Shows t ((space, .name u) :: ps) ↔ t = u ∨ Shows t ps := by
  simp [Shows, or_left_comm]

@[simp] theorem shows_child {space : Bool} {c : α} : Shows t ((space, .child c) :: ps) ↔ Shows t ps := by
  simp [Shows]

@[simp] theorem shows_append : Shows t (ps ++ qs) ↔ Shows t ps ∨ Shows t qs := by
  simp [Shows, or_assoc, or_left_comm]

@[simp] theorem shows_tight {ts : List Token} : Shows t (tight ts : Spaced α) ↔ t ∈ ts := by simp [Shows]

@[simp] theorem shows_loose {ts : List Token} : Shows t (loose ts : Spaced α) ↔ t ∈ ts := by simp [Shows]

@[simp] theorem shows_words {ts : List Token} : Shows t (words ts : Spaced α) ↔ t ∈ ts := by simp [Shows]

@[simp] theorem shows_clauses {cs : List α} : ¬Shows t (clauses cs) := by simp [Shows]

@[simp] theorem shows_sequence {glued : α → Bool} {cs : List α} : ¬Shows t (sequence glued cs) := by simp [Shows]

@[simp] theorem shows_labelled {name : Option Token} : Shows t (labelled name : Spaced α) ↔ name = some t := by
  cases name <;> simp [labelled, eq_comm]

@[simp] theorem shows_flatMap {β : Type} {bs : List β} {f : β → Spaced α} : Shows t (bs.flatMap f) ↔ ∃ b ∈ bs, Shows t (f b) := by
  induction bs with
  | nil => simp
  | cons b bs ih => simp [ih]

theorem Shows.of_listed {entries : List (Spaced α)} (shows : Shows t (listed entries)) :
    (∃ entry ∈ entries, Shows t entry) ∨ t = .comma := by
  induction entries with
  | nil => exact absurd shows not_shows_nil
  | cons entry entries ih =>
    cases entries with
    | nil => exact .inl ⟨entry, by simp, shows⟩
    | cons entry' entries =>
      simp only [listed, shows_append, shows_token] at shows
      rcases shows with here | comma | later
      · exact .inl ⟨entry, by simp, here⟩
      · exact .inr comma
      · refine (ih later).imp_left ?_
        rintro ⟨e, mem, shows⟩
        exact ⟨e, List.mem_cons_of_mem _ mem, shows⟩

theorem Shows.of_dotted {qualifiers : List (Option Token)} {name : Token} (shows : Shows t (dotted qualifiers name : Spaced α)) :
    some t ∈ qualifiers ∨ t = name ∨ t = .point := by
  rw [dotted, shows_tight] at shows
  have among {names : List Token} (mem : t ∈ names.intersperse .point) : t ∈ names ∨ t = .point := by
    induction names with
    | nil => cases mem
    | cons name names ih =>
      cases names with
      | nil => exact .inl mem
      | cons =>
        rw [List.intersperse_cons_cons, List.mem_cons, List.mem_cons] at mem
        rcases mem with rfl | point | later
        · exact .inl List.mem_cons_self
        · exact .inr point
        · exact (ih later).imp_left (List.mem_cons_of_mem _)
  rcases among shows with listed | point
  · rcases List.mem_append.mp listed with qualifier | isName
    · exact .inl (by simpa using qualifier)
    · exact .inr (.inl (List.mem_singleton.mp isName))
  · exact .inr (.inr point)

@[simp] theorem shows_junct {j : Junct α} : Shows t (junct j) ↔ j.operator = some t := by
  rcases j with ⟨_ | u, e⟩ <;> simp [junct, eq_comm]

@[simp] theorem shows_restriction {c : Restriction α} : Shows t (restriction c) ↔ t = c.keyword := by simp [restriction]

theorem shows_projection {i : Projection α} (shows : Shows t (projection i)) : i.aliasName = some t ∨ t = .aliasWord := by
  rcases i with ⟨e, _ | u⟩ <;> simp_all [projection, eq_comm, or_comm]

end Layout

/-- An optional token is a part where it is written. -/
@[simp] theorem Part.ofToken?_eq_token {α : Type} {t : Token} {t? : Option Token} :
    (.ofToken? t? : Part α) = .token t ↔ t? = some t := by
  cases t? <;> simp [Part.ofToken?]

@[simp] theorem Part.token_eq_ofToken? {α : Type} {t : Token} {t? : Option Token} :
    (Part.token t : Part α) = .ofToken? t? ↔ t? = some t := by
  rw [eq_comm, Part.ofToken?_eq_token]

open Layout in
/-- The tokens of a layout are those of the layer, and points, commas and the word before an alias. -/
theorem Node.mem_parts_of_shows {α : Type} {glued : α → Bool} {n : Node α} {t : Token} (shows : Shows t (n.layout glued)) :
    .token t ∈ n.parts ∨ t ∈ [Token.point, .comma, .aliasWord] := by
  cases n with
  | column c =>
    have names := shows.of_dotted
    simp only [parts, List.mem_cons, List.not_mem_nil, or_false, Part.token.injEq,
      Part.token_eq_ofToken?, eq_comm (a := some t)] at names ⊢
    tauto
  | allColumns a =>
    have names := shows.of_dotted
    simp only [parts, List.mem_cons, List.not_mem_nil, or_false, Part.token.injEq,
      Part.token_eq_ofToken?, eq_comm (a := some t)] at names ⊢
    tauto
  | table n =>
    have names := shows.of_dotted
    simp only [parts, List.mem_cons, List.not_mem_nil, or_false, Part.token.injEq,
      Part.token_eq_ofToken?, eq_comm (a := some t)] at names ⊢
    tauto
  | groupBy g =>
    simp only [layout, shows_append, shows_words] at shows
    rcases shows with word | list
    · simp_all [parts]
    · have entry := list.of_listed
      simp_all
  | orderBy o =>
    simp only [layout, shows_append, shows_words] at shows
    rcases shows with word | list
    · left
      simp [parts] at word ⊢
      tauto
    · have entry := list.of_listed
      simp [parts] at entry ⊢
      grind
  | select s =>
    simp only [layout, shows_append, shows_words, shows_clauses, or_false] at shows
    rcases shows with word | list
    · simp [parts, eq_comm] at word ⊢
      tauto
    · rcases list.of_listed with ⟨entry, listed, here⟩ | comma
      · obtain ⟨i, mem, rfl⟩ := List.mem_map.mp listed
        rcases shows_projection here with isAlias | isWord
        · left
          simp [parts]
          grind
        · simp [isWord]
      · simp [comma]
  | update u =>
    have words : t = u.keyword ∨ u.aliasName = some t ∨ t = u.setKeyword ∨
        Shows t (listed (u.assignments.map fun e => [(true, .child e)])) := by
      simpa [layout, or_assoc] using shows
    rcases words with word | isAlias | word | list
    · simp [parts, word]
    · simp [parts, isAlias]
    · simp [parts, word]
    · have entry := list.of_listed
      simp_all
  | join j =>
    simp [layout] at shows
    cases shown: j.condition
    all_goals
      simp [shown, parts] at shows ⊢
      tauto
  | conjunction =>
    simp [layout, parts, Conjunction.parts] at shows ⊢
    grind
  | _ =>
    simp [layout, parts, eq_comm] at shows ⊢
    try tauto
/-! ## Tokens that are found again -/

namespace Token

/-- A mark stands for itself. -/
theorem standard_of_mark {kind : TokenKind} {cs : List Char} (some : cs ≠ []) (plain : kind.isTrivia = false)
    (noName : kind ≠ .symbol) (noStar : kind ≠ .operator)
    (found : Scan.next? ⟨Vocabulary.standardEntries⟩ none (cs ++ []) = .some (cs.length, kind)) (place : Text.Position) :
    Standard ⟨kind, String.ofList cs, place⟩ := by
  rw [← Vocabulary.standard_eq] at found
  have standard := standard_of_next? found some plain (fun name => absurd name noName) none place
  have same : kind.resolveStar (String.ofList cs) none = kind :=
    (TokenKind.resolveStar_cases kind (String.ofList cs) none).resolve_right fun product => noStar product.1
  rwa [same] at standard

theorem standard_point : Standard .point :=
  @standard_of_mark .dot ['.'] (by decide) rfl (by decide) (by decide) (by decide +kernel) .start

theorem standard_comma : Standard .comma :=
  @standard_of_mark .comma [','] (by decide) rfl (by decide) (by decide) (by decide +kernel) .start

theorem standard_aliasWord : Standard .aliasWord :=
  @standard_of_mark .asKw ['A', 'S'] (by decide) rfl (by decide) (by decide) (by decide +kernel) .start

/-- What is written between the parts of a layer is found again elsewhere. -/
theorem standard_of_shows {α : Type} {glued : α → Bool} {n : Node α} {t : Token}
    (parts : ∀ u, .token u ∈ n.parts → u.Standard) (shows : Layout.Shows t (n.layout glued)) : t.Standard := by
  rcases Node.mem_parts_of_shows shows with part | added
  · exact parts t part
  · simp only [List.mem_cons, List.not_mem_nil, or_false] at added
    rcases added with rfl | rfl | rfl
    · exact standard_point
    · exact standard_comma
    · exact standard_aliasWord

end Token

/-- Where a `*` is told from a product, leaves can be folded. -/
theorem Script.Lexed.fits {P : Token → Prop} {ts : List Token} {previous : Option TokenKind} {before : Option Bare}
    (lexed : Lexed previous ts) (holds : ∀ t ∈ ts, P t)
    (same : before.any Row.multiplies = previous.any TokenKind.beforeProduct) :
    Row.Chained (Row.Fits P) before (Row.leaves ts) := by
  induction ts generalizing previous before with
  | nil => trivial
  | cons t ts ih =>
    obtain ⟨_, star, product, later⟩ := lexed
    obtain ⟨here, others⟩ := List.forall_mem_cons.mp holds
    rw [← same] at star product
    exact ⟨.leaf here star product, ih later others rfl⟩

/-- What holds of all tokens of a tree holds in every layer. -/
theorem Tree.all_tokens {P : Token → Prop} (t : Bare) (holds : ∀ u ∈ t.tokens, P u) :
    t.All fun n => ∀ u, .token u ∈ n.parts → P u := by
  induction t using Tree.induction with
  | step tag n ih =>
    rw [tokens_mk] at holds
    have part {p : Part Bare} (listed : p ∈ n.parts) : ∀ u ∈ p.read tokens, P u := fun u mem =>
      holds u (List.mem_flatMap.mpr ⟨p, listed, mem⟩)
    refine .mk (fun u listed => part listed u (List.mem_singleton_self u)) fun c child => ?_
    obtain ⟨p, listed, isChild⟩ := List.mem_filterMap.mp child
    cases p with
    | child d =>
      cases isChild
      exact ih c child (part listed)
    | _ => cases isChild

namespace Dialect.Parsed

open Forest

variable {limit : Nat} {source : String} {f : Forest} {script : Script} {row : Row}
  (h : Parsed .standard limit source f script row)

/-- Parsed statements end at semicolons. -/
theorem ends {vocabulary : Vocabulary} (h : Parsed vocabulary limit source f script row) :
    Row.Chained Row.Ends none row := by
  obtain ⟨grouped, rests⟩ := h.parses
  exact rests.ends (grouped.fresh (Row.leaf_of_mem_leaves _))

include h

section Apart

variable (apart : row.Apart)

include apart

/-- All layers of what stands apart read as they should, and so do all terms. -/
theorem reads {P : Token → Prop} (holds : ∀ t ∈ script.significant, P t) :
    ∀ t ∈ row, t.All (Node.Reads P) ∧ (t.kind.isExpression = true → Row.IsTerm P t) :=
  h.parses.reads (Row.leaf_of_mem_leaves _) ((Script.lexed_significant h.scanned).fits holds rfl) (.inl apart)

/-- All tokens of what stands apart are found again elsewhere. -/
theorem standard : ∀ t ∈ script.significant, t.Standard := by
  have reads := h.reads apart fun _ _ => trivial
  have layers : ∀ t ∈ row, t.All fun n => n.kind ≠ .root ∧ n.Slots (Rule.glance Tree.node) ∧ n.Reads fun _ => True :=
    fun t mem => ((h.sound_row t mem).all.and (reads t mem).1).imp fun _ layer => ⟨layer.1.1, layer.1.2, layer.2⟩
  have spells := h.spells
  rw [h.bare] at spells
  obtain ⟨ps, written, spelled⟩ := Tree.spells_mk.mp spells
  have below : ∀ c ∈ Piece.children ps, ∀ us, c.Spells us → c.Seams us := by
    rw [written.children, Node.children_root]
    exact fun c mem => Tree.seams (layers c mem)
  have sewn : Sewn false ps := written.sewn trivial (by rintro _ ⟨⟩; exact apart) fun phrase => nomatch phrase
  exact (Script.lexed_significant h.scanned).standard (spelled.seams sewn below).1 nofun

/-- What stands apart is made of layers that can be written, scanned and folded again. -/
theorem restores_apart : ∀ t ∈ row, t.All (Node.Restores Token.Standard) := by
  have standard := h.standard apart
  have reads := h.reads apart standard
  have tokens := h.spells
  rw [h.bare] at tokens
  have sublist := Tree.tokens_sublist tokens
  rw [Tree.tokens_mk] at sublist
  intro t mem
  have words : t.All fun n => ∀ u, .token u ∈ n.parts → u.Standard := by
    refine t.all_tokens fun u inside => standard u (sublist.subset ?_)
    exact List.mem_flatMap.mpr ⟨.child t, List.mem_map_of_mem mem, inside⟩
  refine (((h.parses.regular t mem).and (reads t mem).1).and words).imp ?_
  rintro n ⟨⟨regular, reads⟩, words⟩
  exact ⟨regular, reads, fun u => Token.standard_of_shows words⟩

end Apart

/-- Statements are made of layers that can be written, scanned and folded again. -/
theorem restores (statements : Row.Statements row) : ∀ t ∈ row, t.All (Node.Restores Token.Standard) :=
  h.restores_apart (statements.apart h.ends)

end Dialect.Parsed

end SqlFold
