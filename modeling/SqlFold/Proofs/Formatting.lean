import SqlFold.Command.Run
import SqlFold.Proofs.Diagnostics
import SqlFold.Proofs.Regeneration.Basic

/-!
# Formatted texts

A text is formatted by writing all that stands in its row, but for the semicolons, with a semicolon and a new line
behind each (`Forest.formatted`). Where a semicolon stood between any two neighbours already, the formatted text is
parsed to the same trees (`Dialect.Parsed.parse_formatted`), so formatting it again changes nothing
(`Command.Invocation.format_stable`). But a `SELECT` with words behind it that belong to no clause is left in the row
word by word, and the words are taken apart.
-/

namespace SqlFold

open Forest

namespace Token

/-- The semicolon behind a statement. -/
def semicolon : Token := ⟨.semicolon, ";", .start⟩

theorem standard_semicolon : Standard .semicolon :=
  @standard_of_mark .semicolon [';'] (by decide) rfl (by decide) (by decide) (by decide +kernel) .start

end Token

/-! ## Rows with a semicolon behind each tree -/

namespace Row

variable {row : Row}

/-- Trees with a semicolon behind each. -/
def terminated (row : Row) : Row := row.flatMap fun t => [t, .mk () (.leaf .semicolon)]

@[simp] theorem terminated_nil : terminated [] = [] := rfl

@[simp] theorem terminated_cons (t : Bare) (row : Row) :
    terminated (t :: row) = t :: .mk () (.leaf .semicolon) :: terminated row := rfl

theorem mem_terminated {t : Bare} (mem : t ∈ terminated row) : t ∈ row ∨ t = .mk () (.leaf .semicolon) := by
  obtain ⟨u, listed, here⟩ := List.mem_flatMap.mp mem
  rcases List.mem_cons.mp here with rfl | semicolon
  · exact .inl listed
  · exact .inr (List.mem_singleton.mp semicolon)

/-- Where every tree has a semicolon behind it they stand apart. -/
theorem apart_terminated (row : Row) : Apart (terminated row) := by
  induction row with
  | nil => exact .nil
  | cons t row ih => exact List.isChain_cons_cons.mpr ⟨.inr rfl, List.isChain_cons.mpr ⟨fun _ _ => .inl rfl, ih⟩⟩

/-! ### Statements -/

section Statements

variable {α : Type} {look : Bare → α} {t : Bare}

theorem overStatements_semicolon (semicolon : Rule.leafIs Tree.node .semicolon t = true) (row : Row) :
    overStatements look (t :: row) = overStatements look row := by
  rw [Rule.leafIs, beq_iff_eq] at semicolon
  rw [overStatements, List.filter_cons_of_neg (by simp [semicolon]), overStatements]

theorem overStatements_statement (other : Rule.leafIs Tree.node .semicolon t = false) (row : Row) :
    overStatements look (t :: row) = look t :: overStatements look row := by
  rw [Rule.leafIs, beq_eq_false_iff_ne] at other
  rw [overStatements, List.filter_cons_of_pos (by simpa using other), overStatements, List.map_cons]

/-- The trees of a row that are no semicolons. -/
def withoutSemicolons (row : Row) : Row := row.overStatements id

theorem mem_withoutSemicolons :
    t ∈ withoutSemicolons row ↔ t ∈ row ∧ Rule.leafIs Tree.node .semicolon t = false := by
  rw [withoutSemicolons, overStatements, List.map_id, List.mem_filter, bne_iff_ne, Rule.leafIs, beq_eq_false_iff_ne]

/-- The semicolons behind the trees are not seen as statements. -/
theorem overStatements_terminated (row : Row) :
    (terminated (withoutSemicolons row)).overStatements look = row.overStatements look := by
  induction row with
  | nil => rfl
  | cons t row ih =>
    rw [withoutSemicolons] at ih ⊢
    cases semicolon : Rule.leafIs Tree.node .semicolon t with
    | true => rw [overStatements_semicolon semicolon, overStatements_semicolon semicolon, ih]
    | false =>
      rw [overStatements_statement semicolon, overStatements_statement semicolon, id, terminated_cons,
        overStatements_statement semicolon, overStatements_semicolon (by rfl), ih]

end Statements

/-- No rule makes a semicolon. -/
theorem made_terminated (rule : Rule) (row : Row) : (terminated (withoutSemicolons row)).made rule = row.made rule := by
  have leaf : (Tree.mk () (.leaf .semicolon) : Bare).made rule = 0 := Rule.made_of_leaf rfl
  induction row with
  | nil => rfl
  | cons t row ih =>
    rw [withoutSemicolons] at ih ⊢
    cases semicolon : Rule.leafIs Tree.node .semicolon t with
    | true =>
      obtain ⟨u, shown, _⟩ := Rule.leafIs_iff.mp semicolon
      rw [overStatements_semicolon semicolon, ih, made_cons, Rule.made_of_leaf (by rw [shown]; rfl), Nat.zero_add]
    | false =>
      rw [overStatements_statement semicolon, id, terminated_cons, made_cons, made_cons, leaf, ih, made_cons,
        Nat.zero_add]

/-- With other semicolons a row is as far within the limit. -/
theorem within_terminated {limit : Nat} (within : row.Within limit) :
    (terminated (withoutSemicolons row)).Within limit := by
  refine ⟨fun rule => made_terminated rule row ▸ within.made rule, fun t mem => ?_⟩
  rcases mem_terminated mem with listed | rfl
  · exact within.trees t (mem_withoutSemicolons.mp listed).1
  · exact .leaf rfl

/-! ### Lines -/

/-- The line of a tree with a semicolon at its end. -/
def terminatedLine (t : Bare) : Line := t.line ++ [(false, .semicolon)]

theorem wording_terminated (row : Row) :
    (row.map terminatedLine).flatMap (·.map Prod.snd) = (terminated row).wording := by
  induction row with
  | nil => rfl
  | cons t row ih =>
    rw [List.map_cons, List.flatMap_cons, ih, terminated_cons, wording_cons, wording_cons, Tree.wording_leaf,
      terminatedLine, List.map_append, List.append_assoc]
    rfl

/-- What is written for trees with a semicolon and a new line behind each is cut into their tokens. -/
theorem yields_terminated {ts : List Token} (remakes : Remakes Token.Standard ts (terminated row))
    (regular : ∀ t ∈ row, t.All Tree.Regular) :
    Line.Yields .start (row.flatMap fun t => t.render.toList ++ [';', '\n']) (terminated row).wording := by
  have fits : Chained (Fits Token.Standard) none (leaves (terminated row).wording) :=
    fits_alike remakes.fits remakes.alike rfl
  have texts : ∀ t ∈ row, t.line.chars = t.render.toList := by
    refine fun t mem => Tree.chars_line (regular t mem) fun u inside => ?_
    refine (Line.holds_of_fits fits u (List.mem_flatMap.mpr ⟨t, ?_, inside⟩)).lexeme_ne
    exact List.mem_flatMap.mpr ⟨t, mem, List.mem_cons_self⟩
  have text : (row.map terminatedLine).flatMap (fun line => Line.chars line ++ ['\n']) =
      row.flatMap fun t => t.render.toList ++ [';', '\n'] := by
    rw [List.flatMap_map]
    refine List.flatMap_congr fun t mem => ?_
    rw [terminatedLine, Line.chars_append, texts t mem, List.append_assoc]
    rfl
  have tidy : ∀ line ∈ row.map terminatedLine, Line.Tidy line := by
    refine List.forall_mem_map.mpr fun t mem => ?_
    refine List.isChain_append.mpr ⟨Tree.tidy_line (regular t mem), .singleton _, ?_⟩
    rintro a _ _ ⟨⟩
    exact .inr (by simp [TokenKind.touches, Token.semicolon])
  have heads : ∀ line ∈ row.map terminatedLine, ∃ u rest, line = (false, u) :: rest := by
    refine List.forall_mem_map.mpr fun t mem => ?_
    obtain ⟨u, rest, head⟩ := Tree.line_head (regular t mem)
    exact ⟨u, rest ++ [(false, .semicolon)], by rw [terminatedLine, head]; rfl⟩
  rw [← wording_terminated] at fits ⊢
  rw [← text]
  exact Line.yields_lines tidy fits rfl heads rfl

/-! ### Rows parsed again -/

theorem restores_semicolon : (Tree.mk () (.leaf .semicolon) : Bare).All (Node.Restores Token.Standard) := by
  have regular : Tree.Regular (.leaf .semicolon) := ⟨nofun, trivial, trivial⟩
  refine .of_children_nil ⟨regular, reads_of_plain rfl nofun, fun t shown => ?_⟩ (Node.children_leaf _)
  obtain rfl : t = .semicolon := by simpa [Tree.node, Node.layout] using shown
  exact Token.standard_semicolon

end Row

/-! ## Stores -/

namespace Forest

/-- What is written for a store: all that stands below the root, but for semicolons, with a semicolon and a new line
behind each. -/
def formatted (f : Forest) : String := String.join (f.statements.map fun r => f.render r ++ ";" ++ "\n")

/-- Of two neighbours below the root one is a semicolon. -/
def StandAlone (f : Forest) : Prop :=
  (f.childList root).IsChain fun r s =>
    (f.node r).tokenKind? = some .semicolon ∨ (f.node s).tokenKind? = some .semicolon

variable {f : Forest} {row : Row} (h : f.Coherent) (shown : f.bare Forest.root = .mk () (.root row))

include h shown

/-- The statements of a store are written as the trees of its row that are no semicolons. -/
theorem Coherent.formatted_eq :
    f.formatted = String.join (row.overStatements fun t => t.render ++ ";" ++ "\n") := by
  rw [formatted, ← h.map_statements shown]
  simp only [render_bare]

theorem Coherent.toList_formatted :
    f.formatted.toList = (Row.withoutSemicolons row).flatMap fun t => t.render.toList ++ [';', '\n'] := by
  rw [h.formatted_eq shown, String.toList_join, Row.withoutSemicolons, Row.overStatements, Row.overStatements]
  simp [List.flatMap_def, Function.comp_def]

/-- In the row of a store trees stand apart if below the root nodes stand alone. -/
theorem Coherent.apart_iff : row.Apart ↔ f.StandAlone := by
  obtain ⟨cs, node, rfl⟩ := h.node_root shown
  have kinds (r : NodeRef) : (f.bare r).node.tokenKind? = (f.node r).tokenKind? := by
    rw [h.node_bare, Node.tokenKind?, Node.tokenKind?, Node.token?_map]
  rw [Row.Apart, List.isChain_map, StandAlone, childList, node]
  simp only [Rule.leafIs, beq_iff_eq, kinds]
  rfl

end Forest

namespace Dialect

variable {limit : Nat} {source : String} {f : Forest} {script : Script} {row : Row}

/-- Where nodes stand alone the formatted text is parsed to the same statements. -/
theorem Parsed.parse_formatted (h : Parsed .standard limit source f script row) (alone : f.StandAlone) :
    ∃ g, (Dialect.mk .standard (.standard limit)).parse f.formatted = .ok g ∧
      g.formatted = f.formatted ∧ g.outlineStatements = f.outlineStatements := by
  have apart := (h.sound.coherent.apart_iff h.bare).mpr alone
  have restores := h.restores_apart apart
  have terms := h.reads apart (h.standard apart)
  -- A semicolon stands between any two statements now, and each of them can be parsed by itself.
  have apart' := Row.apart_terminated (Row.withoutSemicolons row)
  have restores' : ∀ t ∈ Row.terminated (Row.withoutSemicolons row), t.All (Node.Restores Token.Standard) := by
    intro t mem
    rcases Row.mem_terminated mem with listed | rfl
    · exact restores t (Row.mem_withoutSemicolons.mp listed).1
    · exact Row.restores_semicolon
  obtain ⟨ts, remakes⟩ := apart'.remakes restores' fun t mem other => by
    rcases Row.mem_terminated mem with listed | rfl
    · exact h.parses.remakes apart (fun _ => Token.Standard.point) restores (fun t mem => (terms t mem).2)
        (Row.mem_withoutSemicolons.mp listed).1 other
    · cases other
  have yields := Row.yields_terminated remakes fun t mem =>
    (restores t (Row.mem_withoutSemicolons.mp mem).1).imp fun _ layer => layer.regular
  rw [← h.sound.coherent.toList_formatted h.bare] at yields
  obtain ⟨us, script', parses, scanned, same⟩ := remakes.exists_reread yields
  obtain ⟨row', parses', within, agree⟩ := parses.unplaced_within (Row.within_terminated h.within) same
  obtain ⟨g, ok, h'⟩ := parse_of_parses scanned parses' within
  -- What is seen of a tree without the places of its tokens is seen of the statements.
  have seen {α : Type} {look : Bare → α} (unplaced : ∀ t : Bare, look t.unplaced = look t) :
      row'.overStatements look = row.overStatements look := by
    have kind : ∀ t : Bare, t.unplaced.node.tokenKind? = t.node.tokenKind? :=
      keepsLooks_unplaced.tokenKind?_translate id
    rw [← Row.overStatements_map kind unplaced, agree, Row.overStatements_map kind unplaced,
      Row.overStatements_terminated]
  refine ⟨g, ok, ?_, ?_⟩
  · rw [h.sound.coherent.formatted_eq h.bare, h'.sound.coherent.formatted_eq h'.bare]
    refine congrArg String.join (seen fun t => ?_)
    rw [t.render_unplaced]
  · rw [h.sound.coherent.outlineStatements_eq h.bare, h'.sound.coherent.outlineStatements_eq h'.bare]
    refine congrArg _ (seen fun t => ?_)
    rw [t.outline_unplaced]

/-- `SELECT` and `UPDATE` statements stand alone. -/
theorem standAlone_of_statements {vocabulary : Vocabulary}
    (ok : (Dialect.mk vocabulary (.standard limit)).parse source = .ok f)
    (statements : ∀ r ∈ f.statements, (f.kind r).isStatement = true) : f.StandAlone := by
  obtain ⟨script, row, h⟩ := exists_parsed ok
  have listed := h.sound.coherent.statements_row h.bare statements
  exact (h.sound.coherent.apart_iff h.bare).mp (listed.apart h.ends)

end Dialect

/-! ## The command -/

namespace Command

variable {files files' : Files} {source source' : SqlSource} {sql : String}

namespace Act

/-- A part that prints nothing where the steps are not shown. -/
def Quiet (a : Act Unit) : Prop := ∀ out, a ⟨false, out⟩ = .ok () ⟨false, out⟩

theorem quiet_debug (n : Notice) : Quiet (debug n) := fun _ => rfl

theorem quiet_forM_option {α : Type} {f : α → Act Unit} (quiet : ∀ a, Quiet (f a)) (a? : Option α) :
    Quiet (a?.forM f) :=
  match a? with
  | some a => quiet a
  | none => fun _ => rfl

theorem quiet_forM {α : Type} {f : α → Act Unit} (quiet : ∀ a, Quiet (f a)) (as : List α) : Quiet (as.forM f) := by
  intro out
  induction as with
  | nil => rfl
  | cons a as ih =>
    show EStateM.bind (f a) (fun _ => as.forM f) _ = _
    rw [EStateM.bind, quiet a out]
    exact ih

/-- Lines are printed one behind the other. -/
theorem forM_print {α : Type} (line : α → String) (as : List α) (console : Console) :
    (as.forM fun a => print (line a)) console =
      .ok () { console with output := console.output ++ String.join (as.map fun a => line a ++ "\n") } := by
  induction as generalizing console with
  | nil => simp [pure, EStateM.pure, List.forM]
  | cons a as ih =>
    show (as.forM fun a => print (line a)) { console with output := console.output ++ line a ++ "\n" } = _
    rw [ih, List.map_cons, String.join_cons, String.append_assoc, String.append_assoc]

end Act

/-- Where the steps are not shown a text is parsed without a word. -/
theorem parse_quiet (dialect : Dialect) (sql out : String) :
    parse dialect sql ⟨false, out⟩ =
      match dialect.parse sql with
      | .ok f => .ok f ⟨false, out⟩
      | .error e => .error (.error e) ⟨false, out⟩ := by
  have counted :=
    Act.quiet_forM_option (fun count => Act.quiet_debug (.tokenized count)) (dialect.trace sql).tokenCount out
  have told := Act.quiet_forM (fun event => Act.quiet_forM_option Act.quiet_debug (Notice.ofEvent? event))
    (dialect.trace sql).events out
  rw [parse]
  show EStateM.bind _ (fun _ => EStateM.bind _ fun _ => _) _ = _
  rw [EStateM.bind, counted]
  dsimp only
  rw [EStateM.bind, told]
  dsimp only
  rw [Dialect.parse]
  cases (dialect.trace sql).result <;> rfl

/-- What the command leaves behind where it formats a text. -/
theorem Invocation.run_format (reads : ∀ console, source.read files console = .ok sql console) :
    (Invocation.mk none false .format source).run files =
      match Dialect.standard.parse sql with
      | .ok f => ⟨0, f.formatted, ""⟩
      | .error e => ⟨1, "", (Failure.error e).text⟩ := by
  have parsed := parse_quiet Dialect.standard sql ""
  have act : (Invocation.mk none false .format source).act files ⟨false, ""⟩ =
      EStateM.bind (source.read files) (fun sql => EStateM.bind (parse Dialect.standard sql) fun f =>
        f.statements.forM fun statement => Act.print (f.render statement ++ ";")) ⟨false, ""⟩ := rfl
  rw [run, act, EStateM.bind, reads]
  dsimp only
  rw [EStateM.bind, parsed]
  cases Dialect.standard.parse sql with
  | error e => rfl
  | ok f =>
    dsimp only
    rw [Act.forM_print]
    dsimp only
    rw [String.empty_append, formatted]

namespace Invocation

end Invocation

end Command

end SqlFold
