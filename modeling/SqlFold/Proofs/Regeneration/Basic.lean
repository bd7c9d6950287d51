import SqlFold.Proofs.Regeneration.Layers
import SqlFold.Proofs.Regeneration.Spacing
import SqlFold.Proofs.Shapes

/-!
# Statements written and parsed again

Statements whose layers can be written, scanned and folded again are written as a text that is cut into their own
tokens, and these are parsed to the same statements (`Row.exists_reread`). Parsed statements are such, so what is
written for a parsed text is parsed to a tree that looks the same (`Dialect.parse_render`).
-/

namespace SqlFold

open Forest

/-! ## Tokens at other places -/

/-- Whether a token is found again does not depend on where it stood. -/
theorem Token.Standard.of_unplaced {t u : Token} (standard : t.Standard) (same : t.unplaced = u.unplaced) : u.Standard := by
  obtain ⟨kind, lexeme, place⟩ := t
  obtain ⟨kind', lexeme', place'⟩ := u
  obtain ⟨rfl, rfl, _⟩ := Token.mk.inj same
  exact ⟨standard.significant, standard.starts, standard.mark, standard.number, standard.again⟩

theorem Token.Standard.point {t : Token} (standard : t.Standard) (isPoint : t.kind = .dot) : t.lexeme = "." :=
  standard.mark "." (by rw [isPoint]; rfl)

theorem Token.Standard.lexeme_ne {t : Token} (standard : t.Standard) : t.lexeme ≠ "" := by
  obtain ⟨c, cs, split, _⟩ := standard.starts
  rintro empty
  rw [empty] at split
  cases split

namespace Row

theorem fits_alike {ts us : List Token} {previous previous' : Option Bare} (fits : Chained (Fits Token.Standard) previous (leaves ts))
    (alike : Alike ts us) (same : previous.any multiplies = previous'.any multiplies) :
    Chained (Fits Token.Standard) previous' (leaves us) := by
  induction ts generalizing us previous previous' with
  | nil =>
    rw [List.map_eq_nil_iff.mp alike.symm]
    trivial
  | cons t ts ih =>
    obtain ⟨u, us, rfl, here, later⟩ := List.map_eq_cons_iff.mp alike.symm
    obtain ⟨fit, fits⟩ := fits
    cases fit with
    | leaf standard star product =>
      have kind : u.kind = t.kind := show u.unplaced.kind = t.unplaced.kind from congrArg Token.kind here
      have lexeme : u.lexeme = t.lexeme := show u.unplaced.lexeme = t.unplaced.lexeme from congrArg Token.lexeme here
      rw [← kind, same] at star
      rw [← kind, ← lexeme, same] at product
      refine ⟨.leaf (standard.of_unplaced here.symm) star product, ih fits later.symm ?_⟩
      exact congrArg TokenKind.beforeProduct kind.symm

/-- What is cut into the tokens that a row is made of is parsed to the row. -/
theorem Remakes.exists_reread {ts : List Token} {row : Row} (remakes : Remakes Token.Standard ts row) {text : String}
    (yields : Line.Yields .start text.toList row.wording) :
    ∃ ts script, Parses (leaves ts) row ∧ Script.ofText? .standard text = .ok script ∧
      ts.map Token.unplaced = script.significant.map Token.unplaced := by
  obtain ⟨tokens, scanned, alike⟩ := yields
  refine ⟨ts, ⟨text, tokens⟩, remakes.parses, ?_, remakes.alike.trans alike.symm⟩
  rw [Script.ofText?, scanned]
  rfl

/-- Statements that can be written, scanned and folded again are parsed again from what is written for them. -/
theorem exists_reread {row : Row} (statements : Statements row) (ends : Chained Ends none row)
    (restores : ∀ t ∈ row, t.All (Node.Restores Token.Standard)) :
    ∃ ts script, Parses (leaves ts) row ∧ Script.ofText? .standard (Tree.mk () (.root row)).render = .ok script ∧
      ts.map Token.unplaced = script.significant.map Token.unplaced := by
  obtain ⟨ts, remakes⟩ := statements.remakes (fun _ => Token.Standard.point) ends restores
  have regular : ∀ t ∈ row, t.All Tree.Regular := fun t mem => (restores t mem).imp fun _ layer => layer.regular
  have whole : (Tree.mk () (.root row) : Bare).line.map Prod.snd = row.wording := by
    rw [← Tree.wording, Tree.wording_mk, Node.layout, Layout.pieces_sequence, Piece.flatMap_read_map_child, wording]
  have fits := fits_alike remakes.fits (whole ▸ remakes.alike) rfl
  have tidy : (Tree.mk () (.root row) : Bare).line.Tidy :=
    Tree.tidy_line_mk trivial trivial (by simpa using regular) (by simpa using fun t mem => Tree.tidy_line (regular t mem))
  have text := Tree.chars_line_root regular fun u mem => (Line.holds_of_fits fits u mem).lexeme_ne
  have yields := @Line.yields_chars _ .start none [] [] tidy fits rfl (fun _ _ => .inr fun _ => rfl) (by simp)
    fun cur' _ => Line.yields_nil cur'
  rw [List.append_nil, List.append_nil, text, whole] at yields
  exact remakes.exists_reread yields

end Row

/-! ## Stores -/

namespace Forest

variable {f g : Forest} {row row' : Row} (h : f.Coherent) (shown : f.bare Forest.root = .mk () (.root row))

include h shown

/-- The statements of a store stand in its row, with semicolons beside them. -/
theorem Coherent.statements_row (statements : ∀ r ∈ f.statements, (f.kind r).isStatement = true) : Row.Statements row := by
  obtain ⟨cs, node, rfl⟩ := h.node_root shown
  intro t mem
  obtain ⟨r, listed, rfl⟩ := List.mem_map.mp mem
  have token : (f.bare r).node.tokenKind? = (f.node r).tokenKind? := by
    rw [h.node_bare, Node.tokenKind?, Node.tokenKind?, Node.token?_map]
  by_cases semicolon : (f.node r).tokenKind? = some .semicolon
  · right
    rw [Rule.leafIs, token, semicolon]
    rfl
  · left
    have statement := statements r (List.mem_filter.mpr ⟨by rw [childList, node]; exact listed, by simpa using semicolon⟩)
    rwa [Tree.kind, h.node_bare, Node.kind_map]

/-- Stores whose trees agree but for the places of their tokens look the same. -/
theorem Coherent.alike (h' : g.Coherent) (shown' : g.bare Forest.root = .mk () (.root row'))
    (agree : row'.map Tree.unplaced = row.map Tree.unplaced) :
    (∃ p f' g', fingerprint Forest.root f = .ok p f' ∧ fingerprint Forest.root g = .ok p g') ∧
      g.outlineStatements = f.outlineStatements ∧ g.render Forest.root = f.render Forest.root := by
  have trees : (g.bare Forest.root).unplaced = (f.bare Forest.root).unplaced := by
    rw [shown, shown', Tree.unplaced_root, Tree.unplaced_root, agree]
  refine ⟨?_, ?_, ?_⟩
  · obtain ⟨p, f', answer, _, right⟩ := h.fingerprint_run Forest.root
    obtain ⟨p', g', answer', _, right'⟩ := h'.fingerprint_run Forest.root
    have looks (k : Forest) : (k.tree Forest.root).fingerprint = (k.bare Forest.root).unplaced.fingerprint := by
      rw [Tree.fingerprint_unplaced]
      exact (Tree.fingerprint_bare _).symm
    refine ⟨p, f', g', answer, ?_⟩
    rw [answer', right .root, right' .root, looks, looks, trees]
  · rw [h.outlineStatements_eq shown, h'.outlineStatements_eq shown',
      ← Row.outlines_recast (h := Token.unplaced) (fun _ => rfl) row, ← Row.outlines_recast (h := Token.unplaced) (fun _ => rfl) row']
    rw [Row.recast, Row.recast, show row'.map (Tree.recast Token.unplaced) = row.map (Tree.recast Token.unplaced) from agree]
  · have looks (k : Forest) : k.render Forest.root = (k.bare Forest.root).unplaced.render := by
      rw [Tree.unplaced, Tree.recast, keepsLooks_unplaced.render_translate, render_bare]
    rw [looks, looks, trees]

end Forest

namespace Dialect

variable {source : String} {f : Forest}

/-- What is written for a text of `SELECT` and `UPDATE` statements is parsed again, to a tree with the same
fingerprint, outline and text. -/
theorem parse_render (ok : Dialect.standard.parse source = .ok f)
    (statements : ∀ r ∈ f.statements, (f.kind r).isStatement = true) :
    ∃ g, Dialect.standard.parse (f.render root) = .ok g ∧
      (∃ p f' g', fingerprint root f = .ok p f' ∧ fingerprint root g = .ok p g') ∧
        g.outlineStatements = f.outlineStatements ∧ g.render root = f.render root := by
  obtain ⟨script, row, h⟩ := exists_parsed ok
  have coherent := h.sound.coherent
  have listed := coherent.statements_row h.bare statements
  obtain ⟨ts, script', parses, scanned, same⟩ := Row.exists_reread listed h.ends (h.restores listed)
  obtain ⟨row', parses', within, agree⟩ := parses.unplaced_within h.within same
  obtain ⟨g, ok', h'⟩ := parse_of_parses scanned parses' within
  refine ⟨g, ?_, coherent.alike h.bare h'.sound.coherent h'.bare agree⟩
  rw [← render_bare, h.bare]
  exact ok'

/-- What is written for `select 1 from t as u` has no `as`, and is parsed again. -/
theorem parse_render_alias : ∃ f, Dialect.standard.parse "select 1 from t as u" = .ok f ∧
    (∀ r ∈ f.statements, (f.kind r).isStatement = true) ∧ f.render root = "select 1 from t u" ∧
      ∃ g, Dialect.standard.parse (f.render root) = .ok g ∧
        (∃ p f' g', fingerprint root f = .ok p f' ∧ fingerprint root g = .ok p g') ∧
          g.outlineStatements = f.outlineStatements ∧ g.render root = f.render root := by
  have scanned : Script.ofText? .standard "select 1 from t as u" = .ok ⟨"select 1 from t as u",
      [⟨.selectKw, "select", ⟨0, 0⟩⟩, ⟨.whitespace, " ", ⟨0, 6⟩⟩, ⟨.numericLiteral, "1", ⟨0, 7⟩⟩,
        ⟨.whitespace, " ", ⟨0, 8⟩⟩, ⟨.fromKw, "from", ⟨0, 9⟩⟩, ⟨.whitespace, " ", ⟨0, 13⟩⟩,
        ⟨.symbol, "t", ⟨0, 14⟩⟩, ⟨.whitespace, " ", ⟨0, 15⟩⟩, ⟨.asKw, "as", ⟨0, 16⟩⟩, ⟨.whitespace, " ", ⟨0, 18⟩⟩,
        ⟨.symbol, "u", ⟨0, 19⟩⟩]⟩ := Script.ofText?_standard (by decide +kernel)
  have settled : Row.settle (.standard Folding.standardLimit) false 7 (Row.leaves
      [⟨.selectKw, "select", ⟨0, 0⟩⟩, ⟨.numericLiteral, "1", ⟨0, 7⟩⟩, ⟨.fromKw, "from", ⟨0, 9⟩⟩,
        ⟨.symbol, "t", ⟨0, 14⟩⟩, ⟨.asKw, "as", ⟨0, 16⟩⟩, ⟨.symbol, "u", ⟨0, 19⟩⟩]) =
      .ok () [.mk () (.select ⟨⟨.selectKw, "select", ⟨0, 0⟩⟩, none,
        [⟨.mk () (.literal ⟨none, ⟨.numericLiteral, "1", ⟨0, 7⟩⟩⟩), none⟩],
        some (.mk () (.fromClause ⟨⟨.fromKw, "from", ⟨0, 9⟩⟩, .mk () (.table ⟨none, ⟨.symbol, "t", ⟨0, 14⟩⟩⟩),
          some ⟨.symbol, "u", ⟨0, 19⟩⟩⟩)), [], none, none, none, none⟩)] := by
    cbv
  obtain ⟨f, ok, h⟩ := parse_of_settle scanned settled
  obtain ⟨r, listed, bare⟩ := List.map_eq_singleton_iff.mp h.children_root
  have statements : ∀ s ∈ f.statements, (f.kind s).isStatement = true := by
    intro s mem
    have child := mem_children_of_mem_childList (List.mem_filter.mp mem).1
    rw [listed, List.mem_singleton] at child
    rw [child, kind, ← Node.kind_map f.bare, ← h.sound.coherent.node_bare, bare]
    rfl
  refine ⟨f, ok, statements, ?_, parse_render ok statements⟩
  rw [← render_bare, h.bare]
  decide +kernel

end Dialect

end SqlFold
