import SqlFold.Proofs.Lines
import SqlFold.Proofs.Rows.Yields

/-!
# The words that a tree is rendered with

`Tree.wording` lists the tokens of the line that a tree is rendered as. The rules on operands, and the one
on conjunctions, keep the wording of a row, up to places: of the tokens that they drop each is a point, and
that is put back (`Row.RestsAll.wording`).
-/

namespace SqlFold

open Text

variable {α : Type}

/-- The tokens that a tree is rendered with. -/
def Tree.wording (t : Bare) : List Token := t.line.map Prod.snd

/-- The wording of trees in a row. -/
def Row.wording (row : Row) : List Token := row.flatMap Tree.wording

/-- Two lists of tokens that differ in places at most. -/
def Alike (ts us : List Token) : Prop := ts.map Token.unplaced = us.map Token.unplaced

namespace Alike

variable {ts us vs ws : List Token}

theorem rfl' : Alike ts ts := rfl

theorem symm (alike : Alike ts us) : Alike us ts := Eq.symm alike

theorem trans (alike : Alike ts us) (alike' : Alike us vs) : Alike ts vs := Eq.trans alike alike'

theorem append (alike : Alike ts us) (alike' : Alike vs ws) : Alike (ts ++ vs) (us ++ ws) := by
  rw [Alike, List.map_append, List.map_append, show ts.map _ = _ from alike, show vs.map _ = _ from alike']

end Alike

namespace Row

@[simp] theorem wording_nil : wording [] = [] := rfl

@[simp] theorem wording_cons (t : Bare) (row : Row) : wording (t :: row) = t.wording ++ wording row := rfl

@[simp] theorem wording_append (row row' : Row) : wording (row ++ row') = wording row ++ wording row' :=
  List.flatMap_append

end Row

namespace Tree

/-- The wording of a tree is that of its layer around those of its sub-trees. -/
theorem wording_mk (n : Node Bare) :
    (mk () n).wording = (Layout.pieces (n.layout Render.isGlued)).flatMap (Piece.read wording) := by
  rw [wording, line_mk, List.map_flatMap, Layout.pieces, List.flatMap_map]
  congr 1
  funext entry
  obtain ⟨space, p⟩ := entry
  cases p with
  | child c =>
    show (Line.lead space c.line).map Prod.snd = c.line.map Prod.snd
    cases c.line <;> rfl
  | token => rfl
  | name => rfl

@[simp] theorem wording_leaf (t : Token) : (mk () (.leaf t)).wording = [t] := rfl

@[simp] theorem wording_span (opening closing : Token) (content : Row) :
    (Row.span opening closing content).wording = opening :: content.wording ++ [closing] := by
  rw [Row.span, wording_mk]
  simp only [Node.layout, List.cons_append, Layout.pieces_cons, Layout.pieces_append, Layout.pieces_sequence,
    List.flatMap_cons, List.flatMap_append, Piece.flatMap_read_map_child, Layout.pieces_nil, Piece.read_token,
    List.flatMap_nil]
  rfl

/-- A table is rendered as the column that it was. -/
theorem wording_table (s : Option Token) (n : Token) :
    (mk () (.table ⟨s, n⟩) : Bare).wording = (mk () (.column ⟨none, s, n⟩) : Bare).wording := by
  cases s <;> rfl

end Tree

/-- Points between names are put back as they were. -/
theorem Dotted.alike {names : List Token} {ps : List (Piece α)} (dotted : Dotted names ps)
    (points : ∀ t, .token t ∈ ps → t.kind = .dot → t.lexeme = ".") (below : α → List Token) :
    Alike (ps.flatMap (Piece.read below)) (names.intersperse .point) := by
  induction dotted with
  | single => rfl
  | @cons name point names ps isPoint rest ih =>
    have later := ih fun t mem => points t (List.mem_cons_of_mem _ (List.mem_cons_of_mem _ mem))
    have text := points point (by simp) isPoint
    have put : Token.unplaced point = Token.unplaced .point := by
      rw [Token.unplaced, Token.unplaced, isPoint, text]
      rfl
    obtain ⟨u, more, rfl⟩ : ∃ u more, names = u :: more := by cases rest <;> exact ⟨_, _, rfl⟩
    rw [List.intersperse_cons_cons]
    simpa [Alike, put] using later

/-- The nodes that the rules on operands make, and conjunctions, are written as they are rendered. -/
theorem Node.Written.alike {n : Node α} {ps : List (Piece α)} (written : n.Written ps) (glued : α → Bool)
    (points : ∀ t, .token t ∈ ps → t.kind = .dot → t.lexeme = ".") (below : α → List Token)
    (made : n.kind ∈ [.call, .literal, .allColumns, .column, .membership, .operation, .conjunction]) :
    Alike (ps.flatMap (Piece.read below)) ((Layout.pieces (n.layout glued)).flatMap (Piece.read below)) := by
  cases written with
  | @column c ps names =>
    have alike := names.alike points below
    rcases c with ⟨_ | s, _ | u, v⟩ <;> simpa [layout, Layout.dotted] using alike
  | @allColumns a ps names =>
    have alike := names.alike points below
    rcases a with ⟨_ | s, _ | u, v⟩ <;> simpa [layout, Layout.dotted] using alike
  | literal l => rcases l with ⟨_ | s, v⟩ <;> rfl
  | operation o => simp [Alike, layout]
  | membership o => rcases o with ⟨l, _ | t, k, r⟩ <;> rfl
  | conjunction c =>
    rw [layout, Layout.pieces_juncts]
    rfl
  | call c => rfl
  | _ => simp [Node.kind] at made

namespace Row

variable {P : Token → Prop} {rule : Rule} {rules : List Rule} {row row' : Row}

/-- Every point in a row is written as one. -/
def Points (row : Row) : Prop := ∀ t ∈ row, ∀ u, t.node = .leaf u → u.kind = .dot → u.lexeme = "."

/-- What the pieces of a folded node were made from has the wording of the pieces. -/
theorem wording_of_matches {ps : List (Piece (Origin Bare))} {as : Row}
    (matched : Rule.MatchesAll Tree.node ps as) :
    as.wording = ps.flatMap (Piece.read (Tree.wording ∘ Origin.bare id)) := by
  induction matched with
  | nil => rfl
  | @cons p a ps as made _ ih =>
    rw [wording_cons, List.flatMap_cons, ih]
    congr 1
    obtain ⟨⟨⟩, n⟩ := a
    cases made with
    | leaf shown =>
      obtain rfl : n = _ := shown
      rfl
    | name shown =>
      obtain rfl : n = _ := shown
      rfl
    | sibling => rfl
    | table shown =>
      obtain rfl : n = _ := shown
      exact (Tree.wording_table _ _).symm

/-- A fold of one of these rules keeps the wording of a row, up to places. -/
theorem wording_fold {left right : Row} {here : Bare} {fold : Fold Bare}
    (answer : rule.apply Tree.node ⟨left, here, right⟩ = .ok (some fold))
    (listed : rule ∈ Rule.operandRules ++ [Rule.conjunction]) (points : Points (left.reverse ++ here :: right)) :
    Alike fold.row.wording (wording (left.reverse ++ here :: right)) := by
  obtain ⟨back, ahead, covers⟩ := Rule.apply_covers answer
  obtain ⟨ps, written, matched⟩ := covers.written
  have left_eq : left = back ++ fold.left := covers.left
  have right_eq : right = ahead ++ fold.right := covers.right
  have split : left.reverse ++ here :: right = fold.left.reverse ++ ((back.reverse ++ here :: ahead) ++ fold.right) := by
    rw [left_eq, right_eq]
    simp
  have made : fold.node.kind ∈ [NodeKind.call, .literal, .allColumns, .column, .membership, .operation, .conjunction] := by
    rw [Rule.apply_kind answer]
    revert listed
    cases rule <;> decide
  have pieces : ∀ t, .token t ∈ ps → t.kind = .dot → t.lexeme = "." := by
    intro t mem isPoint
    obtain ⟨a, taken, made⟩ := matched.exists_sibling mem
    cases made with
    | leaf shown =>
      refine points a ?_ t shown isPoint
      rw [split]
      exact List.mem_append_right _ (List.mem_append_left _ taken)
  have tree : Alike fold.tree.wording (wording (back.reverse ++ here :: ahead)) := by
    rw [wording_of_matches matched, Fold.tree, Tree.wording_mk, Node.layout_map]
    have alike := written.alike (Render.isGlued ∘ Origin.bare id) pieces (Tree.wording ∘ Origin.bare id) made
    refine Alike.trans ?_ alike.symm
    rw [Layout.map, Layout.pieces, Layout.pieces, List.map_map, List.flatMap_map, List.flatMap_map]
    refine congrArg (List.map Token.unplaced) (List.flatMap_congr fun p _ => ?_)
    obtain ⟨space, p⟩ := p
    cases p <;> rfl
  rw [Fold.row, split, wording_append, wording_append, wording_append, wording_cons]
  exact Alike.rfl'.append (tree.append .rfl')

/-- These rules keep the wording of a row, up to places. -/
theorem RestsAll.wording (rests : RestsAll rules row row') (listed : rules ⊆ Rule.operandRules ++ [Rule.conjunction])
    (points : Points row) : Alike row'.wording row.wording := by
  refine (rests.keeps (I := fun row' => Points row' ∧ Alike row'.wording row.wording)
    (fun rule mem left here right fold answer ⟨points, alike⟩ => ⟨Rule.forall_row answer points ?_, ?_⟩)
    ⟨points, .rfl'⟩).2
  · intro u leaf
    have kind := Rule.kind_tree_ne_leaf answer
    rw [Tree.kind, leaf] at kind
    exact absurd rfl kind
  · exact (wording_fold answer (listed mem) points).trans alike

end Row

end SqlFold
