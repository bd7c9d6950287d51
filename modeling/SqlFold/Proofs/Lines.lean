import SqlFold.Proofs.Nesting

/-!
# Trees as lines of tokens

`Tree.render` writes a tree with the tokens that it keeps, and with points, commas and `AS` where they
belong. `Node.layout` lists these pieces of a layer in source order and says which of them have a space
before them, `Tree.line` does so for a whole tree. The text of a tree is that of its line
(`Tree.render_eq_chars`).
-/

namespace SqlFold

open Text

variable {ι α β : Type}

/-! ## The tokens that are put back -/

namespace Token

/-- The point between names. -/
def point : Token := ⟨.dot, ".", .start⟩

/-- The comma between the items of a list. -/
def comma : Token := ⟨.comma, ",", .start⟩

/-- The word before an alias. -/
def aliasWord : Token := ⟨.asKw, "AS", .start⟩

end Token

namespace Layout

/-- Pieces of a layer, with a space before those that are marked. -/
abbrev Spaced (α : Type) : Type := List (Bool × Piece α)

/-- Tokens without spaces. -/
def tight (ts : List Token) : Spaced α := ts.map fun t => (false, .token t)

/-- Tokens with a space before each. -/
def loose (ts : List Token) : Spaced α := ts.map fun t => (true, .token t)

/-- Names joined by points. -/
def dotted (qualifiers : List (Option Token)) (name : Token) : Spaced α :=
  tight ((qualifiers.filterMap id ++ [name]).intersperse .point)

/-- The entries of a list, with a comma after each but the last. -/
def listed : List (Spaced α) → Spaced α
  | [] => []
  | [entry] => entry
  | entry :: entries => entry ++ (false, .token .comma) :: listed entries

theorem listed_cons_cons (entry entry' : Spaced α) (entries : List (Spaced α)) :
    listed (entry :: entry' :: entries) = entry ++ (false, .token .comma) :: listed (entry' :: entries) := rfl

/-- A name that follows its source. -/
def labelled (name : Option Token) : Spaced α := name.toList.map fun t => (true, .name t)

/-- The children of a branch, the first without a space before it. -/
def sequence (glued : α → Bool) : List α → Spaced α
  | [] => []
  | c :: cs => (false, .child c) :: cs.map fun c => (!glued c, .child c)

/-- A keyword and its expression. -/
def restriction (c : Restriction α) : Spaced α := [(false, .token c.keyword), (true, .child c.expression)]

/-- An operand with the word before it. -/
def junct (j : Junct α) : Spaced α :=
  match j.operator with
  | none => [(false, .child j.expression)]
  | some t => [(true, .token t), (true, .child j.expression)]

/-- An entry of a select list. -/
def projection (i : Projection α) : Spaced α :=
  (true, .child i.expression) :: i.aliasName.toList.flatMap fun t => [(true, .token .aliasWord), (true, .name t)]

/-- Words, the first without a space before it. -/
def words : List Token → Spaced α
  | [] => []
  | t :: ts => (false, .token t) :: loose ts

/-- Parts with a space before each. -/
def clauses (cs : List α) : Spaced α := cs.map fun c => (true, .child c)

end Layout

open Layout in
/-- The pieces of a layer as it is rendered. -/
def Node.layout (glued : α → Bool) : Node α → Layout.Spaced α
  | .leaf t => tight [t]
  | .column c => dotted [c.schema, c.table] c.column
  | .literal l => tight (l.sign.toList ++ [l.value])
  | .operation o => (false, .child o.left) :: loose o.operator ++ [(true, .child o.right)]
  | .membership o =>
    (false, .child o.left) :: loose (o.negation.toList ++ [o.keyword]) ++ [(true, .child o.list)]
  | .conjunction c => c.parts.flatMap junct
  | .bracket p => (false, .token p.opening) :: sequence glued p.children ++ [(false, .token p.closing)]
  | .call c => [(false, .token c.name), (false, .child c.arguments)]
  | .allColumns a => dotted [a.schema, a.table] a.star
  | .table t => dotted [t.schema] t.name
  | .fromClause c => [(false, .token c.keyword), (true, .child c.source)] ++ labelled c.aliasName
  | .join j =>
    words j.keywords ++ (true, .child j.source) :: labelled j.aliasName
      ++ (j.condition.toList.flatMap fun c => [(true, .token c.keyword), (true, .child c.expression)])
  | .whereClause c => restriction c
  | .havingClause c => restriction c
  | .groupBy g => words [g.group, g.byKeyword] ++ listed (g.expressions.map fun e => [(true, .child e)])
  | .orderBy o =>
    words [o.order, o.byKeyword]
      ++ listed (o.items.map fun i => (true, .child i.expression) :: loose i.direction.toList)
  | .select s =>
    words (s.keyword :: s.distinct.toList) ++ listed (s.items.map projection)
      ++ clauses (s.source.toList ++ s.joins ++ s.filter.toList ++ s.grouping.toList ++ s.having.toList
        ++ s.ordering.toList)
  | .update u =>
    [(false, .token u.keyword), (true, .child u.table)] ++ labelled u.aliasName ++ clauses u.joins
      ++ (true, .token u.setKeyword) :: listed (u.assignments.map fun e => [(true, .child e)])
      ++ clauses (u.filter.toList ++ u.ordering.toList)
  | .root children => sequence glued children

/-! ## Lines -/

/-- Tokens, with a space before those that are marked. -/
abbrev Line : Type := List (Bool × Token)

namespace Line

/-- The space before a token that is marked. -/
def gap (space : Bool) : List Char := if space then [' '] else []

/-- The characters of a line. -/
def chars (line : Line) : List Char := line.flatMap fun (space, t) => gap space ++ t.lexeme.toList

/-- The line with a space before it or not. -/
def lead (space : Bool) : Line → Line
  | [] => []
  | (_, t) :: rest => (space, t) :: rest

/-- The line of a piece, where `below` gives that of its sub-node. -/
def ofPiece (below : α → Line) : Bool × Piece α → Line
  | (space, .token t) => [(space, t)]
  | (space, .name t) => [(space, t)]
  | (space, .child c) => lead space (below c)

@[simp] theorem chars_nil : chars [] = [] := rfl

@[simp] theorem chars_cons (space : Bool) (t : Token) (line : Line) :
    chars ((space, t) :: line) = gap space ++ t.lexeme.toList ++ chars line := rfl

@[simp] theorem chars_append (line line' : Line) : chars (line ++ line') = chars line ++ chars line' :=
  List.flatMap_append

end Line

/-- The line that a tree is rendered as. -/
def Tree.line : Tree ι → Line :=
  fold fun _ n => (n.layout fun c => Render.isGlued c.1).flatMap (Line.ofPiece Prod.snd)

/-! ## Changing the sub-nodes -/

namespace Layout

/-- Changes the sub-nodes of pieces. -/
def map (f : α → β) (ps : Spaced α) : Spaced β := ps.map fun p => (p.1, p.2.map f)

variable (f : α → β)

@[simp] theorem map_append (ps qs : Spaced α) : map f (ps ++ qs) = map f ps ++ map f qs := List.map_append

@[simp] theorem map_cons (p : Bool × Piece α) (ps : Spaced α) : map f (p :: ps) = (p.1, p.2.map f) :: map f ps := rfl

@[simp] theorem map_nil : map f [] = [] := rfl

@[simp] theorem map_tight (ts : List Token) : map f (tight ts) = tight ts := by
  simp [map, tight, Piece.map]

@[simp] theorem map_loose (ts : List Token) : map f (loose ts) = loose ts := by
  simp [map, loose, Piece.map]

@[simp] theorem map_words (ts : List Token) : map f (words ts) = words ts := by
  cases ts with
  | nil => rfl
  | cons => simp [words, Piece.map]

@[simp] theorem map_labelled (name : Option Token) : map f (labelled name) = labelled name := by
  cases name <;> rfl

@[simp] theorem map_clauses (cs : List α) : map f (clauses cs) = clauses (cs.map f) := by
  simp [map, clauses, Piece.map]

@[simp] theorem map_dotted (qualifiers : List (Option Token)) (name : Token) :
    map f (dotted qualifiers name) = dotted qualifiers name := map_tight f _

@[simp] theorem map_sequence (glued : β → Bool) (cs : List α) :
    map f (sequence (fun c => glued (f c)) cs) = sequence glued (cs.map f) := by
  cases cs with
  | nil => rfl
  | cons => simp [sequence, map, Piece.map]

@[simp] theorem map_listed (entries : List (Spaced α)) : map f (listed entries) = listed (entries.map (map f)) := by
  induction entries with
  | nil => rfl
  | cons entry entries ih =>
    cases entries with
    | nil => rfl
    | cons => simp [listed, Piece.map, ih]

end Layout

/-- The layout of a layer with other sub-nodes. -/
theorem Node.layout_map (f : α → β) (glued : β → Bool) (n : Node α) :
    (n.map f).layout glued = Layout.map f (n.layout (glued ∘ f)) := by
  cases n with
  | conjunction c =>
    have junct (j : Junct α) : Layout.junct (j.map f) = Layout.map f (Layout.junct j) := by
      rcases j with ⟨_ | t, e⟩ <;> rfl
    have parts (js : List (Junct α)) : (js.map (Junct.map f)).flatMap Layout.junct =
        Layout.map f (js.flatMap Layout.junct) := by
      induction js with
      | nil => rfl
      | cons j js ih => simp [ih, junct]
    exact parts c.parts
  | join j =>
    rcases j with ⟨ks, s, a, _ | c⟩ <;> simp [layout, map, Restriction.map, Piece.map]
  | select s =>
    have projection (i : Projection α) : Layout.projection (i.map f) = Layout.map f (Layout.projection i) := by
      rcases i with ⟨e, _ | t⟩ <;> rfl
    simp [layout, map, projection, Option.toList_map, Function.comp_def]
  | _ => simp [layout, map, Layout.restriction, Restriction.map, SortKey.map, Piece.map, Option.toList_map, Function.comp_def]

namespace Tree

/-- The line of a tree is that of its layer around those of its sub-trees. -/
theorem line_mk (tag : ι) (n : Node (Tree ι)) :
    (mk tag n).line = (n.layout Render.isGlued).flatMap (Line.ofPiece line) := by
  rw [line, fold_mk, Node.layout_map, ← line]
  simp only [Layout.map, List.flatMap_map]
  congr 1
  funext ⟨space, p⟩
  cases p <;> rfl

end Tree

/-! ## The text of a line -/

namespace Layout

variable (below : α → String)

/-- The characters of a piece, where `below` gives the text of its sub-node. -/
def pieceChars : Piece α → List Char
  | .token t => t.lexeme.toList
  | .name t => t.lexeme.toList
  | .child c => (below c).toList

/-- The characters of pieces. -/
def chars (ps : Spaced α) : List Char := ps.flatMap fun p => Line.gap p.1 ++ pieceChars below p.2

@[simp] theorem chars_nil : chars below [] = [] := rfl

@[simp] theorem chars_cons (space : Bool) (p : Piece α) (ps : Spaced α) :
    chars below ((space, p) :: ps) = Line.gap space ++ pieceChars below p ++ chars below ps := rfl

@[simp] theorem chars_append (ps qs : Spaced α) : chars below (ps ++ qs) = chars below ps ++ chars below qs :=
  List.flatMap_append

@[simp] theorem chars_tight (ts : List Token) : chars below (tight ts) = ts.flatMap fun t => t.lexeme.toList := by
  induction ts with
  | nil => rfl
  | cons t ts ih => simpa [tight, Line.gap, pieceChars] using ih

@[simp] theorem chars_loose (ts : List Token) :
    chars below (loose ts) = ts.flatMap fun t => ' ' :: t.lexeme.toList := by
  induction ts with
  | nil => rfl
  | cons t ts ih => simpa [loose, Line.gap, pieceChars] using ih

@[simp] theorem chars_clauses (cs : List α) : chars below (clauses cs) = cs.flatMap fun c => ' ' :: (below c).toList := by
  induction cs with
  | nil => rfl
  | cons c cs ih => simpa [clauses, Line.gap, pieceChars] using ih

@[simp] theorem chars_labelled (name : Option Token) :
    chars below (labelled name) = name.toList.flatMap fun t => ' ' :: t.lexeme.toList := by
  cases name <;> simp [labelled, Line.gap, pieceChars]

@[simp] theorem spaced_nil : Render.spaced [] = "" := rfl

theorem toList_spaced (text : String) (texts : List String) :
    (Render.spaced (text :: texts)).toList = text.toList ++ texts.flatMap fun s => ' ' :: s.toList := by
  rw [Render.spaced, String.toList_intercalate]
  induction texts generalizing text with
  | nil => simp [List.intercalate]
  | cons s texts ih =>
    have := ih s
    simp only [List.map_cons, List.intercalate] at this ⊢
    rw [List.intersperse_cons_cons, List.flatten_cons, List.flatten_cons, this]
    rfl

theorem toList_dotted (qualifiers : List (Option Token)) (name : Token) :
    (Render.dotted qualifiers name).toList = chars below (dotted qualifiers name) := by
  rw [Render.dotted, dotted, chars_tight, String.toList_intercalate]
  generalize qualifiers.filterMap id ++ [name] = names
  induction names with
  | nil => rfl
  | cons t names ih =>
    cases names with
    | nil => simp [List.intercalate]
    | cons u names =>
      simp only [List.map_cons, List.intercalate] at ih ⊢
      rw [List.intersperse_cons_cons, List.intersperse_cons_cons, List.flatten_cons, List.flatten_cons, ih]
      rfl

theorem chars_listed {items : List β} (entry : β → Spaced α) (item : β → String)
    (each : ∀ b, chars below (entry b) = ' ' :: (item b).toList) (some : items ≠ []) :
    chars below (listed (items.map entry)) = ' ' :: (Render.listed (items.map item)).toList := by
  rw [Render.listed, String.toList_intercalate]
  induction items with
  | nil => exact absurd rfl some
  | cons b items ih =>
    cases items with
    | nil => simp [List.intercalate, listed, each]
    | cons c items =>
      have later := ih (by simp)
      simp only [List.map_cons, List.intercalate, listed, chars_append, chars_cons] at later ⊢
      rw [later, List.intersperse_cons_cons, List.flatten_cons, List.flatten_cons, each]
      rfl

theorem toList_sequenceAfter {written : String} (start : written ≠ "") (cs : List (Tree ι)) :
    (Render.sequenceAfter written (cs.map fun t => (t, t.render))).toList =
      written.toList ++ chars Tree.render (cs.map fun c => (!Render.isGlued c, .child c)) := by
  induction cs generalizing written with
  | nil => simp [Render.sequenceAfter]
  | cons c cs ih =>
    have empty : written.isEmpty = false := by simpa using start
    rw [List.map_cons, Render.sequenceAfter, ih (by
      intro none
      refine start ?_
      have lists := congrArg String.toList none
      simp only [String.toList_append, String.toList_empty, List.append_eq_nil_iff] at lists
      exact String.toList_eq_nil_iff.mp lists.1.1)]
    rw [String.toList_append, String.toList_append, empty, Bool.false_or, List.map_cons, chars_cons]
    cases Render.isGlued c <;> simp [Line.gap, pieceChars]

theorem toList_sequence {cs : List (Tree ι)} (some : ∀ c ∈ cs, c.render ≠ "") :
    (Render.sequence (cs.map fun t => (t, t.render))).toList =
      chars Tree.render (sequence Render.isGlued cs) := by
  cases cs with
  | nil => rfl
  | cons c cs =>
    have gap : "".isEmpty = true := rfl
    rw [List.map_cons, Render.sequence, Render.sequenceAfter, gap, Bool.true_or, if_pos rfl, toList_sequenceAfter]
    · simp [sequence, Line.gap, pieceChars]
    · simpa using some c List.mem_cons_self

end Layout

open Layout in
/-- A layer is rendered as its layout, if there are no conjunctions right within conjunctions, no list is
empty and what stands between brackets has a text. -/
theorem Render.layer_eq_chars {n : Node (Tree ι)} {glance : Tree ι → Glance} (slots : n.Slots glance)
    (nests : n.Nests Tree.kind) (some : ∀ cs, n.branch? = some cs → ∀ c ∈ cs, c.render ≠ "") :
    (Render.layer (n.map fun t => (t, t.render))).toList = chars Tree.render (n.layout Render.isGlued) := by
  cases n with
  | leaf t => simp [Node.map, Render.layer, Node.layout]
  | column c => exact toList_dotted _ _ _
  | literal l =>
    rcases l with ⟨_ | s, v⟩ <;> simp [Node.map, Render.layer, Node.layout]
  | operation o =>
    obtain ⟨_, _, shape⟩ := slots
    rcases o with ⟨l, ts, r⟩
    cases shape <;> simp [Node.map, Render.layer, Node.layout, toList_spaced, pieceChars, Line.gap]
  | membership o =>
    rcases o with ⟨l, _ | t, k, r⟩ <;>
      simp [Node.map, Render.layer, Node.layout, toList_spaced, pieceChars, Line.gap, Render.optional]
  | conjunction c =>
    have junct (j : Junct (Tree ι)) (flat : j.expression.kind ≠ .conjunction) :
        (Render.junct (j.map fun t => (t, t.render))).toList = chars Tree.render (Layout.junct j) := by
      rcases j with ⟨_ | t, e⟩
      · simp [Render.junct, Junct.map, Layout.junct, pieceChars, Line.gap, show e.kind ≠ .conjunction from flat]
      · simp [Render.junct, Junct.map, Layout.junct, pieceChars, Line.gap, show e.kind ≠ .conjunction from flat]
    have juncts (js : List (Junct (Tree ι))) (flat : ∀ j ∈ js, j.expression.kind ≠ .conjunction) :
        (String.join ((js.map (Junct.map fun t => (t, t.render))).map Render.junct)).toList =
          chars Tree.render (js.flatMap Layout.junct) := by
      induction js with
      | nil => rfl
      | cons j js ih =>
        obtain ⟨here, others⟩ := List.forall_mem_cons.mp flat
        simp only [List.map_cons, String.join_cons, String.toList_append, List.flatMap_cons, chars_append,
          junct j here, ih others]
    exact juncts c.parts nests
  | bracket p =>
    simp [Node.map, Render.layer, Node.layout, pieceChars, Line.gap, toList_sequence (some _ rfl)]
  | call c => simp [Node.map, Render.layer, Node.layout, pieceChars, Line.gap]
  | allColumns a => exact toList_dotted _ _ _
  | table t => exact toList_dotted _ _ _
  | fromClause c =>
    rcases c with ⟨k, s, _ | a⟩ <;>
      simp [Node.map, Render.layer, Node.layout, toList_spaced, pieceChars, Line.gap, Render.optional,
        Render.labelled, Layout.labelled]
  | join j =>
    rcases j with ⟨_ | ⟨k, ks⟩, s, _ | a, _ | c⟩ <;>
      simp [Node.map, Render.layer, Node.layout, toList_spaced, pieceChars, Line.gap, Render.optional,
        Render.labelled, Layout.labelled, Render.restriction, Restriction.map, words, List.flatMap_map]
  | whereClause c =>
    simp [Node.map, Render.layer, Node.layout, toList_spaced, pieceChars, Line.gap, Render.restriction,
      Restriction.map, Layout.restriction]
  | havingClause c =>
    simp [Node.map, Render.layer, Node.layout, toList_spaced, pieceChars, Line.gap, Render.restriction,
      Restriction.map, Layout.restriction]
  | groupBy g =>
    have list := chars_listed Tree.render (fun e => [(true, .child e)]) Tree.render
      (by simp [pieceChars, Line.gap]) nests
    simp [Node.map, Render.layer, Node.layout, toList_spaced, pieceChars, Line.gap, words, list, Function.comp_def]
  | orderBy o =>
    have list := chars_listed Tree.render (fun i => (true, .child i.expression) :: loose i.direction.toList)
      (fun i => Render.labelled i.expression.render i.direction)
      (fun i => by rcases i with ⟨e, _ | d⟩ <;> simp [pieceChars, Line.gap, Render.labelled, toList_spaced, Render.optional]) nests
    simp [Node.map, Render.layer, Node.layout, toList_spaced, pieceChars, Line.gap, words, list, Function.comp_def, SortKey.map]
  | select s =>
    have list := chars_listed Tree.render Layout.projection
      (fun i : Projection (Tree ι) => Render.projection (i.map fun t => (t, t.render)))
      (fun i => by
        rcases i with ⟨e, _ | a⟩ <;> simp [Layout.projection, Render.projection, Projection.map, pieceChars, Line.gap,
          Token.aliasWord]) nests
    simp [Node.map, Render.layer, Node.layout, toList_spaced, pieceChars, Line.gap, words, list, Function.comp_def,
      Option.toList_map, List.flatMap_map, Render.optional]
  | update u =>
    have list := chars_listed Tree.render (fun e => [(true, .child e)]) Tree.render
      (by simp [pieceChars, Line.gap]) nests
    simp [Node.map, Render.layer, Node.layout, toList_spaced, pieceChars, Line.gap, list, Function.comp_def,
      Option.toList_map, List.flatMap_map, Render.optional, Render.labelled]
  | root cs => simp [Node.map, Render.layer, Node.layout, toList_sequence (some _ rfl)]

/-- A layer starts without a space. -/
theorem Node.layout_head {n : Node α} {glance : α → Glance} (glued : α → Bool) (slots : n.Slots glance)
    (noRoot : n.kind ≠ .root) : ∃ p rest, n.layout glued = (false, p) :: rest := by
  have dotted (qualifiers : List (Option Token)) (name : Token) :
      ∃ p rest, (Layout.dotted qualifiers name : Layout.Spaced α) = (false, p) :: rest := by
    unfold Layout.dotted
    cases qualifiers.filterMap id with
    | nil => exact ⟨_, _, rfl⟩
    | cons t names =>
      cases names <;> exact ⟨_, _, rfl⟩
  cases n with
  | column c => exact dotted _ _
  | literal l => rcases l with ⟨_ | s, v⟩ <;> exact ⟨_, _, rfl⟩
  | conjunction c =>
    rcases c with ⟨⟨_ | t, e⟩, second, rest⟩
    · exact ⟨_, _, rfl⟩
    · exact absurd slots.2.1 nofun
  | allColumns a => exact dotted _ _
  | table t => exact dotted _ _
  | join j =>
    obtain ⟨⟨modifiers, word, keywords, _⟩, _⟩ := slots
    rcases j with ⟨ks, s, a, c⟩
    obtain rfl : ks = modifiers ++ [word] := keywords
    cases modifiers <;> exact ⟨_, _, rfl⟩
  | root => exact absurd rfl noRoot
  | _ => exact ⟨_, _, rfl⟩

/-! ## Layouts are spellings -/

namespace Layout

/-- The pieces without the spaces. -/
def pieces (ps : Spaced α) : List (Piece α) := ps.map Prod.snd

@[simp] theorem pieces_nil : pieces ([] : Spaced α) = [] := rfl

@[simp] theorem pieces_cons (p : Bool × Piece α) (ps : Spaced α) : pieces (p :: ps) = p.2 :: pieces ps := rfl

@[simp] theorem pieces_append (ps qs : Spaced α) : pieces (ps ++ qs) = pieces ps ++ pieces qs := List.map_append

@[simp] theorem pieces_tight (ts : List Token) : pieces (tight ts : Spaced α) = ts.map .token := by
  simp [pieces, tight]

@[simp] theorem pieces_loose (ts : List Token) : pieces (loose ts : Spaced α) = ts.map .token := by
  simp [pieces, loose]

@[simp] theorem pieces_words (ts : List Token) : pieces (words ts : Spaced α) = ts.map .token := by
  cases ts <;> simp [words]

@[simp] theorem pieces_clauses (cs : List α) : pieces (clauses cs) = cs.map .child := by
  simp [pieces, clauses]

@[simp] theorem pieces_sequence (glued : α → Bool) (cs : List α) : pieces (sequence glued cs) = cs.map .child := by
  cases cs <;> simp [sequence, pieces]

theorem pieces_juncts (js : List (Junct α)) : pieces (js.flatMap junct) =
    js.flatMap fun j => Piece.ofToken? j.operator ++ [Piece.child j.expression] := by
  induction js with
  | nil => rfl
  | cons j js ih =>
    rcases j with ⟨_ | t, e⟩ <;> simp [junct, ih, Piece.ofToken?]

theorem aliased_labelled (name : Option Token) : Aliased false name (pieces (labelled name : Spaced α)) := by
  cases name with
  | none => exact .none
  | some t => exact .bare rfl

theorem dotted_pieces (qualifiers : List (Option Token)) (name : Token) :
    Dotted (qualifiers.filterMap id ++ [name]) (pieces (dotted qualifiers name : Spaced α)) := by
  rw [dotted, pieces_tight]
  generalize qualifiers.filterMap id = names
  induction names with
  | nil => exact .single name
  | cons t names ih =>
    have some : ∃ u rest, names ++ [name] = u :: rest := by cases names <;> exact ⟨_, _, rfl⟩
    obtain ⟨u, rest, eq⟩ := some
    rw [List.cons_append, eq, List.intersperse_cons_cons, ← eq, List.map_cons, List.map_cons]
    exact .cons rfl ih

theorem listed_pieces {items : List β} {entry : β → List (Piece α) → Prop} (layout : β → Spaced α)
    (each : ∀ b, entry b (pieces (layout b))) (some : items ≠ []) :
    Listed entry items (pieces (listed (items.map layout))) := by
  induction items with
  | nil => exact absurd rfl some
  | cons b items ih =>
    cases items with
    | nil => exact .single (each b)
    | cons c items =>
      simp only [List.map_cons, listed, pieces_append, pieces_cons] at ih ⊢
      exact .cons (each b) rfl (ih (by simp))

end Layout

open Layout in
/-- A layer is written as its layout says, if no list is empty. -/
theorem Node.layout_written {n : Node α} {kindOf : α → NodeKind} (glued : α → Bool) (nests : n.Nests kindOf) :
    n.Written (pieces (n.layout glued)) := by
  cases n with
  | leaf t => exact .leaf t
  | column c =>
    refine .column ?_
    have names := dotted_pieces (α := α) [c.schema, c.table] c.column
    rcases c with ⟨_ | s, _ | u, v⟩ <;> exact names
  | literal l =>
    rcases l with ⟨_ | s, v⟩ <;> exact .literal _
  | operation o => simpa [layout] using Written.operation o
  | membership o =>
    rcases o with ⟨l, _ | t, k, r⟩ <;> exact .membership _
  | conjunction c =>
    rw [layout, pieces_juncts]
    exact .conjunction c
  | bracket p => simpa [layout] using Written.bracket p
  | call c => exact .call c
  | allColumns a =>
    refine .allColumns ?_
    have names := dotted_pieces (α := α) [a.schema, a.table] a.star
    rcases a with ⟨_ | s, _ | u, v⟩ <;> exact names
  | table t =>
    refine .table ?_
    have names := dotted_pieces (α := α) [t.schema] t.name
    rcases t with ⟨_ | s, v⟩ <;> exact names
  | fromClause c => simpa [layout] using Written.fromClause (c := c) (aliased_labelled c.aliasName)
  | join j =>
    have written := Written.join (j := j) (aliased_labelled j.aliasName)
    rcases j with ⟨ks, s, a, _ | c⟩ <;> simpa [layout, Restriction.pieces] using written
  | whereClause c => exact .whereClause c
  | havingClause c => exact .havingClause c
  | groupBy g =>
    have list : Listed (fun e qs => qs = [.child e]) g.expressions (pieces (listed (g.expressions.map fun e => [(true, .child e)]))) :=
      listed_pieces _ (fun _ => rfl) nests
    simpa [layout] using Written.groupBy list
  | orderBy o =>
    have list : Listed (fun i qs => qs = .child i.expression :: Piece.ofToken? i.direction) o.items
        (pieces (listed (o.items.map fun i => (true, .child i.expression) :: loose i.direction.toList))) :=
      listed_pieces _ (fun i => by simp [Piece.ofToken?]) nests
    simpa [layout] using Written.orderBy list
  | select s =>
    have list : Listed Projected s.items (pieces (listed (s.items.map projection))) := by
      refine listed_pieces _ (fun i => ?_) nests
      rcases i with ⟨e, _ | t⟩
      · exact .mk .none
      · exact .mk (.worded rfl)
    simpa [layout, Piece.ofToken?, Piece.ofChild?] using Written.select list
  | update u =>
    have list : Listed (fun e qs => qs = [.child e]) u.assignments (pieces (listed (u.assignments.map fun e => [(true, .child e)]))) :=
      listed_pieces _ (fun _ => rfl) nests
    simpa [layout, Piece.ofChild?] using Written.update (aliased_labelled u.aliasName) list
  | root cs => simpa [layout] using Written.root cs

/-- The sub-nodes of a layer are those of its layout. -/
theorem Node.mem_children_iff_layout {n : Node α} {kindOf : α → NodeKind} (glued : α → Bool) (nests : n.Nests kindOf)
    {c : α} : c ∈ n.children ↔ ∃ space, (space, .child c) ∈ n.layout glued := by
  rw [← (n.layout_written glued nests).children, Piece.children, Layout.pieces, List.filterMap_map, List.mem_filterMap]
  constructor
  · rintro ⟨⟨space, p⟩, mem, isChild⟩
    cases p with
    | child d =>
      cases isChild
      exact ⟨space, mem⟩
    | token => cases isChild
    | name => cases isChild
  · rintro ⟨space, mem⟩
    exact ⟨_, mem, rfl⟩

/-! ## Trees -/

namespace Tree

/-- What makes a layer be rendered as its layout. -/
def Regular (n : Node Bare) : Prop := n.kind ≠ .root ∧ n.Slots (Rule.glance node) ∧ n.Nests kind

/-- A tree starts without a space. -/
theorem line_head {t : Bare} (regular : t.All Regular) : ∃ u rest, t.line = (false, u) :: rest := by
  induction regular with
  | @mk n here _ ih =>
    obtain ⟨noRoot, slots, nests⟩ := here
    obtain ⟨p, rest, eq⟩ := Node.layout_head Render.isGlued slots noRoot
    rw [line_mk, eq, List.flatMap_cons]
    cases p with
    | child c =>
      have listed : c ∈ n.children := (n.mem_children_iff_layout Render.isGlued nests).mpr ⟨false, by simp [eq]⟩
      obtain ⟨u, more, head⟩ := ih c listed
      rw [Line.ofPiece, head]
      exact ⟨u, _, rfl⟩
    | token t => exact ⟨t, _, rfl⟩
    | name t => exact ⟨t, _, rfl⟩

/-- The tokens of the sub-trees stand in the line of a tree. -/
theorem mem_line {n : Node Bare} (nests : n.Nests kind) {c : Bare} (listed : c ∈ n.children) {u : Token}
    (mem : u ∈ c.line.map Prod.snd) : u ∈ (mk () n).line.map Prod.snd := by
  obtain ⟨space, placed⟩ := (n.mem_children_iff_layout Render.isGlued nests).mp listed
  rw [line_mk, List.map_flatMap, List.mem_flatMap]
  refine ⟨_, placed, ?_⟩
  cases line : c.line with
  | nil => rw [line] at mem; cases mem
  | cons q rest =>
    rw [line] at mem
    simpa [Line.ofPiece, line, Line.lead] using mem

/-- A layer is rendered as its line, if every token has a text and the sub-trees are rendered so. -/
theorem chars_line_mk {n : Node Bare} (slots : n.Slots (Rule.glance node)) (nests : n.Nests kind)
    (below : ∀ c ∈ n.children, c.All Regular) (texts : ∀ u ∈ (mk () n).line.map Prod.snd, u.lexeme ≠ "")
    (subs : ∀ c ∈ n.children, c.line.chars = c.render.toList) : (mk () n).line.chars = (mk () n).render.toList := by
  have some : ∀ c ∈ n.children, c.render ≠ "" := by
    intro c listed none
    obtain ⟨u, rest, head⟩ := line_head (below c listed)
    have same := subs c listed
    rw [head, none, Line.chars_cons] at same
    have noText : u.lexeme = "" := String.toList_eq_nil_iff.mp
      (List.append_eq_nil_iff.mp (List.append_eq_nil_iff.mp same).1).2
    exact texts u (mem_line nests listed (by simp [head])) noText
  rw [render_mk, Render.layer_eq_chars slots nests fun cs branch c listed => some c (by
    rwa [Node.children_of_branch? branch]), line_mk]
  have placed : ∀ p ∈ n.layout Render.isGlued, ∀ c, p.2 = .child c → c ∈ n.children := fun p mem c shown =>
    (n.mem_children_iff_layout Render.isGlued nests).mpr ⟨p.1, shown ▸ mem⟩
  generalize n.layout Render.isGlued = ps at placed
  induction ps with
  | nil => rfl
  | cons p ps ih =>
    obtain ⟨here, later⟩ := List.forall_mem_cons.mp placed
    obtain ⟨space, p⟩ := p
    rw [List.flatMap_cons, Line.chars_append, ih later, Layout.chars_cons]
    congr 1
    cases p with
    | child c =>
      have listed := here c rfl
      obtain ⟨u, rest, head⟩ := line_head (below c listed)
      have same := subs c listed
      rw [head, Line.chars_cons] at same
      rw [Line.ofPiece, head, Line.lead, Line.chars_cons, Layout.pieceChars, ← same]
      simp [Line.gap]
    | token t => simp [Line.ofPiece, Layout.pieceChars]
    | name t => simp [Line.ofPiece, Layout.pieceChars]

/-- A tree is rendered as its line, if every token has a text. -/
theorem chars_line {t : Bare} (regular : t.All Regular) (texts : ∀ u ∈ t.line.map Prod.snd, u.lexeme ≠ "") :
    t.line.chars = t.render.toList := by
  induction regular with
  | mk here below ih =>
    obtain ⟨_, slots, nests⟩ := here
    exact chars_line_mk slots nests below texts fun c listed =>
      ih c listed fun u mem => texts u (mem_line nests listed mem)

/-- A row of trees is rendered as its line, if every token has a text. -/
theorem chars_line_root {row : Row} (regular : ∀ t ∈ row, t.All Regular)
    (texts : ∀ u ∈ (mk () (.root row)).line.map Prod.snd, u.lexeme ≠ "") :
    (mk () (.root row)).line.chars = (mk () (.root row)).render.toList := by
  have below : ∀ c ∈ (Node.root row).children, c.All Regular := by simpa using regular
  exact chars_line_mk trivial trivial below texts fun c listed =>
    chars_line (below c listed) fun u mem => texts u (mem_line (n := .root row) trivial listed mem)

end Tree

end SqlFold
