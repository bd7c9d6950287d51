import SqlFold.Proofs.Arguments
import SqlFold.Proofs.Embedding

/-!
# Bracketed sources

Behind `FROM` and `JOIN` the rules take any brackets for a source. No name stands before them, so between them there is
what may stand between brackets anywhere: expressions and subqueries with single commas between them
(`Dialect.parse_sources`). A subquery is only one such list, and `SELECT a FROM (b)` is parsed as well.
-/

namespace SqlFold

open Forest

/-- What a layer is written with shows the tokens of each of its sub-nodes without a gap. -/
theorem Spelled.exists_infix {α : Type} {spells : α → List Token → Prop} {ps : List (Piece α)} {ts : List Token} {c : α}
    (spelled : Spelled spells ps ts) (mem : c ∈ Piece.children ps) : ∃ us, us <:+: ts ∧ spells c us := by
  induction ps generalizing ts with
  | nil => cases mem
  | cons p ps ih =>
    cases p with
    | child d =>
      obtain ⟨front, rest, rfl, here, later⟩ := spelled
      rcases List.mem_cons.mp mem with rfl | mem
      · exact ⟨front, ⟨[], rest, by simp⟩, here⟩
      · obtain ⟨us, inside, shown⟩ := ih later mem
        exact ⟨us, inside.trans (List.suffix_append ..).isInfix, shown⟩
    | token t | name t =>
      obtain ⟨rest, rfl, later⟩ := spelled
      obtain ⟨us, inside, shown⟩ := ih later mem
      exact ⟨us, inside.trans (List.suffix_cons ..).isInfix, shown⟩

/-- A token that stands right before a sub-node stands there in the tokens as well. -/
theorem Spelled.infix_of_child {α : Type} {spells : α → List Token → Prop} {front back : List (Piece α)} {word opening : Token}
    {c : α} {ts : List Token} (spelled : Spelled spells (front ++ .token word :: .child c :: back) ts)
    (opens : ∀ us, spells c us → ∃ rest, us = opening :: rest) : [word, opening] <:+: ts := by
  obtain ⟨before, _, rfl, -, _, rfl, inner, after, rfl, here, -⟩ := spelled_append.mp spelled
  obtain ⟨rest, rfl⟩ := opens inner here
  exact ⟨before, rest ++ after, by simp⟩

namespace Forest

variable {f : Forest} {q b : NodeRef}

/-- A node is what a `FROM` or a `JOIN` reads from. -/
def IsSource (f : Forest) (q b : NodeRef) : Prop :=
  (∃ c, f.node q = .fromClause c ∧ c.source = b) ∨ ∃ j, f.node q = .join j ∧ j.source = b

theorem IsSource.mem_children (source : f.IsSource q b) : b ∈ f.children q := by
  rcases source with ⟨c, node, rfl⟩ | ⟨j, node, rfl⟩ <;> rw [children, node] <;> simp

theorem IsSource.kind_ne_call (source : f.IsSource q b) : f.kind q ≠ .call := by
  rcases source with ⟨c, node, rfl⟩ | ⟨j, node, rfl⟩ <;> simp [kind, node, Node.kind]

end Forest

/-- Brackets that stand behind a point and a name stand behind no other word, where each token stands once. -/
theorem BehindPoint.kind_of_infix {ts : List Token} {word opening : Token} (behind : BehindPoint ts opening) (once : ts.Nodup)
    (stands : [word, opening] <:+: ts) : word.kind = .symbol := by
  obtain ⟨point, name, -, isName, -, front, back, rfl⟩ := behind
  obtain ⟨front', back', same⟩ := stands
  have cut : (front ++ [point, name]) ++ opening :: back = (front' ++ [word]) ++ opening :: back' := by simpa using same.symm
  replace once : ((front ++ [point, name]) ++ opening :: back).Nodup := by simpa using once
  obtain ⟨-, behind, apart⟩ := List.nodup_append.mp once
  have notBefore : opening ∉ front ++ [point, name] := fun mem => apart _ mem _ List.mem_cons_self rfl
  obtain ⟨before, -⟩ := (List.append_cons_inj_of_notMem notBefore (List.nodup_cons.mp behind).1).mp cut
  have last := congrArg List.getLast? before
  rw [List.getLast?_append_cons, List.getLast?_append_cons] at last
  obtain rfl : name = word := Option.some.inj last
  exact isName

namespace Dialect

variable {vocabulary : Vocabulary} {limit : Nat} {source : String} {f : Forest} {script : Script} {row : Row}

namespace Parsed

variable (h : Parsed vocabulary limit source f script row) {r q b : NodeRef}

include h

/-- Every node that is reached spells tokens that stand in the text one behind the other. -/
theorem spells_at (reached : f.Reached r) : ∃ us, us <:+: script.significant ∧ (f.bare r).Spells us := by
  obtain ⟨path, walk⟩ := reached
  induction walk with
  | root => exact ⟨_, List.infix_rfl, h.spells⟩
  | @step _ _ q c _ listed ih =>
    obtain ⟨us, inside, spelled⟩ := ih
    rw [h.sound.coherent.bare_eq, Tree.spells_mk] at spelled
    obtain ⟨ps, written, spelled⟩ := spelled
    have below : f.bare c ∈ Piece.children ps := by
      rw [written.children, Node.children_map]
      exact List.mem_map_of_mem (List.mem_of_getElem? listed)
    obtain ⟨vs, within, shown⟩ := spelled.exists_infix below
    exact ⟨vs, within.trans inside, shown⟩

/-- Each token stands in the text once. -/
theorem nodup : script.significant.Nodup := by
  refine List.Pairwise.imp ?_ h.increasing
  rintro t _ before rfl
  exact Text.Position.Before.irrefl _ before

/-- The word that stands before the brackets of a source. -/
theorem exists_word (reached : f.Reached q) (source : f.IsSource q b) {p : Bracket NodeRef}
    (shown : f.node b = .bracket p) :
    ∃ word : Token, word.kind ≠ .symbol ∧ [word, p.opening] <:+: script.significant := by
  have coherent := h.sound.coherent
  obtain ⟨us, inside, spelled⟩ := h.spells_at reached
  rw [coherent.bare_eq, Tree.spells_mk] at spelled
  obtain ⟨ps, written, spelled⟩ := spelled
  -- The tokens of the brackets start with the opening one.
  have opens {vs : List Token} (spelled : (f.bare b).Spells vs) : ∃ rest, vs = p.opening :: rest := by
    rw [coherent.bare_eq, shown, Tree.spells_mk] at spelled
    obtain ⟨_, written, spelled⟩ := spelled
    cases written with
    | bracket =>
      obtain ⟨rest, rfl, -⟩ := spelled
      exact ⟨rest, rfl⟩
  have layer : (f.bare q).node.Slots (Rule.glance Tree.node) := by
    rcases h.all_reached h.parses.regular reached with rfl | regular
    · rw [h.bare]
      trivial
    · exact regular.node.2.1
  rw [coherent.node_bare] at layer
  rcases source with ⟨c, node, rfl⟩ | ⟨j, node, rfl⟩ <;> rw [node] at written layer
  · obtain ⟨keyword, -⟩ := layer
    cases written with
    | fromClause =>
      refine ⟨c.keyword, ?_, (@Spelled.infix_of_child _ _ [] _ _ _ _ _ spelled fun vs => opens).trans inside⟩
      rw [show c.keyword.kind = .fromKw from keyword]
      nofun
  · obtain ⟨⟨modifiers, word, keywords, isJoin, -⟩, -⟩ := layer
    replace keywords : j.keywords = modifiers ++ [word] := keywords
    cases written with
    | join =>
      simp only [keywords, List.map_append, List.map_cons, List.append_assoc, List.cons_append, List.map_nil,
        List.nil_append] at spelled
      exact ⟨word, by rw [isJoin]; nofun, (Spelled.infix_of_child spelled fun vs => opens).trans inside⟩

/-- Between the brackets of a source stands what may stand between brackets behind no name. -/
theorem proper_source (reached : f.Reached q) (source : f.IsSource q b) {p : Bracket NodeRef} (shown : f.node b = .bracket p) :
    Rule.Items f.node p.children := by
  have coherent := h.sound.coherent
  have below : f.Reached b := reached.child source.mem_children
  have free : ¬f.IsArguments b := h.not_isArguments_of_child reached source.mem_children source.kind_ne_call
  have shown' : (f.bare b).node = .bracket ⟨p.opening, p.closing, p.children.map f.bare⟩ := by
    rw [coherent.node_bare, shown]
    rfl
  -- What else may stand between brackets needs a name before them, and a keyword stands before these.
  rcases h.listed below free _ shown' with proper | behind
  · exact (Rule.Translates.of_map coherent.node_bare).items_iff.mp ((Row.items_iff_proper (h.content below shown')).mpr proper)
  · obtain ⟨word, noName, stands⟩ := h.exists_word reached source shown
    exact absurd (behind.kind_of_infix h.nodup stands) noName

end Parsed

end Dialect

namespace Row

variable {ts : List Token} {e : Bare}

/-- Brackets that stand alone may stand behind `SELECT column FROM`, whatever is between them. -/
theorem parses_source (select : Word .selectKw) (column : Word .symbol) (keyword : Word .fromKw)
    (parses : Parses (leaves ts) [e]) (bracket : e.kind = .bracket) :
    Parses (leaves (select :: column :: keyword :: ts)) [.mk () (.select ⟨select, none,
      [⟨.mk () (.column ⟨none, none, column⟩), none⟩], some (.mk () (.fromClause ⟨keyword, e, none⟩)), [],
      none, none, none, none⟩)] := by
  have isExpression : e.kind.isExpression = true := by rw [bracket]; rfl
  have bare : Piece.bare (.child e) = e := Piece.bare_expression isExpression
  have separate : separates keyword.val.kind = true := by rw [keyword.property]; rfl
  have words : Prepares ([] ++ select.val :: [column.val]) ([] ++ Tree.mk () (.leaf select) :: [.mk () (.column ⟨none, none, column⟩)]) :=
    Prepares.nil.join (.name column) (by rw [select.property]; rfl)
  refine parses_statement parses isExpression words separate rfl ⟨by simp [Node.kind], ?_, by simp [Node.Nests]⟩ ?_ ?_
  · have item : (Rule.glance Tree.node (.mk () (.column ⟨none, none, column⟩) : Bare)).kind.isExpression = true := rfl
    have clause : (Rule.glance Tree.node (.mk () (.fromClause ⟨keyword, e, none⟩) : Bare)).kind = .fromClause := rfl
    simpa [Node.Slots, select.property, item] using clause
  · simpa using ⟨Tree.regular_column column, Tree.regular_source keyword (.inr bracket)⟩
  · have clause : Layout.stage Rule.clauseRules (.child (.mk () (.fromClause ⟨keyword, e, none⟩))) =
        [.mk () (.leaf keyword), e] := by
      rw [stage_pending (by simp [Tree.kind, Tree.node, Node.kind, Rule.clauseRules, Rule.makes])]
      simp [Node.layout, bare, Tree.node, Layout.aliasRow]
    have name : Layout.stage Rule.clauseRules (.child (.mk () (.column ⟨none, none, column⟩))) =
        [.mk () (.column ⟨none, none, column⟩)] := rfl
    have word : Layout.stage Rule.clauseRules (.token select) = [.mk () (.leaf select)] := rfl
    simp [Node.layout, Layout.staged, Layout.listed, Layout.projection, clause, name, word]

end Row

namespace Dialect

/-- In `SELECT a FROM (b)` the source is a bracket around a column. -/
theorem exists_bracketedSource : ∃ f q b p, Dialect.standard.parse "SELECT a FROM (b)" = .ok f ∧ f.Reached q ∧
    f.IsSource q b ∧ f.node b = .bracket p ∧ p.children.map f.kind = [.column] := by
  have scanned : Script.ofText? .standard "SELECT a FROM (b)" = .ok ⟨"SELECT a FROM (b)",
      [⟨.selectKw, "SELECT", ⟨0, 0⟩⟩, ⟨.whitespace, " ", ⟨0, 6⟩⟩, ⟨.symbol, "a", ⟨0, 7⟩⟩, ⟨.whitespace, " ", ⟨0, 8⟩⟩,
        ⟨.fromKw, "FROM", ⟨0, 9⟩⟩, ⟨.whitespace, " ", ⟨0, 13⟩⟩, ⟨.bracketOpen, "(", ⟨0, 14⟩⟩, ⟨.symbol, "b", ⟨0, 15⟩⟩,
        ⟨.bracketClose, ")", ⟨0, 16⟩⟩]⟩ := Script.ofText?_standard (by decide +kernel)
  let name (letter : String) (column : Nat) : Bare := .mk () (.column ⟨none, none, ⟨.symbol, letter, ⟨0, column⟩⟩⟩)
  let brackets : Bracket Bare := ⟨⟨.bracketOpen, "(", ⟨0, 14⟩⟩, ⟨.bracketClose, ")", ⟨0, 16⟩⟩, [name "b" 15]⟩
  let clause : FromClause Bare := ⟨⟨.fromKw, "FROM", ⟨0, 9⟩⟩, .mk () (.bracket brackets), none⟩
  let query : Bare := .mk () (.select ⟨⟨.selectKw, "SELECT", ⟨0, 0⟩⟩, none, [⟨name "a" 7, none⟩],
    some (.mk () (.fromClause clause)), [], none, none, none, none⟩)
  have settled : Row.settle (.standard Folding.standardLimit) false 7 (Row.leaves
      [⟨.selectKw, "SELECT", ⟨0, 0⟩⟩, ⟨.symbol, "a", ⟨0, 7⟩⟩, ⟨.fromKw, "FROM", ⟨0, 9⟩⟩, ⟨.bracketOpen, "(", ⟨0, 14⟩⟩,
        ⟨.symbol, "b", ⟨0, 15⟩⟩, ⟨.bracketClose, ")", ⟨0, 16⟩⟩]) = .ok () [query] := by cbv
  obtain ⟨f, ok, parsed⟩ := parse_of_settle scanned settled
  have h := parsed.sound.coherent
  obtain ⟨r, listed, shown⟩ := List.map_eq_singleton_iff.mp parsed.children_root
  have reached : f.Reached r := .child .root (listed ▸ List.mem_singleton_self r)
  obtain ⟨q, child, shownQ⟩ := @Coherent.exists_child _ _ h _ (.mk () (.fromClause clause)) shown (by simp [query, Tree.node])
  have own := congrArg Tree.node shownQ
  rw [h.node_bare] at own
  cases node : f.node q with
  | fromClause c =>
    rw [node] at own
    have source : f.bare c.source = .mk () (.bracket brackets) := congrArg FromClause.source (Node.fromClause.inj own)
    have inner := congrArg Tree.node source
    rw [h.node_bare] at inner
    cases node' : f.node c.source with
    | bracket p =>
      rw [node'] at inner
      have between : p.children.map f.bare = [name "b" 15] := congrArg Bracket.children (Node.bracket.inj inner)
      have kinds : f.kind = Tree.kind ∘ f.bare := funext fun c => (h.kind_bare c).symm
      refine ⟨f, q, c.source, p, ok, reached.child child, .inl ⟨c, node, rfl⟩, node', ?_⟩
      rw [kinds, ← List.map_map, between]
      rfl
    | _ =>
      rw [node'] at inner
      cases inner
  | _ =>
    rw [node] at own
    cases own

end Dialect

end SqlFold
