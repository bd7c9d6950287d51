import SqlFold.Forest.Text
import SqlFold.Proofs.Rows.Lockstep
import SqlFold.Proofs.Rows.Runs
import SqlFold.Proofs.Sessions

/-!
# What a statement looks like depends on the kinds of its tokens

Two scripts are alike if their significant tokens have the same kinds, place by place, and their
operators the same spelling. The runs over alike scripts are one run over placeholders
(`Token.placeholder`), with the tokens of the one and the other script filled in. So they end alike
(`Folding.runWith_alike`): with trees that correspond slot by slot, or with one error at corresponding
tokens.
-/

namespace SqlFold

open Forest

/-! ## Trees and errors that correspond -/

/-- Parts that correspond: tokens by `R` and sub-nodes by `S`. -/
inductive Part.Corresponds {α β : Type} (R : Token → Token → Prop) (S : α → β → Prop) :
    Part α → Part β → Prop
  | token {t u : Token} : R t u → Corresponds R S (.token t) (.token u)
  | child {a : α} {b : β} : S a b → Corresponds R S (.child a) (.child b)
  | absent : Corresponds R S .absent .absent
  | mark (flag : Bool) : Corresponds R S (.mark flag) (.mark flag)

/-- Trees of one shape, with tokens that correspond by `R` in the same slots. -/
inductive Tree.Corresponds (R : Token → Token → Prop) : Bare → Bare → Prop
  | mk {n n' : Node Bare} : n.kind = n'.kind →
      List.Forall₂ (Part.Corresponds R (Corresponds R)) n.parts n'.parts →
        Corresponds R (.mk () n) (.mk () n')

/-- A mention without the text of a token. -/
def Mention.blank : Mention → Mention
  | lexeme _ => lexeme ""
  | mention => mention

/-- A fault without the texts of tokens. -/
def Fault.blank : Fault → Fault
  | expected wanted after found => expected wanted (after.map Mention.blank) (found.map Mention.blank)
  | missingLeftOperand operator => missingLeftOperand operator.blank
  | fault => fault

/-- Errors for one cause. A fault is found at tokens that stand at one place of both scripts. -/
inductive Error.Corresponds (s s' : Script) : Error → Error → Prop
  | parsing {fault fault' : Fault} {t u : Token} : fault.blank = fault'.blank →
      (t, u) ∈ s.significant.zip s'.significant →
        Corresponds s s' (.parsing fault ⟨s.source, t.position⟩)
          (.parsing fault' ⟨s'.source, u.position⟩)
  | violation (v : Violation) : Corresponds s s' (.violation v) (.violation v)

/-- Changes of tokens that correspond give trees that correspond. -/
theorem Tree.Sound.corresponds {R : Token → Token → Prop} {P : Token → Prop} {h h' : Token → Token}
    (each : ∀ t, P t → R (h t) (h' t)) {t : Bare} (sound : t.Sound P) :
    (t.recast h).Corresponds R (t.recast h') := by
  induction sound with
  | @mk n _ _ tokens _ ih =>
    rw [recast, recast, translate_mk, translate_mk]
    refine .mk (by simp) ?_
    rw [Node.parts_mapTokens, Node.parts_mapTokens, Node.parts_map, Node.parts_map, List.map_map,
      List.map_map, List.forall₂_map_left_iff, List.forall₂_map_right_iff, List.forall₂_same]
    intro p mem
    cases p with
    | token t => exact .token (each t (tokens t mem))
    | child c => exact .child (ih c (List.mem_filterMap.mpr ⟨_, mem, rfl⟩))
    | absent => exact .absent
    | mark flag => exact .mark flag

theorem Fault.Renamed.blank_eq {h : Token → Token} {fault fault' : Fault}
    (renamed : Renamed h fault fault') : fault'.blank = fault.blank := by
  have mention {m m' : Mention} (r : Mention.Renamed h m m') : m'.blank = m.blank := by
    cases r <;> rfl
  have mention? {m m' : Option Mention} (r : Option.Rel (Mention.Renamed h) m m') :
      m'.map Mention.blank = m.map Mention.blank := by
    cases r with
    | some r => exact congrArg some (mention r)
    | none => rfl
  cases renamed with
  | refl => rfl
  | expected wanted after found => rw [blank, blank, mention? after, mention? found]
  | missingLeftOperand m => rw [blank, blank, mention m]

/-! ## Placeholders -/

/-- Tokens that the rules cannot tell apart. -/
structure Token.Alike (t u : Token) : Prop where
  kind : t.kind = u.kind
  operator : t.kind = .operator → t.lexeme = u.lexeme

/-- A token that only an operator token may be spelled like: the words `LIKE`, `IS` and `IN` are not
spelled `=`. -/
def Token.Honest (t : Token) : Prop := t.kind ∈ [.likeKw, .isKw, .inKw] → t.lexeme ≠ "="

/-- What the rules see of a token at a place, with the number of the place for a position. -/
def Token.placeholder (i : Nat) (t : Token) : Token :=
  ⟨t.kind, if t.kind = .operator then t.lexeme else "", ⟨i, 0⟩⟩

/-- The placeholders of tokens. -/
def placeholders (ts : List Token) : List Token := ts.mapIdx Token.placeholder

/-- The token that a placeholder stands for; another token stays as it is. -/
def Token.filled (ts : List Token) (k : Token) : Token :=
  match ts[k.position.line]? with
  | some t => if t.kind = k.kind ∧ Rule.isSign t = Rule.isSign k then t else k
  | none => k

theorem Token.filled_placeholder {ts : List Token} {i : Nat} {t : Token} (found : ts[i]? = some t) :
    (t.placeholder i).filled ts = t := by
  have sign : Rule.isSign t = Rule.isSign (t.placeholder i) := by
    unfold Rule.isSign Token.placeholder
    by_cases operator : t.kind = .operator
    · simp only [operator, if_pos]
    · simp [operator]
  rw [filled, show ts[(t.placeholder i).position.line]? = some t from found]
  exact if_pos ⟨rfl, sign⟩

theorem mem_placeholders {ts : List Token} {k : Token} :
    k ∈ placeholders ts ↔ ∃ i, ∃ t : Token, ts[i]? = some t ∧ t.placeholder i = k := by
  simp only [placeholders, List.mem_iff_getElem?, List.getElem?_mapIdx, Option.map_eq_some_iff]

/-- Filling in tokens changes nothing that the rules see. -/
theorem recast_filled {ts : List Token} (honest : ∀ t ∈ ts, t.Honest) :
    Token.Recast (Token.filled ts) (· ∈ placeholders ts) where
  kind k := by
    unfold Token.filled
    split
    · split
      · next same => exact same.1
      · rfl
    · rfl
  sign k := by
    unfold Token.filled
    split
    · split
      · next same => exact same.2
      · rfl
    · rfl
  equals k mem starts := by
    obtain ⟨i, t, found, rfl⟩ := mem_placeholders.mp mem
    rw [Token.filled_placeholder found]
    by_cases operator : t.kind = .operator
    · simp only [Token.placeholder, if_pos operator]
    · have word : t.kind ∈ [.likeKw, .isKw, .inKw] := by
        have starts : Rule.startsOperator t.kind = true := starts
        unfold Rule.startsOperator at starts
        split at starts <;> simp_all
      have unequal := honest t (List.mem_of_getElem? found) word
      simp [Token.placeholder, operator, unequal]

/-- The leaves of tokens are the leaves of their placeholders, filled in. -/
theorem recast_leaves (ts : List Token) :
    Row.recast (Token.filled ts) (Row.leaves (placeholders ts)) = Row.leaves ts := by
  refine List.ext_getElem? fun i => ?_
  simp only [Row.recast, Row.leaves, placeholders, List.getElem?_map, List.getElem?_mapIdx,
    Option.map_map]
  cases found : ts[i]? with
  | none => rfl
  | some t =>
    simp only [Option.map_some, Function.comp, Tree.recast, Tree.translate_mk]
    exact congrArg (fun u => some (Tree.mk () (.leaf u))) (Token.filled_placeholder found)

section Alike

variable {ts us : List Token} (alike : List.Forall₂ Token.Alike ts us)

include alike

/-- The token at the same place of alike tokens. -/
theorem exists_alike {i : Nat} {t : Token} (found : ts[i]? = some t) :
    ∃ u, us[i]? = some u ∧ (t, u) ∈ ts.zip us ∧ t.Alike u := by
  obtain ⟨lengths, each⟩ := List.forall₂_iff_zip.mp alike
  obtain ⟨inside, _⟩ := List.getElem?_eq_some_iff.mp found
  have found' : us[i]? = some us[i] := List.getElem?_eq_getElem (lengths ▸ inside)
  have paired : (t, us[i]) ∈ ts.zip us :=
    List.mem_of_getElem? (List.getElem?_zip_eq_some.mpr ⟨found, found'⟩)
  exact ⟨_, found', paired, each paired⟩

/-- Alike tokens have the same placeholders. -/
theorem placeholders_eq : placeholders ts = placeholders us := by
  refine List.ext_getElem? fun i => ?_
  rw [placeholders, placeholders, List.getElem?_mapIdx, List.getElem?_mapIdx]
  cases found : ts[i]? with
  | none =>
    have ends : us[i]? = none := by
      rw [List.getElem?_eq_none_iff] at found ⊢
      rwa [← alike.length_eq]
    rw [ends]
  | some t =>
    obtain ⟨u, found', _, same⟩ := exists_alike alike found
    rw [found', Option.map_some, Option.map_some, Token.placeholder, Token.placeholder, same.kind]
    by_cases operator : u.kind = .operator
    · rw [if_pos operator, if_pos operator, same.operator (same.kind.trans operator)]
    · rw [if_neg operator, if_neg operator]

/-- A placeholder stands for tokens at one place. -/
theorem mem_zip_of_placeholder {k : Token} (mem : k ∈ placeholders ts) :
    (k.filled ts, k.filled us) ∈ ts.zip us := by
  obtain ⟨i, t, found, rfl⟩ := mem_placeholders.mp mem
  obtain ⟨u, found', paired, same⟩ := exists_alike alike found
  have same_placeholder : t.placeholder i = u.placeholder i := by
    have at_i := congrArg (·[i]?) (placeholders_eq alike)
    simpa [placeholders, found, found'] using at_i
  rw [Token.filled_placeholder found, same_placeholder, Token.filled_placeholder found']
  exact paired

end Alike

/-! ## Runs over alike scripts -/

/-- The children of the root are those of the tree that is read there. -/
theorem Forest.Coherent.node_root {f : Forest} (h : f.Coherent) {row : Row} (shown : f.bare Forest.root = .mk () (.root row)) :
    ∃ cs, f.node Forest.root = .root cs ∧ cs.map f.bare = row := by
  have nodes := h.node_bare Forest.root
  rw [shown] at nodes
  cases node : f.node Forest.root with
  | root cs =>
    rw [node] at nodes
    cases nodes
    exact ⟨cs, rfl, rfl⟩
  | _ =>
    rw [node] at nodes
    cases nodes

/-- What is seen of the statements of a row, without the semicolons. -/
def Row.overStatements {α : Type} (look : Bare → α) (row : Row) : List α :=
  (row.filter fun t => t.node.tokenKind? != some .semicolon).map look

/-- What changes neither what is seen nor the kinds of leaves is not seen in the statements. -/
theorem Row.overStatements_map {α : Type} {look : Bare → α} {change : Bare → Bare}
    (tokenKind? : ∀ t, (change t).node.tokenKind? = t.node.tokenKind?) (same : ∀ t, look (change t) = look t)
    (row : Row) : overStatements look (row.map change) = overStatements look row := by
  have looks : look ∘ change = look := funext same
  have kinds : (fun t : Bare => t.node.tokenKind? != some .semicolon) ∘ change =
      fun t => t.node.tokenKind? != some .semicolon := funext fun t => by rw [Function.comp, tokenKind?]
  rw [overStatements, overStatements, List.filter_map, List.map_map, looks, kinds]

/-- What is seen of the statements of a store is seen in the row of its trees. -/
theorem Forest.Coherent.map_statements {α : Type} {f : Forest} (h : f.Coherent) {row : Row}
    (shown : f.bare Forest.root = .mk () (.root row)) (look : Bare → α) :
    (f.statements.map fun r => look (f.bare r)) = row.overStatements look := by
  obtain ⟨cs, node, rfl⟩ := h.node_root shown
  have kinds (r : NodeRef) : (f.bare r).node.tokenKind? = (f.node r).tokenKind? := by
    rw [h.node_bare, Node.tokenKind?, Node.tokenKind?, Node.token?_map]
  rw [Row.overStatements, statements, childList, node, List.filter_map, List.map_map]
  simp only [Function.comp_def, kinds]
  rfl

/-- The outline of the statements is that of their trees. -/
theorem Forest.Coherent.outlineStatements_eq {f : Forest} (h : f.Coherent) {row : Row}
    (shown : f.bare Forest.root = .mk () (.root row)) :
    f.outlineStatements = "\n".intercalate (row.overStatements Tree.outline) := by
  have outlines : f.outline = fun r => (f.bare r).outline := funext fun r => (f.outline_bare r).symm
  rw [outlineStatements, outlines, h.map_statements shown]

/-- Runs that end alike: with trees that correspond slot by slot and have one outline, or with errors
that correspond. -/
inductive Folding.Run.EndAlike (s s' : Script) (run run' : Run) : Prop
  | ok : run.result = .ok () → run'.result = .ok () →
      run.forest.outlineStatements = run'.forest.outlineStatements →
        (run.forest.bare root).Corresponds (fun t u => (t, u) ∈ s.significant.zip s'.significant)
          (run'.forest.bare root) → EndAlike s s' run run'
  | error {e e' : Error} : run.result = .error e → run'.result = .error e' →
      e.Corresponds s s' e' → EndAlike s s' run run'

/-- The position of a changed tree is that of its changed first token. -/
theorem Tree.position_recast {h : Token → Token} {t : Bare} {k : Token}
    (leading : t.leadingToken? = some k) : (t.recast h).position = (h k).position := by
  rw [position, recast, leadingToken?_translate, leading]
  rfl

/-- The outlines of statements do not depend on the tokens. -/
theorem Row.outlines_recast {h : Token → Token} (kind : ∀ t, (h t).kind = t.kind) (row : Row) :
    (Row.recast h row).overStatements Tree.outline = row.overStatements Tree.outline := by
  refine overStatements_map (fun t => ?_) (fun t => ?_) row
  · rw [Tree.node_recast, Node.tokenKind?, Node.tokenKind?, Node.token?_mapTokens, Node.token?_map,
      Option.map_map]
    exact Option.map_congr fun t _ => kind t
  · rw [Tree.outline, Tree.outline, Tree.recast, Tree.levels_translate]

/-- The store that a run over a script leaves is coherent. -/
theorem Folding.runWith_coherent (folding : Folding) (notesCalls : Bool) (script : Script) :
    (folding.runWith notesCalls root (ofScript script)).forest.Coherent := by
  have branch : ((ofScript script).node root).isBranch = true := by
    rw [(leafRow_ofScript script).root]
    rfl
  exact ((Forest.Sound.ofScript script).run folding notesCalls .root branch).coherent

/-- `SELECT 1` with another number, in lower case and behind a comment. -/
def Script.selectTwo : Script where
  source := "/**/select\n2"
  tokens := [⟨.comment, "/**/", ⟨0, 0⟩⟩, ⟨.selectKw, "select", ⟨0, 4⟩⟩, ⟨.whitespace, "\n", ⟨0, 10⟩⟩,
    ⟨.numericLiteral, "2", ⟨1, 0⟩⟩]

end SqlFold
