import SqlFold.Proofs.Regeneration.Layers
import SqlFold.Proofs.Rows.Cells

/-!
# Another clause in a tree

`Tree.Replaces old new` says that a tree stands for another one in which some occurrences of the clause `old` are
the clause `new`. Where both clauses are of one kind the rules see no difference above them (`Tree.Replaces.glance`),
and what a row of leaves and brackets was folded into can be folded with the other brackets as well
(`Row.IsAtom.of_hollow`). So the tree with the new clause can be folded again from its text layer by layer, as the
old one can (`Tree.Replaces.layers`).
-/

namespace SqlFold

variable {P : Token → Prop} {α β : Type}

/-! ## The same rules for other trees -/

/-- Related trees stand one by one in two rows. -/
theorem Row.forall₂_pairs {R : Bare → Bare → Prop} {ps : List (Bare × Bare)} (each : ∀ c ∈ ps, R c.1 c.2) :
    List.Forall₂ R (ps.map Prod.fst) (ps.map Prod.snd) :=
  List.forall₂_map_left_iff.mpr (List.forall₂_map_right_iff.mpr (List.forall₂_same.mpr each))

namespace Tree

/-- Trees of one kind, and leaves of one kind of token. -/
structure Like (t u : Bare) : Prop where
  kind : u.kind = t.kind
  tokenKind? : u.node.tokenKind? = t.node.tokenKind?

namespace Like

variable {t u : Bare}

theorem refl (t : Bare) : Like t t := ⟨rfl, rfl⟩

theorem leafIs (like : Like t u) (kind : TokenKind) : Rule.leafIs node kind u = Rule.leafIs node kind t := by
  rw [Rule.leafIs, Rule.leafIs, like.tokenKind?]

theorem isItem (like : Like t u) : Rule.isItem node u = Rule.isItem node t := by
  have kind : u.node.kind = t.node.kind := like.kind
  simp only [Rule.isItem, Rule.isOperand, Rule.isNode, Node.isExpression, kind]

theorem multiplies (like : Like t u) : Row.multiplies u = Row.multiplies t := by
  have shown (v : Bare) : Row.multiplies v = (v.node.tokenKind?.any TokenKind.beforeProduct || v.kind == .bracket) := by
    obtain ⟨⟨⟩, n⟩ := v
    cases n <;> first | rfl | exact (Bool.or_false _).symm
  rw [shown, shown, like.kind, like.tokenKind?]

end Like

/-- Other contents of brackets are not seen from outside. -/
theorem like_refill {change : Token → Row → Row} (t : Bare) : t.Like (t.refill change) := by
  obtain ⟨⟨⟩, n⟩ := t
  refine ⟨kind_refill _, ?_⟩
  cases n with
  | bracket p =>
    rw [show mk () (.bracket p) = Row.span p.opening p.closing p.children from rfl, refill_span]
    rfl
  | _ =>
    rw [refill_mk (by simp [Node.kind])]
    rfl

end Tree

namespace Node

/-- What stands in the slots is seen where the sub-nodes are glanced at. -/
theorem slots_congr {glance glance' : α → Glance} {n : Node α} (same : ∀ c ∈ n.children, glance' c = glance c) :
    n.Slots glance' ↔ n.Slots glance := by
  have glances : n.map glance' = n.map glance := map_congr same
  have moved := @slots_map _ _ id glance' n
  rw [glances] at moved
  exact moved.symm.trans (slots_map glance n)

/-- How a layer nests is seen in the kinds of its sub-nodes. -/
theorem nests_congr {kindOf kindOf' : α → NodeKind} {n : Node α} (same : ∀ c ∈ n.children, kindOf' c = kindOf c) :
    n.Nests kindOf' ↔ n.Nests kindOf := by
  have kinds : n.map kindOf' = n.map kindOf := map_congr same
  have moved := @nests_map _ _ id kindOf' n
  rw [kinds] at moved
  exact moved.symm.trans (nests_map kindOf n)

/-- What the rules look at in a layer is seen in the kinds of its sub-nodes. -/
theorem glance_congr {m : Node α} {f g : α → Bare} (like : ∀ c ∈ m.children, (f c).Like (g c)) :
    Rule.glance Tree.node (.mk () (m.map g)) = Rule.glance Tree.node (.mk () (m.map f)) := by
  have kind : (m.map g).kind = (m.map f).kind := (kind_map g m).trans (kind_map f m).symm
  have assigns : Rule.isAssignment Tree.node (.mk () (m.map g)) = Rule.isAssignment Tree.node (.mk () (m.map f)) := by
    cases m with
    | operation o =>
      have left : (g o.left).node.kind = (f o.left).node.kind := (like o.left (by simp)).kind
      show (_ && Rule.isNode Tree.node .column (g o.left)) = (o.isEquals && Rule.isNode Tree.node .column (f o.left))
      rw [Rule.isNode, Rule.isNode, left]
      rfl
    | _ => rfl
  have distinct : (m.map g).children.head?.any (Rule.leafIs Tree.node .distinctKw) =
      (m.map f).children.head?.any (Rule.leafIs Tree.node .distinctKw) := by
    rw [children_map, children_map]
    cases subs : m.children with
    | nil => rfl
    | cons c cs => exact (like c (subs ▸ List.mem_cons_self)).leafIs .distinctKw
  simp only [Rule.glance, assigns]
  exact congr (congrArg (fun k => Glance.mk k _) kind) distinct

/-- The sub-nodes of operands are operands. -/
theorem Slots.isExpression {glance : α → Glance} {n : Node α} (slots : n.Slots glance)
    (operand : n.kind.isExpression = true) (plain : n.kind ≠ .bracket) :
    ∀ c ∈ n.children, (glance c).kind.isExpression = true := by
  intro c listed
  cases n with
  | operation o =>
    rcases List.mem_pair.mp (children_operation o ▸ listed) with rfl | rfl
    · exact slots.1
    · exact slots.2.1
  | membership o =>
    rcases List.mem_pair.mp (children_membership o ▸ listed) with rfl | rfl
    · exact slots.1
    · rw [slots.2.1]
      rfl
  | conjunction j =>
    obtain ⟨part, mem, rfl⟩ := List.mem_map.mp (children_conjunction j ▸ listed)
    exact slots.1 part mem
  | call a =>
    obtain rfl := List.mem_singleton.mp (children_call a ▸ listed)
    rw [slots.2.1]
    rfl
  | column | literal | allColumns => simp at listed
  | bracket => exact absurd rfl plain
  | _ => cases operand

end Node

namespace Rule

variable {row row' : Row}

/-- Items with commas between them are told by the kinds of the trees. -/
theorem Items.of_like (items : Items Tree.node row) (like : List.Forall₂ Tree.Like row row') : Items Tree.node row' := by
  induction items generalizing row' with
  | last isItem =>
    obtain ⟨_, _, same, ⟨⟩, rfl⟩ := List.forall₂_cons_left_iff.mp like
    exact .last (same.isItem.trans isItem)
  | next isItem isComma _ ih =>
    obtain ⟨_, _, same, behind, rfl⟩ := List.forall₂_cons_left_iff.mp like
    obtain ⟨_, _, same', rest, rfl⟩ := List.forall₂_cons_left_iff.mp behind
    exact .next (same.isItem.trans isItem) ((same'.leafIs .comma).trans isComma) (ih rest)

theorem Content.of_like (content : Content Tree.node row) (like : List.Forall₂ Tree.Like row row') :
    Content Tree.node row' := by
  cases content with
  | empty =>
    obtain ⟨⟩ := like
    exact .empty
  | items items => exact .items (items.of_like like)
  | distinct isWord items =>
    obtain ⟨_, _, same, rest, rfl⟩ := List.forall₂_cons_left_iff.mp like
    exact .distinct ((same.leafIs .distinctKw).trans isWord) (items.of_like rest)

end Rule

/-- Where statements end is told by the kinds of the trees. -/
theorem Row.Chained.ends_of_like {row row' : Row} {previous previous' : Option Bare}
    (ends : Chained Ends previous row) (like : List.Forall₂ Tree.Like row row')
    (same : previous'.any (fun s => s.kind.isStatement) = previous.any fun s => s.kind.isStatement) :
    Chained Ends previous' row' := by
  induction like generalizing previous previous' with
  | nil => trivial
  | @cons t u _ _ like _ ih =>
    obtain ⟨here, later⟩ := ends
    refine ⟨fun statement => (like.leafIs .semicolon).trans (here (same ▸ statement)), ih later ?_⟩
    simp only [Option.any_some, like.kind]

namespace Layout

@[simp] theorem shows_map {t : Token} {f : α → β} {ps : Spaced α} : Shows t (Layout.map f ps) ↔ Shows t ps := by
  induction ps with
  | nil => simp
  | cons p ps ih =>
    obtain ⟨space, _ | _ | _⟩ := p <;> simp [Piece.map, ih]

/-- The tokens that are written do not depend on the sub-nodes. -/
theorem shows_layout_map {t : Token} {f : α → β} {n : Node α} {glued : β → Bool} :
    Shows t ((n.map f).layout glued) ↔ Shows t (n.layout fun _ => false) := by
  rw [Node.layout_map, shows_map]
  cases n <;> first | rfl | simp [Node.layout]

end Layout

/-! ## Other contents of brackets -/

namespace Row

variable {row : Row} {previous : Option Bare} {change : Token → Row → Row}

/-- Contents of one gist are proper alike. -/
theorem Proper.of_gist {content content' : Row} (proper : Proper content) (same : content'.gist = content.gist) :
    Proper content' := by
  obtain ⟨empty, distinct⟩ := gist_eq_iff.mp same
  exact ⟨empty.trans proper.1, distinct.trans proper.2⟩

/-- A row stays as the scanner would leave it. -/
theorem Chained.fits_refill (keeps : ∀ opening content, gist (change opening content) = gist content)
    (fits : Chained (Fits P) previous row) :
    Chained (Fits P) (previous.map (Tree.refill change)) (row.map (Tree.refill change)) := by
  have alike (q : Bare → Bool) (same : ∀ t : Bare, q (t.refill change) = q t) (previous : Option Bare) :
      (previous.map (Tree.refill change)).any q = previous.any q := by
    rw [Option.any_map]
    exact congrArg (Option.any · previous) (funext same)
  have multiplies := alike multiplies fun t => t.like_refill.multiplies
  have symbol := alike (Rule.leafIs Tree.node .symbol) fun t => t.like_refill.leafIs .symbol
  induction row generalizing previous with
  | nil => trivial
  | cons t row ih =>
    obtain ⟨fit, later⟩ := fits
    refine ⟨?_, ih later⟩
    cases fit with
    | leaf holds star product =>
      rw [Tree.refill_mk (by simp [Node.kind])]
      exact .leaf holds (by rwa [multiplies]) (by rwa [multiplies])
    | @span opening closing content proper =>
      rw [Tree.refill_span]
      refine .span fun alone => (proper ?_).of_gist (keeps opening content)
      rwa [symbol] at alone

/-- An operand that can be folded can be folded with other contents of its brackets. -/
theorem IsAtom.of_hollow {t u : Bare} (atom : IsAtom P t) (same : t.hollow = u.hollow) (once : t.openings.Nodup) :
    IsAtom P u := by
  obtain ⟨σ, rests, fits, plain⟩ := atom
  have keeps := Tree.gist_contentIn u.spans
  refine ⟨σ.map (Tree.refill (Tree.contentIn u.spans)), ?_, fits.fits_refill keeps, ?_⟩
  · have refilled := rests.refill keeps (List.Subset.refl _)
    rwa [List.map_singleton, Tree.refill_of_hollow_eq same once] at refilled
  · intro t mem
    obtain ⟨s, stood, rfl⟩ := List.mem_map.mp mem
    rw [opens, closes, s.like_refill.leafIs, s.like_refill.leafIs]
    exact plain s stood

end Row

/-! ## Another clause -/

/-- A layer that can be folded again from its text, also with other contents of the brackets in its operands. -/
structure Node.Renews (P : Token → Prop) (n : Node Bare) : Prop where
  restores : n.Restores P
  once : ∀ c ∈ n.children, c.kind.isExpression = true → c.kind ≠ .conjunction → c.openings.Nodup

/-- What is read in a layer that is no branch. -/
theorem Node.reads_iff {n : Node Bare} (plain : n.kind ≠ .bracket) :
    n.Reads P ↔ (n.kind.isPhrase = true → ∀ c ∈ n.children, c.kind.isExpression = true → Row.IsTerm P c) := by
  cases n with
  | bracket => exact absurd rfl plain
  | _ => rfl

/-- A layer can be folded again with other sub-nodes that the rules do not tell apart. -/
theorem Node.Renews.replace {m : Node (Bare × Bare)} (renews : (m.map Prod.fst).Renews P)
    (like : ∀ c ∈ m.children, c.1.Like c.2)
    (glance : ∀ c ∈ m.children, Rule.glance Tree.node c.2 = Rule.glance Tree.node c.1)
    (hollow : ∀ c ∈ m.children, c.1.kind.isExpression = true → c.1.hollow = c.2.hollow) : (m.map Prod.snd).Renews P := by
  have listed {c : Bare × Bare} (mem : c ∈ m.children) : c.1 ∈ (m.map Prod.fst).children :=
    children_map Prod.fst m ▸ List.mem_map_of_mem mem
  have operand : ∀ c ∈ m.children, c.2.kind.isExpression = true → c.1.kind.isExpression = true :=
    fun c mem => (like c mem).kind ▸ id
  have once : ∀ c ∈ m.children, c.1.kind.isExpression = true → c.1.kind ≠ .conjunction → c.1.openings.Nodup :=
    fun c mem => renews.once c.1 (listed mem)
  have term : ∀ c ∈ m.children, c.1.kind.isExpression = true → Row.IsTerm P c.1 → Row.IsTerm P c.2 := by
    intro c mem operand term
    by_cases conjunction : c.1.kind = .conjunction
    · exact .inl ((like c mem).kind.trans conjunction)
    · exact .inr ((term.resolve_left conjunction).of_hollow (hollow c mem operand) (once c mem operand conjunction))
  obtain ⟨⟨noRoot, slots, nests⟩, reads, words⟩ := renews.restores
  refine ⟨⟨⟨?_, ?_, ?_⟩, ?_, ?_⟩, ?_⟩
  · rwa [kind_map] at noRoot ⊢
  · exact (slots_map _ m).mpr ((slots_congr glance).mpr ((slots_map _ m).mp slots))
  · have kinds : ∀ c ∈ m.children, (Tree.kind ∘ Prod.snd) c = (Tree.kind ∘ Prod.fst) c := fun c mem => (like c mem).kind
    exact (nests_map _ m).mpr ((nests_congr kinds).mpr ((nests_map _ m).mp nests))
  · by_cases bracket : m.kind = .bracket
    · cases m with
      | bracket p =>
        obtain ⟨checked, terms, ends⟩ := reads
        have children := children_bracket p
        have alike : List.Forall₂ Tree.Like (p.children.map Prod.fst) (p.children.map Prod.snd) :=
          Row.forall₂_pairs (children ▸ like)
        refine ⟨((Rule.checkContent_ok checked).of_like alike).checked _, ?_, ends.ends_of_like alike rfl⟩
        intro _ stands isExpression
        obtain ⟨c, mem, rfl⟩ := List.mem_map.mp stands
        have mem' := children.symm ▸ mem
        have isExpression' := operand c mem' isExpression
        exact term c mem' isExpression' (terms c.1 (List.mem_map_of_mem mem) isExpression')
      | _ => cases bracket
    · rw [reads_iff (by rwa [kind_map]), kind_map] at reads ⊢
      intro phrase _ stands isExpression
      obtain ⟨c, mem, rfl⟩ := List.mem_map.mp (children_map Prod.snd m ▸ stands)
      have isExpression' := operand c mem isExpression
      exact term c mem isExpression' (reads phrase c.1 (listed mem) isExpression')
  · intro t shows
    exact words t (Layout.shows_layout_map.mpr (Layout.shows_layout_map.mp shows))
  · intro _ stands isExpression other
    obtain ⟨c, mem, rfl⟩ := List.mem_map.mp (children_map Prod.snd m ▸ stands)
    have isExpression' := operand c mem isExpression
    rw [← Tree.openings_eq_of_hollow (hollow c mem isExpression')]
    exact once c mem isExpression' ((like c mem).kind ▸ other)

namespace Tree

variable {old new t u : Bare}

/-- A tree, and the tree with `new` for some occurrences of `old`. -/
inductive Replaces (old new : Bare) : Bare → Bare → Prop
  | here : Replaces old new old new
  | same (t : Bare) : Replaces old new t t
  | layer {m : Node (Bare × Bare)} : (∀ c ∈ m.children, Replaces old new c.1 c.2) →
      Replaces old new (.mk () (m.map Prod.fst)) (.mk () (m.map Prod.snd))

/-- Clauses that the rules do not tell apart. -/
structure Peers (old new : Bare) : Prop where
  clause : old.kind.isClause = true
  glance : Rule.glance node new = Rule.glance node old

namespace Peers

theorem kind (peers : Peers old new) : new.kind = old.kind := congrArg Glance.kind peers.glance

theorem like (peers : Peers old new) : Like old new := by
  refine ⟨peers.kind, ?_⟩
  have noLeaf {t : Bare} (clause : t.kind.isClause = true) : t.node.tokenKind? = none := by
    obtain ⟨⟨⟩, n⟩ := t
    cases n <;> first | rfl | cases clause
  rw [noLeaf peers.clause, noLeaf (peers.kind ▸ peers.clause)]

end Peers

namespace Replaces

/-- The clause is replaced below a layer. -/
theorem of_map {n : Node α} {f g : α → Bare} (each : ∀ c ∈ n.children, Replaces old new (f c) (g c)) :
    Replaces old new (mk () (n.map f)) (mk () (n.map g)) := by
  have pairs : ∀ c ∈ (n.map fun a => (f a, g a)).children, Replaces old new c.1 c.2 := by
    rw [Node.children_map]
    rintro _ mem
    obtain ⟨a, listed, rfl⟩ := List.mem_map.mp mem
    exact each a listed
  have layer := Replaces.layer pairs
  rwa [Node.map_map, Node.map_map] at layer

theorem like (peers : Peers old new) (replaces : Replaces old new t u) : Like t u := by
  cases replaces with
  | here => exact peers.like
  | same => exact .refl t
  | @layer m _ =>
    exact ⟨(Node.kind_map _ m).trans (Node.kind_map _ m).symm,
      congrArg (Option.map _) ((Node.token?_map _ m).trans (Node.token?_map _ m).symm)⟩

theorem glance (peers : Peers old new) (replaces : Replaces old new t u) :
    Rule.glance node u = Rule.glance node t := by
  cases replaces with
  | here => exact peers.glance
  | same => rfl
  | layer each => exact Node.glance_congr fun c listed => (each c listed).like peers

/-- Around the brackets of an operand nothing is replaced. -/
theorem hollow (peers : Peers old new) (replaces : Replaces old new t u)
    (slots : t.All fun n => n.Slots (Rule.glance node)) (operand : t.kind.isExpression = true) : t.hollow = u.hollow := by
  induction replaces with
  | here =>
    rw [NodeKind.not_isExpression_of_isClause peers.clause] at operand
    cases operand
  | same => rfl
  | @layer m each ih =>
    by_cases bracket : m.kind = .bracket
    · cases m with
      | bracket p =>
        refine (refill_span ..).trans ((congrArg (Row.span p.opening p.closing) ?_).trans (refill_span ..).symm)
        refine Row.gist_eq_iff.mpr ⟨by simp, ?_⟩
        rw [Row.startsDistinct, Row.startsDistinct]
        cases children : p.children with
        | nil => rfl
        | cons c cs =>
          exact (((each c (by simp [children])).like peers).leafIs .distinctKw).symm
      | _ => cases bracket
    · have subs := slots.node.isExpression operand
      rw [Tree.hollow, refill_mk (by rwa [Node.kind_map]), refill_mk (by rwa [Node.kind_map]), Node.map_map, Node.map_map]
      refine congrArg (mk ()) (Node.map_congr fun c listed => ?_)
      have listed' : c.1 ∈ (m.map Prod.fst).children := Node.children_map Prod.fst m ▸ List.mem_map_of_mem listed
      exact ih c listed (slots.children _ listed') (subs (by rwa [node, Node.kind_map]) _ listed')

/-- Where the new clause can be folded again from its text, the tree with it can be. -/
theorem renews (peers : Peers old new) (replaces : Replaces old new t u) (clause : new.All (Node.Renews P))
    (all : t.All (Node.Renews P)) : u.All (Node.Renews P) := by
  induction replaces with
  | here => exact clause
  | same => exact all
  | @layer m each ih =>
    have listed {c : Bare × Bare} (mem : c ∈ m.children) : c.1 ∈ (m.map Prod.fst).children :=
      Node.children_map Prod.fst m ▸ List.mem_map_of_mem mem
    have slots : (mk () (m.map Prod.fst)).All fun n => n.Slots (Rule.glance node) :=
      all.imp fun _ renews => renews.restores.regular.2.1
    have here : (m.map Prod.fst).Renews P := all.node
    refine .mk (here.replace (fun c mem => (each c mem).like peers) (fun c mem => (each c mem).glance peers)
      fun c mem => (each c mem).hollow peers (slots.children _ (listed mem))) fun _ stands => ?_
    obtain ⟨c, mem, rfl⟩ := List.mem_map.mp (Node.children_map Prod.snd m ▸ stands)
    exact ih c mem (all.children _ (listed mem))

end Replaces

end Tree

end SqlFold
