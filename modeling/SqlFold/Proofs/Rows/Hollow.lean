import SqlFold.Proofs.Rows.Lockstep
import SqlFold.Proofs.Rows.Stages
import SqlFold.Proofs.Traversal

/-!
# Rules on operands do not look between brackets

Of the content of a bracket the rules on operands see whether there is any and whether it starts with
`DISTINCT`, and nothing else: its gist (`Row.gist`). So these rules do the same in a row with other
contents of the same gist (`Row.RestsAll.refill`). `Tree.hollow` is what of a tree such a change keeps:
the tree with the gist of every content in the place of the content.
-/

namespace SqlFold

open Text

/-- The rules that fold operands and operators, but not their conjunctions. -/
def Rule.operandRules : List Rule := [.call, .literal, .allColumns, .column, .membership, .operation]

namespace Row

/-- Whether a row starts with `DISTINCT`. -/
def startsDistinct (row : Row) : Bool := row.head?.any (Rule.leafIs Tree.node .distinctKw)

/-- What the rules on operands see of the content of a bracket. -/
def gist (content : Row) : Row :=
  if content.isEmpty then []
  else [.mk () (.leaf ⟨if content.startsDistinct then .distinctKw else .comma, "", .start⟩)]

theorem gist_eq_iff {row row' : Row} :
    row.gist = row'.gist ↔ row.isEmpty = row'.isEmpty ∧ row.startsDistinct = row'.startsDistinct := by
  have distinct {row : Row} (empty : row.isEmpty = true) : row.startsDistinct = false := by
    rw [List.isEmpty_iff.mp empty]
    rfl
  unfold gist
  cases empty : row.isEmpty <;> cases empty' : row'.isEmpty
  · cases row.startsDistinct <;> cases row'.startsDistinct <;> simp
  · simp
  · simp
  · simp [distinct empty, distinct empty']

theorem startsDistinct_gist (row : Row) : row.gist.startsDistinct = row.startsDistinct := by
  unfold gist
  cases row with
  | nil => rfl
  | cons t row =>
    cases h : startsDistinct (t :: row) <;> rfl

@[simp] theorem gist_gist (row : Row) : row.gist.gist = row.gist := by
  rw [gist_eq_iff]
  refine ⟨?_, startsDistinct_gist row⟩
  unfold gist
  split
  · next empty => rw [empty]; rfl
  · next some => simpa using some

end Row

namespace Tree

/-- The tree with other contents of its brackets, which may depend on the opening token. What stands
between brackets within brackets goes with the content. -/
def refill (change : Token → Row → Row) : Bare → Bare := fold fun _ n =>
  match n with
  | .bracket p => .mk () (.bracket ⟨p.opening, p.closing, change p.opening (p.children.map Prod.fst)⟩)
  | n => .mk () (n.map Prod.snd)

variable {change : Token → Row → Row}

@[simp] theorem refill_span {opening closing : Token} {content : Row} :
    (Row.span opening closing content).refill change = Row.span opening closing (change opening content) := by
  have trees (f : Bare → Bare) : (content.map fun t => (t, f t)).map Prod.fst = content := by
    simp [Function.comp_def]
  rw [refill, Row.span, fold_mk]
  exact congrArg (fun c => Row.span opening closing (change opening c)) (trees _)

theorem refill_mk {n : Node Bare} (plain : n.kind ≠ .bracket) :
    (mk () n).refill change = .mk () (n.map (refill change)) := by
  rw [refill, fold_mk]
  cases n with
  | bracket => exact absurd rfl plain
  | _ =>
    show mk () (Node.map _ (Node.map _ _)) = _
    rw [Node.map_map]
    rfl

@[simp] theorem kind_refill (t : Bare) : (t.refill change).kind = t.kind := by
  obtain ⟨⟨⟩, n⟩ := t
  cases n with
  | bracket p => rw [show mk () (.bracket p) = Row.span p.opening p.closing p.children from rfl, refill_span]; rfl
  | _ =>
    rw [refill_mk (by exact nofun)]
    rfl

/-- The tree with the gist of every content in the place of the content. -/
def hollow : Bare → Bare := refill fun _ => Row.gist

/-- What the rules on operands see of a tree. -/
def flat (t : Bare) : Node Bare :=
  match t.node with
  | .bracket p => .bracket ⟨p.opening, p.closing, Row.gist p.children⟩
  | n => n

theorem flat_of_plain {t : Bare} (plain : t.kind ≠ .bracket) : t.flat = t.node := by
  unfold flat
  split
  · next shown => exact absurd (by rw [kind, shown]; rfl) plain
  · rfl

theorem kind_flat (t : Bare) : t.flat.kind = t.kind := by
  unfold flat
  split
  · next shown => rw [kind, shown]; rfl
  · rfl

theorem token?_flat (t : Bare) : t.flat.token? = t.node.token? := by
  unfold flat
  split
  · next shown => rw [shown]; rfl
  · rfl

end Tree

namespace Rule

/-! ## Through the flat view -/

theorem leafIs_flat : leafIs Tree.flat = leafIs Tree.node := by
  funext kind t
  rw [leafIs, leafIs, Node.tokenKind?, Node.tokenKind?, Tree.token?_flat]

theorem leaf?_flat : leaf? Tree.flat = leaf? Tree.node := by
  funext kind t
  rw [leaf?, leaf?, Tree.token?_flat]

theorem isNode_flat : isNode Tree.flat = isNode Tree.node := by
  funext kind t
  rw [isNode, isNode, Tree.kind_flat, Tree.kind]

theorem isOperand_flat : isOperand Tree.flat = isOperand Tree.node := by
  funext t
  rw [isOperand, isOperand, Node.isExpression, Node.isExpression, Tree.kind_flat, Tree.kind]

theorem mention_flat (t : Bare) : t.flat.mention = t.node.mention := by
  rw [Node.mention, Node.mention, Tree.token?_flat, Tree.kind_flat, Tree.kind]

theorem missingAfter_flat {β : Type} : missingAfter (β := β) Tree.flat = missingAfter Tree.node := by
  funext t wanted
  rw [missingAfter, missingAfter, mention_flat]

theorem takeLeaf?_flat : takeLeaf? Tree.flat = takeLeaf? Tree.node := by
  funext kind row
  cases row with
  | nil => rfl
  | cons t row => rw [takeLeaf?, takeLeaf?, leaf?_flat]

theorem closesOperand_flat : closesOperand Tree.flat = closesOperand Tree.node := by
  funext t
  rw [closesOperand, closesOperand, Node.tokenKind?, Node.tokenKind?, Tree.token?_flat, isOperand_flat]

theorem takeQualifiers_flat (room : Nat) (row : Row) :
    takeQualifiers Tree.flat room row = takeQualifiers Tree.node room row := by
  induction room, row using takeQualifiers.induct Tree.node with
  | case1 =>
    unfold takeQualifiers
    rfl
  | case2 room point isPoint =>
    unfold takeQualifiers
    simp only [leafIs_flat, isPoint]
  | case3 room point isPoint a before notName =>
    unfold takeQualifiers
    simp only [leafIs_flat, leaf?_flat, isPoint, notName]
  | case4 point isPoint a before name isName =>
    unfold takeQualifiers
    simp only [leafIs_flat, leaf?_flat, isPoint, isName]
  | case5 point isPoint a before name room isName ih =>
    unfold takeQualifiers
    simp only [leafIs_flat, leaf?_flat, isPoint, isName, ih]
  | case6 room point before noPoint =>
    unfold takeQualifiers
    simp only [leafIs_flat, noPoint]
    rfl

theorem takeNames_flat (room : Nat) (row : Row) :
    takeNames Tree.flat room row = takeNames Tree.node room row := by
  induction room, row using takeNames.induct Tree.node with
  | case1 =>
    unfold takeNames
    rfl
  | case2 point after isPoint =>
    unfold takeNames
    simp only [leafIs_flat, isPoint]
  | case3 point isPoint room =>
    unfold takeNames
    simp only [leafIs_flat, isPoint]
  | case4 point isPoint room a after notName =>
    unfold takeNames
    simp only [leafIs_flat, leaf?_flat, isPoint, notName]
  | case5 point isPoint room a after name isName ih =>
    unfold takeNames
    simp only [leafIs_flat, leaf?_flat, isPoint, isName, ih]
  | case6 room point after noPoint =>
    unfold takeNames
    simp only [leafIs_flat, noPoint]
    rfl

theorem takeOperator?_flat : takeOperator? Tree.flat = takeOperator? Tree.node := by
  funext row
  cases row with
  | nil => rfl
  | cons t row => simp only [takeOperator?, Tree.token?_flat]

/-- The rules on operands need no more than the flat view. -/
theorem apply_flat {rule : Rule} (listed : rule ∈ operandRules) (focus : Focus Bare) :
    rule.apply Tree.flat focus = rule.apply Tree.node focus := by
  have distinct {t : Bare} (bracket : isNode Tree.node .bracket t = true) :
      t.flat.children.head?.any (leafIs Tree.node .distinctKw) =
        t.node.children.head?.any (leafIs Tree.node .distinctKw) := by
    obtain ⟨⟨⟩, n⟩ := t
    cases n with
    | bracket p =>
      rw [Tree.flat, Tree.node, Node.children_bracket, Node.children_bracket]
      exact Row.startsDistinct_gist p.children
    | _ => cases bracket
  cases rule with
  | call =>
    obtain ⟨left, here, right⟩ := focus
    simp only [apply, applyCall, leaf?_flat, leafIs_flat, isNode_flat]
    cases leaf? Tree.node .symbol here with
    | none => rfl
    | some name =>
      cases right with
      | nil => rfl
      | cons arguments after =>
        dsimp only
        split
        · next isCall => rw [distinct (Bool.and_eq_true_iff.mp isCall).1]
        · rfl
  | literal => simp only [apply, applyLiteral, Tree.token?_flat, closesOperand_flat, takeLeaf?_flat]
  | allColumns => simp only [apply, applyAllColumns, leaf?_flat, takeQualifiers_flat]
  | column => simp only [apply, applyColumn, leaf?_flat, leafIs_flat, takeNames_flat]
  | membership => simp only [apply, applyMembership, isOperand_flat, takeLeaf?_flat, isNode_flat]
  | operation =>
    simp only [apply, applyOperation, Tree.token?_flat, isOperand_flat, takeOperator?_flat, mention_flat,
      missingAfter_flat]
  | _ => exact absurd listed (by decide)

variable {change : Token → Row → Row} (keeps : ∀ opening content, (change opening content).gist = content.gist)

include keeps

/-- The flat view shows other contents of the same gist as it shows the old ones. -/
theorem translates_refill : Translates Tree.flat Tree.flat (Tree.refill change) id where
  node t := by
    rw [Node.mapTokens_id]
    obtain ⟨⟨⟩, n⟩ := t
    cases n with
    | bracket p =>
      show ((Row.span p.opening p.closing p.children).refill change).flat = _
      rw [Tree.refill_span]
      show Node.bracket ⟨_, _, (change p.opening p.children).gist⟩ = .bracket ⟨_, _, (Row.gist p.children).map _⟩
      rw [keeps]
      unfold Row.gist
      split <;> rfl
    | _ =>
      rw [Tree.refill_mk (by exact nofun), Tree.flat_of_plain (by exact nofun), Tree.flat_of_plain (by exact nofun)]
      rfl
  kind _ := rfl
  sign _ := rfl

/-- A rule on operands gives corresponding answers where contents are changed. -/
theorem apply_refill {rule : Rule} (listed : rule ∈ operandRules) (focus : Focus Bare) :
    Agree (Tree.refill change) id (Option.map (Fold.map (Tree.refill change) id)) (rule.apply Tree.node focus)
      (rule.apply Tree.node (focus.map (Tree.refill change))) := by
  have tr := translates_refill keeps
  rw [← apply_flat listed, ← apply_flat listed]
  cases rule with
  | call => exact tr.applyCall_agree focus
  | literal => exact tr.applyLiteral_agree focus
  | allColumns => exact tr.applyAllColumns_agree focus
  | column => exact tr.applyColumn_agree focus
  | membership => exact tr.applyMembership_agree focus
  | operation => exact tr.applyOperation_agree focus
  | _ => exact absurd listed (by decide)

end Rule

namespace Row

variable {rule : Rule} {row row' : Row} {change : Token → Row → Row}

/-- A fold between changed trees makes the changed tree. -/
theorem row_refill {fold : Fold Bare} (plain : fold.node.kind ≠ .bracket) :
    (fold.map (Tree.refill change) id).row = fold.row.map (Tree.refill change) := by
  have origin : Origin.bare id ∘ Origin.map (Tree.refill change) id = Tree.refill change ∘ Origin.bare id := by
    funext o
    cases o with
    | sibling => rfl
    | newTable name =>
      show Tree.mk () (.table _) = (Tree.mk () (.table name)).refill change
      rw [Tree.refill_mk (by exact nofun), TableName.mapTokens, Option.map_id_apply]
      rfl
  have tree : (fold.map (Tree.refill change) id).tree = fold.tree.refill change := by
    rw [Fold.tree, Fold.tree, Tree.refill_mk (by rwa [Node.kind_map]), Fold.map, Node.mapTokens_id, Node.map_map,
      Node.map_map, origin]
  rw [Fold.row, tree, Fold.row, List.map_append, List.map_cons, Fold.map, List.map_reverse]

section Keeps

variable (keeps : ∀ opening content, gist (change opening content) = gist content)

include keeps

/-- A rule on operands declines where it did before contents were changed. -/
theorem DeclinedBefore.refill (listed : rule ∈ Rule.operandRules) {n : Nat} (declined : DeclinedBefore rule n row) :
    DeclinedBefore rule n (row.map (Tree.refill change)) := by
  intro l h r split lt
  obtain ⟨front, back, rfl, front_eq, back_eq⟩ := List.map_eq_append_iff.mp split
  obtain ⟨here, right, rfl, rfl, rfl⟩ := List.map_eq_cons_iff.mp back_eq
  obtain rfl : l = front.reverse.map (Tree.refill change) := by
    rw [List.map_reverse, front_eq, List.reverse_reverse]
  have agree := Rule.apply_refill keeps listed ⟨front.reverse, here, right⟩
  rw [declined front.reverse here right (by simp) (by simpa using lt)] at agree
  generalize result : rule.apply Tree.node (Focus.map _ _) = answer at agree
  cases agree
  exact result

/-- A rule on operands comes to rest as it did before contents were changed. -/
theorem Rests.refill (listed : rule ∈ Rule.operandRules) (rests : Rests rule row row') :
    Rests rule (row.map (Tree.refill change)) (row'.map (Tree.refill change)) := by
  induction rests with
  | @rest row declined =>
    refine .rest (declined_iff.mpr fun n => ?_)
    exact (declined_iff.mp declined n).refill keeps listed
  | @fold left right row' here fold before answer _ ih =>
    have before := before.refill keeps listed
    have agree := Rule.apply_refill keeps listed ⟨left, here, right⟩
    have plain : fold.node.kind ≠ .bracket := by
      rw [Rule.apply_kind answer]
      revert listed
      cases rule <;> decide
    rw [answer] at agree
    generalize result : rule.apply Tree.node (Focus.map _ _) = other at agree
    cases agree
    rw [← row_refill plain] at ih
    rw [List.map_append, List.map_cons, List.map_reverse] at before ⊢
    exact .fold (by simpa using before) result ih

/-- Rules on operands come to rest as they did before contents were changed. -/
theorem RestsAll.refill {rules : List Rule} (listed : rules ⊆ Rule.operandRules) (rests : RestsAll rules row row') :
    RestsAll rules (row.map (Tree.refill change)) (row'.map (Tree.refill change)) := by
  induction rests with
  | nil => exact .nil
  | cons first _ ih =>
    rw [List.cons_subset] at listed
    exact .cons (first.refill keeps listed.1) (ih listed.2)

end Keeps

end Row

/-! ## Trees with one hollow -/

namespace Tree

variable {t u : Bare}

/-- The brackets of a tree that stand in no others, with their contents. -/
def spans : Bare → List (Token × Row) := fold fun _ n =>
  match n with
  | .bracket p => [(p.opening, p.children.map Prod.fst)]
  | n => n.children.flatMap Prod.snd

@[simp] theorem spans_span {opening closing : Token} {content : Row} :
    (Row.span opening closing content).spans = [(opening, content)] := by
  have trees (f : Bare → List (Token × Row)) : (content.map fun t => (t, f t)).map Prod.fst = content := by
    simp [Function.comp_def]
  rw [spans, Row.span, fold_mk]
  exact congrArg (fun c => [(opening, c)]) (trees _)

theorem spans_mk {n : Node Bare} (plain : n.kind ≠ .bracket) : (mk () n).spans = n.children.flatMap spans := by
  rw [spans, fold_mk]
  cases n with
  | bracket => exact absurd rfl plain
  | _ =>
    show List.flatMap Prod.snd (Node.map _ _).children = _
    rw [Node.children_map, List.flatMap_map]

/-- The tokens that open the brackets of a tree that stand in no others. -/
def openings (t : Bare) : List Token := t.spans.map Prod.fst

theorem openings_mk {n : Node Bare} (plain : n.kind ≠ .bracket) :
    (mk () n).openings = n.children.flatMap openings := by
  rw [openings, spans_mk plain, List.map_flatMap]
  rfl

theorem openings_refill (change : Token → Row → Row) (t : Bare) : (t.refill change).openings = t.openings := by
  induction t using Tree.induction with
  | step tag n ih =>
    cases n with
    | bracket p =>
      show ((Row.span p.opening p.closing p.children).refill change).openings =
        (Row.span p.opening p.closing p.children).openings
      rw [refill_span, openings, openings, spans_span, spans_span]
      rfl
    | _ =>
      rw [refill_mk (by exact nofun), openings_mk (by exact nofun), openings_mk (by exact nofun), Node.children_map,
        List.flatMap_map]
      exact List.flatMap_congr ih

/-- Trees of one hollow are brackets of the same tokens with contents of one gist, or layers of one shape
with sub-trees of one hollow. -/
theorem hollow_mk_eq {n m : Node Bare} (same : (mk () n).hollow = (mk () m).hollow) :
    (∃ opening closing content content', mk () n = Row.span opening closing content ∧
      mk () m = Row.span opening closing content' ∧ Row.gist content = Row.gist content') ∨
    n.kind ≠ .bracket ∧ n.shape = m.shape ∧ m.kind ≠ .bracket ∧
      n.children.map hollow = m.children.map hollow := by
  have kind : n.kind = m.kind := by
    have kinds := congrArg Tree.kind same
    rwa [hollow, kind_refill, kind_refill] at kinds
  by_cases bracket : n.kind = .bracket
  · cases n with
    | bracket p =>
      cases m with
      | bracket p' =>
        have same : (Row.span p.opening p.closing p.children).hollow = (Row.span p'.opening p'.closing p'.children).hollow :=
          same
        rw [hollow, refill_span, refill_span] at same
        obtain ⟨opening, closing, gist⟩ : p.opening = p'.opening ∧ p.closing = p'.closing ∧
            Row.gist p.children = Row.gist p'.children := by simpa [Row.span] using same
        refine .inl ⟨p.opening, p.closing, p.children, p'.children, rfl, ?_, gist⟩
        rw [opening, closing]
        rfl
      | _ => cases kind
    | _ => cases bracket
  · rw [hollow, refill_mk bracket, refill_mk (kind ▸ bracket), Tree.mk.injEq] at same
    refine .inr ⟨bracket, ?_, kind ▸ bracket, ?_⟩
    · simpa using congrArg Node.shape same.2
    · have subs := congrArg Node.children same.2
      rwa [Node.children_map, Node.children_map] at subs

theorem openings_eq_of_hollow (same : t.hollow = u.hollow) : t.openings = u.openings := by
  rw [← openings_refill (fun _ => Row.gist) t, ← openings_refill (fun _ => Row.gist) u]
  exact congrArg openings same

/-- Whether a bracket has the token that opens another one, and its gist. -/
def alikeSpan (opening : Token) (content : Row) (s : Token × Row) : Bool :=
  s.1 == opening && (s.2.isEmpty == content.isEmpty && Row.startsDistinct s.2 == content.startsDistinct)

/-- The content that a list of brackets has behind a token, if it has the same gist. -/
def contentIn (spans : List (Token × Row)) (opening : Token) (content : Row) : Row :=
  ((spans.find? (alikeSpan opening content)).map Prod.snd).getD content

theorem gist_contentIn (spans : List (Token × Row)) (opening : Token) (content : Row) :
    Row.gist (contentIn spans opening content) = content.gist := by
  unfold contentIn
  cases found : spans.find? (alikeSpan opening content) with
  | none => rfl
  | some s =>
    have alike := List.find?_some found
    simp only [alikeSpan, Bool.and_eq_true, beq_iff_eq] at alike
    exact Row.gist_eq_iff.mpr alike.2

/-- In a list where no two brackets have one token the content behind each is found. -/
theorem contentIn_of_mem {spans : List (Token × Row)} (once : (spans.map Prod.fst).Nodup) {opening : Token}
    {content content' : Row} (mem : (opening, content') ∈ spans) (same : Row.gist content = Row.gist content') :
    contentIn spans opening content = content' := by
  obtain ⟨empty, distinct⟩ := Row.gist_eq_iff.mp same
  have found : spans.find? (alikeSpan opening content) = some (opening, content') := by
    induction spans with
    | nil => cases mem
    | cons s spans ih =>
      rw [List.map_cons, List.nodup_cons] at once
      rcases List.mem_cons.mp mem with rfl | behind
      · exact List.find?_cons_of_pos (by simp [alikeSpan, empty, distinct])
      · rw [List.find?_cons_of_neg, ih once.2 behind]
        intro alike
        simp only [alikeSpan, Bool.and_eq_true, beq_iff_eq] at alike
        exact once.1 (alike.1 ▸ List.mem_map_of_mem behind)
  rw [contentIn, found]
  rfl

/-- A tree is changed to another of the same hollow, if no two of its brackets have one token. -/
theorem refill_of_hollow_eq (same : t.hollow = u.hollow) (once : t.openings.Nodup) :
    t.refill (contentIn u.spans) = u := by
  have whole {spans : List (Token × Row)} (once : (spans.map Prod.fst).Nodup) {t u : Bare}
      (same : t.hollow = u.hollow) (inside : u.spans ⊆ spans) : t.refill (contentIn spans) = u := by
    induction t using Tree.induction generalizing u with
    | step tag n ih =>
      obtain ⟨⟨⟩, m⟩ := u
      rcases hollow_mk_eq same with ⟨opening, closing, content, content', eq, eq', gists⟩ | ⟨plain, shapes, plain', subs⟩
      · rw [eq'] at inside ⊢
        have listed : (opening, content') ∈ spans := inside (by rw [spans_span]; exact List.mem_singleton_self _)
        rw [show mk tag n = _ from eq, refill_span, contentIn_of_mem once listed gists]
      · rw [spans_mk plain'] at inside
        rw [refill_mk plain, ← Node.map_id' m]
        congr 1
        refine Node.map_eq_map_of_forall₂ shapes ?_
        rw [← List.forall₂_eq_eq_eq, List.forall₂_map_left_iff, List.forall₂_map_right_iff] at subs
        have sub (c : Bare) (listed : c ∈ m.children) : c.spans ⊆ spans := fun s mem =>
          inside (List.mem_flatMap.mpr ⟨c, listed, mem⟩)
        generalize n.children = cs at subs ih
        generalize m.children = ds at subs sub
        induction subs with
        | nil => exact .nil
        | cons same _ ih' =>
          obtain ⟨here, behind⟩ := List.forall_mem_cons.mp ih
          obtain ⟨sub, others⟩ := List.forall_mem_cons.mp sub
          exact .cons (here same sub) (ih' behind others)
  refine whole ?_ same fun _ mem => mem
  rw [← openings, ← openings_eq_of_hollow same]
  exact once

end Tree

end SqlFold
