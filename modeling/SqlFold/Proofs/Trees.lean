import SqlFold.Tree.Fingerprint
import SqlFold.Tree.Outline
import SqlFold.Tree.Render

/-!
# Sub-nodes, induction over trees and trees that look alike

`Node.children` is computed here for every kind of node, so that later proofs need not open the list
of parts. With it come

* `Tree.induction`: a property of all trees, from the sub-trees of a node to the node;
* `Node.map_congr`: a change of the sub-nodes is known by what it does to the sub-nodes that there
  are;
* `Tree.translate`: the tree with other tags and tokens. A translation that keeps the kind and the
  lexeme of every token keeps the text, the outline and the fingerprint of a tree.
-/

namespace SqlFold

variable {ι α β : Type}

namespace Part

@[simp] theorem child?_ofToken? (t : Option Token) : (ofToken? t : Part α).child? = none := by
  cases t <;> rfl

@[simp] theorem child?_ofChild? (c : Option α) : (ofChild? c).child? = c := by cases c <;> rfl

@[simp] theorem child?_token (t : Token) : (Part.token t : Part α).child? = none := rfl

@[simp] theorem child?_child (c : α) : (Part.child c).child? = some c := rfl

@[simp] theorem child?_absent : (Part.absent : Part α).child? = none := rfl

@[simp] theorem child?_mark (b : Bool) : (Part.mark b : Part α).child? = none := rfl

@[simp] theorem child?_comp_child : (child? : Part α → Option α) ∘ child = some := rfl

@[simp] theorem child?_comp_token : (child? : Part α → Option α) ∘ token = fun _ => none := rfl

/-- The sub-nodes of a list of parts, one part after the other. -/
theorem filterMap_child?_cons (p : Part α) (ps : List (Part α)) :
    (p :: ps).filterMap child? = p.child?.toList ++ ps.filterMap child? := by
  cases p <;> rfl

end Part

/-! ## The sub-nodes of each kind -/

namespace Node

@[simp] theorem children_leaf (t : Token) : (leaf t : Node α).children = [] := rfl

@[simp] theorem children_column (c : ColumnName) : (column c : Node α).children = [] := by
  simp [children, parts, Part.filterMap_child?_cons]

@[simp] theorem children_literal (l : Literal) : (literal l : Node α).children = [] := by
  simp [children, parts, Part.filterMap_child?_cons]

@[simp] theorem children_operation (o : Operation α) :
    (operation o).children = [o.left, o.right] := by
  simp [children, parts]

@[simp] theorem children_membership (o : Membership α) :
    (membership o).children = [o.left, o.list] := by
  simp [children, parts, Part.filterMap_child?_cons]

@[simp] theorem children_conjunction (c : Conjunction α) :
    (conjunction c).children = c.parts.map (·.expression) := by
  simp only [children, parts]
  induction c.parts with
  | nil => rfl
  | cons j js ih => simp [ih]

@[simp] theorem children_bracket (p : Bracket α) : (bracket p).children = p.children := by
  simp [children, parts, Part.filterMap_child?_cons]

@[simp] theorem children_call (c : Call α) : (call c).children = [c.arguments] := by
  simp [children, parts, Part.filterMap_child?_cons]

@[simp] theorem children_allColumns (a : AllColumns) : (allColumns a : Node α).children = [] := by
  simp [children, parts, Part.filterMap_child?_cons]

@[simp] theorem children_table (t : TableName) : (table t : Node α).children = [] := by
  simp [children, parts, Part.filterMap_child?_cons]

@[simp] theorem children_fromClause (c : FromClause α) :
    (fromClause c).children = [c.source] := by
  simp [children, parts, Part.filterMap_child?_cons]

@[simp] theorem children_join (j : Join α) :
    (join j).children = j.source :: (j.condition.map (·.expression)).toList := by
  rcases j with ⟨ks, s, a, _ | c⟩ <;> simp [children, parts, Part.filterMap_child?_cons]

@[simp] theorem children_whereClause (c : Restriction α) :
    (whereClause c).children = [c.expression] := rfl

@[simp] theorem children_havingClause (c : Restriction α) :
    (havingClause c).children = [c.expression] := rfl

@[simp] theorem children_groupBy (g : GroupBy α) : (groupBy g).children = g.expressions := by
  simp [children, parts, Part.filterMap_child?_cons]

@[simp] theorem children_orderBy (o : OrderBy α) :
    (orderBy o).children = o.items.map (·.expression) := by
  simp only [children, parts, List.filterMap_cons, Part.child?_token]
  induction o.items with
  | nil => rfl
  | cons i is ih => simp [ih]

@[simp] theorem children_select (s : Select α) :
    (select s).children =
      s.items.map (·.expression) ++ s.source.toList ++ s.joins ++ s.filter.toList
        ++ s.grouping.toList ++ s.having.toList ++ s.ordering.toList := by
  have items : ∀ is : List (Projection α),
      (is.flatMap fun i => [Part.child i.expression, Part.ofToken? i.aliasName]).filterMap
        Part.child? = is.map (·.expression) := by
    intro is
    induction is with
    | nil => rfl
    | cons i is ih => simp [ih]
  simp [children, parts, Part.filterMap_child?_cons, items]

@[simp] theorem children_update (u : Update α) :
    (update u).children =
      u.table :: u.joins ++ u.assignments ++ u.filter.toList ++ u.ordering.toList := by
  simp [children, parts, Part.filterMap_child?_cons]

@[simp] theorem children_root (cs : List α) : (root cs).children = cs := by
  simp [children, parts]

/-- The children of a branch are its sub-nodes. -/
theorem children_of_branch? {n : Node α} {cs : List α} (h : n.branch? = some cs) :
    n.children = cs := by
  cases n <;> cases h <;> simp

@[simp] theorem branch?_withBranch {n : Node α} (cs : List α) (h : n.isBranch = true) :
    (n.withBranch cs).branch? = some cs := by
  cases n <;> first | rfl | cases h

/-- In a branch the children are changed. -/
theorem map_of_branch? {n : Node α} {cs : List α} (h : n.branch? = some cs) (f : α → α) :
    n.map f = n.withBranch (cs.map f) := by
  cases n <;> cases h <;> rfl

/-- A branch with its own children is the branch. -/
theorem withBranch_self {n : Node α} {cs : List α} (h : n.branch? = some cs) :
    n.withBranch cs = n := by
  cases n <;> cases h <;> rfl

/-- Changes that agree on the sub-nodes of a node agree on the node. -/
theorem map_congr {f g : α → β} {n : Node α} (h : ∀ c ∈ n.children, f c = g c) :
    n.map f = n.map g := by
  cases n with
  | conjunction c =>
    rcases c with ⟨⟨o₁, e₁⟩, ⟨o₂, e₂⟩, rest⟩
    simp only [children_conjunction, Conjunction.parts, List.map_cons, List.forall_mem_cons,
      List.forall_mem_map] at h
    simp only [map, Junct.map, h.1, h.2.1, conjunction.injEq, Conjunction.mk.injEq, true_and]
    exact List.map_congr_left fun j hj => by rw [h.2.2 j hj]
  | join j =>
    rcases j with ⟨ks, s, a, _ | c⟩ <;>
      simp_all [map, Restriction.map]
  | select s =>
    rcases s with ⟨k, d, is, s, js, f, g, hv, o⟩
    simp only [children_select, List.append_assoc, List.mem_append, List.mem_map,
      Option.mem_toList] at h
    simp only [map, select.injEq, Select.mk.injEq, true_and]
    refine ⟨List.map_congr_left fun i hi => ?_, Option.map_congr fun c hc => ?_,
      List.map_congr_left fun c hc => ?_, Option.map_congr fun c hc => ?_,
      Option.map_congr fun c hc => ?_, Option.map_congr fun c hc => ?_,
      Option.map_congr fun c hc => ?_⟩
    · simp only [Projection.map, h i.expression (.inl ⟨i, hi, rfl⟩)]
    all_goals exact h c (by simp_all)
  | update u =>
    rcases u with ⟨k, t, a, js, s, as, f, o⟩
    simp only [children_update, List.append_assoc, List.cons_append, List.mem_cons,
      List.mem_append, Option.mem_toList] at h
    simp only [map, update.injEq, Update.mk.injEq, true_and]
    refine ⟨h t (.inl rfl), List.map_congr_left fun c hc => ?_,
      List.map_congr_left fun c hc => ?_, Option.map_congr fun c hc => ?_,
      Option.map_congr fun c hc => ?_⟩
    all_goals exact h c (by simp_all)
  | _ => simp_all [map, Restriction.map, SortKey.map]

/-- The sub-nodes of a layer are smaller than the layer. -/
theorem sizeOf_lt_of_mem_children [SizeOf α] {n : Node α} {c : α} (h : c ∈ n.children) :
    sizeOf c < sizeOf n := by
  cases n with
  | conjunction j =>
    rcases j with ⟨⟨o₁, e₁⟩, ⟨o₂, e₂⟩, rest⟩
    simp only [children_conjunction, Conjunction.parts, List.map_cons, List.mem_cons,
      List.mem_map] at h
    rcases h with rfl | rfl | ⟨j, hj, rfl⟩
    · simp; omega
    · simp; omega
    · have := List.sizeOf_lt_of_mem hj
      cases j
      simp at this ⊢
      omega
  | join j =>
    rcases j with ⟨ks, s, a, _ | ⟨w, e⟩⟩ <;> simp at h
    · subst h; simp; omega
    · rcases h with rfl | rfl <;> simp <;> omega
  | groupBy g =>
    have := List.sizeOf_lt_of_mem (children_groupBy g ▸ h)
    cases g
    simp at this ⊢
    omega
  | bracket p =>
    have := List.sizeOf_lt_of_mem (children_bracket p ▸ h)
    cases p
    simp at this ⊢
    omega
  | root cs =>
    have := List.sizeOf_lt_of_mem (children_root cs ▸ h)
    simp at this ⊢
    omega
  | orderBy o =>
    simp only [children_orderBy, List.mem_map] at h
    obtain ⟨i, hi, rfl⟩ := h
    have := List.sizeOf_lt_of_mem hi
    cases o; cases i
    simp at this ⊢
    omega
  | select s =>
    rcases s with ⟨k, d, is, s, js, f, g, hv, o⟩
    simp only [children_select, List.append_assoc, List.mem_append, List.mem_map,
      Option.mem_toList] at h
    simp only [select.sizeOf_spec, Select.mk.sizeOf_spec]
    rcases h with ⟨i, hi, rfl⟩ | rfl | hc | rfl | rfl | rfl | rfl
    · have := List.sizeOf_lt_of_mem hi
      cases i
      simp at this ⊢
      omega
    · simp; omega
    · have := List.sizeOf_lt_of_mem hc
      omega
    all_goals simp; omega
  | update u =>
    rcases u with ⟨k, t, a, js, s, as, f, o⟩
    simp only [children_update, List.append_assoc, List.cons_append, List.mem_cons,
      List.mem_append, Option.mem_toList] at h
    simp only [update.sizeOf_spec, Update.mk.sizeOf_spec]
    rcases h with rfl | hc | hc | rfl | rfl
    · omega
    · have := List.sizeOf_lt_of_mem hc
      omega
    · have := List.sizeOf_lt_of_mem hc
      omega
    all_goals simp; omega
  | operation o => cases o; simp at h; rcases h with rfl | rfl <;> simp <;> omega
  | membership o => cases o; simp at h; rcases h with rfl | rfl <;> simp <;> omega
  | call c => cases c; simp at h; subst h; simp; omega
  | fromClause c => cases c; simp at h; subst h; simp; omega
  | whereClause c => cases c; simp at h; subst h; simp; omega
  | havingClause c => cases c; simp at h; subst h; simp; omega
  | _ => simp at h

end Node

/-! ## Induction over trees -/

/-- A property holds of every tree if it passes from the sub-trees of a node to the node. -/
theorem Tree.induction {P : Tree ι → Prop}
    (step : ∀ tag n, (∀ c ∈ n.children, P c) → P (.mk tag n)) (t : Tree ι) : P t := by
  obtain ⟨tag, n⟩ := t
  apply step
  intro c hc
  have := Node.sizeOf_lt_of_mem_children hc
  exact Tree.induction step c
  termination_by sizeOf t
  decreasing_by
    simp only [mk.sizeOf_spec]
    omega

/-! ## Other tokens -/

/-- Changes the token of a part. -/
def Part.mapToken (h : Token → Token) : Part α → Part α
  | .token t => .token (h t)
  | p => p

/-- Changes the keyword. -/
def Restriction.mapTokens (h : Token → Token) (c : Restriction α) : Restriction α :=
  ⟨h c.keyword, c.expression⟩

namespace Node

/-- Changes the tokens of a layer. -/
def mapTokens (h : Token → Token) : Node α → Node α
  | .leaf t => .leaf (h t)
  | .column c => .column ⟨c.schema.map h, c.table.map h, h c.column⟩
  | .literal l => .literal ⟨l.sign.map h, h l.value⟩
  | .operation o => .operation ⟨o.left, o.operator.map h, o.right⟩
  | .membership o => .membership ⟨o.left, o.negation.map h, h o.keyword, o.list⟩
  | .conjunction c =>
    let junct (j : Junct α) : Junct α := ⟨j.operator.map h, j.expression⟩
    .conjunction ⟨junct c.first, junct c.second, c.rest.map junct⟩
  | .bracket p => .bracket ⟨h p.opening, h p.closing, p.children⟩
  | .call c => .call ⟨h c.name, c.distinct, c.arguments⟩
  | .allColumns a => .allColumns ⟨a.schema.map h, a.table.map h, h a.star⟩
  | .table t => .table ⟨t.schema.map h, h t.name⟩
  | .fromClause c => .fromClause ⟨h c.keyword, c.source, c.aliasName.map h⟩
  | .join j =>
    .join ⟨j.keywords.map h, j.source, j.aliasName.map h, j.condition.map (·.mapTokens h)⟩
  | .whereClause c => .whereClause (c.mapTokens h)
  | .havingClause c => .havingClause (c.mapTokens h)
  | .groupBy g => .groupBy ⟨h g.group, h g.byKeyword, g.expressions⟩
  | .orderBy o =>
    .orderBy ⟨h o.order, h o.byKeyword, o.items.map fun i => ⟨i.expression, i.direction.map h⟩⟩
  | .select s =>
    .select ⟨h s.keyword, s.distinct.map h, s.items.map fun i => ⟨i.expression, i.aliasName.map h⟩,
      s.source, s.joins, s.filter, s.grouping, s.having, s.ordering⟩
  | .update u =>
    .update ⟨h u.keyword, u.table, u.aliasName.map h, u.joins, h u.setKeyword, u.assignments,
      u.filter, u.ordering⟩
  | .root children => .root children

variable (h : Token → Token)

@[simp] theorem kind_mapTokens (n : Node α) : (n.mapTokens h).kind = n.kind := by
  cases n <;> rfl

@[simp] theorem token?_mapTokens (n : Node α) : (n.mapTokens h).token? = n.token?.map h := by
  cases n <;> rfl

@[simp] theorem branch?_mapTokens (n : Node α) : (n.mapTokens h).branch? = n.branch? := by
  cases n <;> rfl

/-- The tokens of a layer and its sub-nodes are changed independently. -/
theorem map_mapTokens (f : α → β) (n : Node α) :
    (n.mapTokens h).map f = (n.map f).mapTokens h := by
  cases n <;>
    simp [map, mapTokens, Junct.map, SortKey.map, Projection.map, Restriction.map,
      Restriction.mapTokens, Function.comp_def]

/-- Changing no token changes nothing. -/
@[simp] theorem mapTokens_id (n : Node α) : n.mapTokens id = n := by
  cases n <;> simp [mapTokens, Restriction.mapTokens]

/-- Changing tokens changes them in the list of parts. -/
theorem parts_mapTokens (n : Node α) : (n.mapTokens h).parts = n.parts.map (Part.mapToken h) := by
  have ofToken? (t : Option Token) :
      (Part.ofToken? (t.map h) : Part α) = (Part.ofToken? t).mapToken h := by
    cases t <;> rfl
  have ofChild? (c : Option α) : (Part.ofChild? c).mapToken h = Part.ofChild? c := by
    cases c <;> rfl
  have token (t : Token) : (Part.token t : Part α).mapToken h = .token (h t) := rfl
  have child (c : α) : (Part.child c).mapToken h = .child c := rfl
  have mark (b : Bool) : (Part.mark b : Part α).mapToken h = .mark b := rfl
  have absent : (Part.absent : Part α).mapToken h = .absent := rfl
  cases n with
  | join j =>
    rcases j with ⟨ks, s, a, _ | c⟩ <;>
      simp [parts, mapTokens, ofToken?, Restriction.mapTokens, token, child, absent,
        Function.comp_def]
  | _ =>
    simp [parts, mapTokens, Conjunction.parts, ofToken?, ofChild?, Restriction.mapTokens, token,
      child, mark, List.map_flatMap, List.flatMap_map, Function.comp_def]

/-- The sub-nodes do not depend on the tokens. -/
@[simp] theorem children_mapTokens (n : Node α) : (n.mapTokens h).children = n.children := by
  rw [children, children, parts_mapTokens, List.filterMap_map]
  congr 1
  funext p
  cases p <;> rfl

/-- The first token depends on what is found below the sub-nodes that there are. -/
theorem leadingToken?_congr {f g : α → Option Token} {n : Node α}
    (agree : ∀ c ∈ n.children, f c = g c) : n.leadingToken? f = n.leadingToken? g := by
  have same : n.map f = n.map g := map_congr agree
  have hf := leadingToken?_map id f n
  have hg := leadingToken?_map id g n
  rw [Function.id_comp] at hf hg
  rw [← hf, ← hg, same]

/-- The first token is the changed one if it belongs to the layer. -/
theorem leadingToken?_mapTokens (below : α → Option Token) (n : Node α) :
    (n.mapTokens h).leadingToken? (fun c => (below c).map h) = (n.leadingToken? below).map h := by
  rw [leadingToken?, leadingToken?, parts_mapTokens]
  induction n.parts with
  | nil => rfl
  | cons p ps ih =>
    cases p with
    | child c => cases hc : below c <;> simp_all [Part.mapToken]
    | _ => simp_all [Part.mapToken]

end Node

namespace Tree

variable {κ : Type} (h : Token → Token) (g : ι → κ)

/-- The tree with other tokens and tags. -/
def translate : Tree ι → Tree κ :=
  fold fun tag n => mk (g tag) ((n.map Prod.snd).mapTokens h)

/-- The equation of a translation. -/
theorem translate_mk (tag : ι) (n : Node (Tree ι)) :
    (mk tag n).translate h g = mk (g tag) ((n.map (translate h g)).mapTokens h) := by
  simp [translate, fold_mk, Node.map_map, Function.comp_def]

@[simp] theorem node_translate (t : Tree ι) :
    (t.translate h g).node = (t.node.map (translate h g)).mapTokens h := by
  cases t
  rw [translate_mk]
  rfl

@[simp] theorem tag_translate (t : Tree ι) : (t.translate h g).tag = g t.tag := by
  cases t
  rw [translate_mk]
  rfl

@[simp] theorem kind_translate (t : Tree ι) : (t.translate h g).kind = t.kind := by
  simp [kind]

/-- The first token is translated. -/
theorem leadingToken?_translate (t : Tree ι) :
    (t.translate h g).leadingToken? = t.leadingToken?.map h := by
  induction t using Tree.induction with
  | step tag n ih =>
    rw [translate_mk, leadingToken?_mk, leadingToken?_mk, ← Node.map_mapTokens,
      Node.leadingToken?_map, ← Node.leadingToken?_mapTokens]
    apply Node.leadingToken?_congr
    intro c hc
    exact ih c (by simpa using hc)

/-- The place of a tree is found at its first token. -/
theorem position_translate_id (t : Tree ι) : (t.translate id g).position = t.position := by
  simp [position, leadingToken?_translate]

/-- The shape does not depend on tokens and tags. -/
theorem levels_translate (t : Tree ι) : (t.translate h g).levels = t.levels := by
  induction t using Tree.induction with
  | step tag n ih =>
    rw [translate_mk, levels_mk, levels_mk]
    simp only [Node.kind_mapTokens, Node.kind_map, Node.children_mapTokens, Node.children_map,
      List.flatMap_map, List.cons.injEq, true_and]
    simp only [List.flatMap]
    congr 1
    exact List.map_congr_left fun c hc => by rw [ih c hc]

/-- The outline does not depend on tokens and tags. -/
theorem outline_translate (t : Tree ι) : (t.translate h g).outline = t.outline := by
  rw [outline, outline, levels_translate]

end Tree

/-- The text of a layer depends on few things of the sub-trees beside their texts. -/
theorem Render.layer_map {κ : Type} {g : Tree ι → Tree κ} (kind : ∀ t, (g t).kind = t.kind)
    (tokenKind? : ∀ t, (g t).node.tokenKind? = t.node.tokenKind?) (n : Node (Tree ι × String)) :
    Render.layer (n.map (Prod.map g (·))) = Render.layer n := by
  have sequence (cs : List (Tree ι × String)) :
      Render.sequence (cs.map (Prod.map g (·))) = Render.sequence cs := by
    suffices after : ∀ written, Render.sequenceAfter written
        (cs.map (Prod.map g (·))) = Render.sequenceAfter written cs from
      after ""
    induction cs with
    | nil => intro written; rfl
    | cons c cs ih =>
      intro written
      obtain ⟨t, text⟩ := c
      have glued : Render.isGlued (g t) = Render.isGlued t := by
        rw [Render.isGlued, Render.isGlued, tokenKind?]
      simp only [List.map_cons, Prod.map_apply, Render.sequenceAfter, glued, ih]
  have junct (j : Junct (Tree ι × String)) :
      Render.junct (j.map (Prod.map g (·))) = Render.junct j := by
    simp [Render.junct, Junct.map, kind]
  have restriction (c : Restriction (Tree ι × String)) :
      Render.restriction (c.map (Prod.map g (·))) = Render.restriction c := rfl
  have projection (i : Projection (Tree ι × String)) :
      Render.projection (i.map (Prod.map g (·))) = Render.projection i := rfl
  have optional (c : Option (Tree ι × String)) :
      (c.map (Prod.map g (·))).toList.map (·.2) = c.toList.map (·.2) := by
    cases c <;> rfl
  cases n <;>
    simp [Node.map, Render.layer, Conjunction.parts, SortKey.map, sequence, junct, restriction,
      projection, optional, Function.comp_def]

/-! ## Tokens that look alike -/

/-- Whether a change of tokens keeps everything but positions. -/
structure KeepsLooks (h : Token → Token) : Prop where
  kind : ∀ t, (h t).kind = t.kind
  lexeme : ∀ t, (h t).lexeme = t.lexeme

namespace KeepsLooks

variable {h : Token → Token} (keeps : KeepsLooks h)

/-- Keeping every token keeps looks. -/
theorem refl : KeepsLooks id := ⟨fun _ => rfl, fun _ => rfl⟩

include keeps

/-- A sketch of parts shows nothing of the positions. -/
theorem sketch_mapToken (ps : List (Part Fingerprint)) :
    Fingerprint.sketch (ps.map (Part.mapToken h)) = Fingerprint.sketch ps := by
  induction ps with
  | nil => rfl
  | cons p ps ih =>
    cases p <;> simp [Part.mapToken, Fingerprint.sketch, ih, keeps.kind, keeps.lexeme]

/-- Trees that look alike have one fingerprint. -/
theorem fingerprint_translate {κ : Type} (g : ι → κ) (t : Tree ι) :
    (t.translate h g).fingerprint = t.fingerprint := by
  induction t using Tree.induction with
  | step tag n ih =>
    rw [Tree.translate_mk, Tree.fingerprint_mk, Tree.fingerprint_mk, Node.map_mapTokens,
      Node.map_map]
    have same : n.map (Tree.fingerprint ∘ Tree.translate h g) = n.map Tree.fingerprint :=
      Node.map_congr ih
    rw [same, Fingerprint.layer, Node.parts_mapTokens, keeps.sketch_mapToken,
      Node.kind_mapTokens]
    rfl

/-- The text of a layer shows nothing of the positions. -/
theorem layer_mapTokens (n : Node (Tree ι × String)) :
    Render.layer (n.mapTokens h) = Render.layer n := by
  have dotted (qualifiers : List (Option Token)) (name : Token) :
      Render.dotted (qualifiers.map (·.map h)) (h name) = Render.dotted qualifiers name := by
    have present : (qualifiers.map (·.map h)).filterMap (·) = (qualifiers.filterMap (·)).map h := by
      induction qualifiers with
      | nil => rfl
      | cons q qs ih => cases q <;> simp [ih]
    simp only [Render.dotted]
    rw [show @id (Option Token) = (·) from rfl, present]
    simp [keeps.lexeme, Function.comp_def]
  have optional (t : Option Token) : Render.optional (t.map h) = Render.optional t := by
    cases t <;> simp [Render.optional, keeps.lexeme]
  have restriction (c : Restriction (Tree ι × String)) :
      Render.restriction (c.mapTokens h) = Render.restriction c := by
    simp [Render.restriction, Restriction.mapTokens, keeps.lexeme]
  have junct (j : Junct (Tree ι × String)) :
      Render.junct ⟨j.operator.map h, j.expression⟩ = Render.junct j := by
    cases ho : j.operator <;> simp [Render.junct, keeps.lexeme, ho]
  have projection (i : Projection (Tree ι × String)) :
      Render.projection ⟨i.expression, i.aliasName.map h⟩ = Render.projection i := by
    cases ha : i.aliasName <;> simp [Render.projection, keeps.lexeme, ha]
  cases n with
  | column c => exact dotted [c.schema, c.table] c.column
  | allColumns a => exact dotted [a.schema, a.table] a.star
  | table t => exact dotted [t.schema] t.name
  | _ =>
    simp [Node.mapTokens, Render.layer, Render.labelled, Conjunction.parts, keeps.lexeme,
      optional, restriction, junct, projection, Function.comp_def]

/-- What tells a child that is attached to the one before it is kept. -/
theorem tokenKind?_translate {κ : Type} (g : ι → κ) (t : Tree ι) :
    (t.translate h g).node.tokenKind? = t.node.tokenKind? := by
  have token? : (t.translate h g).node.token? = t.node.token?.map h := by simp
  rw [Node.tokenKind?, Node.tokenKind?, token?, Option.map_map]
  exact Option.map_congr fun t _ => keeps.kind t

/-- Trees that look alike have one text. -/
theorem render_translate {κ : Type} (g : ι → κ) (t : Tree ι) :
    (t.translate h g).render = t.render := by
  induction t using Tree.induction with
  | step tag n ih =>
    have texts : n.map (fun c => (c.translate h g, (c.translate h g).render)) =
        n.map (fun c => (c.translate h g, c.render)) :=
      Node.map_congr fun c hc => by rw [ih c hc]
    have split : n.map (fun c => (c.translate h g, c.render)) =
        (n.map fun c => (c, c.render)).map (Prod.map (Tree.translate h g) (·)) := by
      rw [Node.map_map]
      rfl
    rw [Tree.translate_mk, Tree.render_mk, Tree.render_mk, Node.map_mapTokens,
      keeps.layer_mapTokens, Node.map_map, Function.comp_def, texts, split,
      Render.layer_map (Tree.kind_translate h g) (keeps.tokenKind?_translate g)]

end KeepsLooks

end SqlFold
