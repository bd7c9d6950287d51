import SqlFold.Proofs.Trees

/-!
# What a tree spells

A tree keeps the tokens that carry meaning. The others were there when it was folded:

* the points inside the name of a column, of a table or before a `*`;
* the commas between the entries of a list;
* the `AS` before an alias.

`Node.Written n ps` puts them back for one layer: `ps` are its tokens and sub-nodes in source order,
with a point, comma or `AS` wherever one belongs. `Tree.Spells t ts` does so for a tree: `ts` is a
list of tokens that the tree stands for. A tree spells more than one list, since it does not
remember whether an alias had an `AS`, but `Tree.tokens_sublist` finds its own tokens in each.
-/

namespace SqlFold

variable {ι α β : Type}

/-- A piece of a layer with all its tokens. -/
inductive Piece (α : Type) where
  | token (token : Token)
  /-- A token that stands for a column of its own until it is made an alias. -/
  | name (token : Token)
  | child (child : α)

namespace Piece

/-- Changes the sub-node. -/
def map (f : α → β) : Piece α → Piece β
  | .token t => .token t
  | .name t => .name t
  | .child c => .child (f c)

/-- The sub-node of a piece. -/
def child? : Piece α → Option α
  | .child c => some c
  | _ => none

/-- An optional token. -/
def ofToken? (t : Option Token) : List (Piece α) := t.toList.map .token

/-- An optional sub-node. -/
def ofChild? (c : Option α) : List (Piece α) := c.toList.map .child

@[simp] theorem map_token (f : α → β) (t : Token) : (token t).map f = token t := rfl

@[simp] theorem map_name (f : α → β) (t : Token) : (name t).map f = name t := rfl

@[simp] theorem map_child (f : α → β) (c : α) : (child c).map f = child (f c) := rfl

@[simp] theorem map_comp_token (f : α → β) : map f ∘ token = token := rfl

@[simp] theorem map_comp_child (f : α → β) : map f ∘ child = child ∘ f := rfl

@[simp] theorem map_ofToken? (f : α → β) (t : Option Token) :
    (ofToken? t).map (map f) = ofToken? t := by
  cases t <;> rfl

@[simp] theorem map_ofChild? (f : α → β) (c : Option α) :
    (ofChild? c).map (map f) = ofChild? (c.map f) := by
  cases c <;> rfl

end Piece

/-! ## One layer -/

/-- Names joined by points. -/
inductive Dotted : List Token → List (Piece α) → Prop
  | single (name : Token) : Dotted [name] [.token name]
  | cons {name point : Token} {names : List Token} {ps : List (Piece α)} :
      point.kind = .dot → Dotted names ps → Dotted (name :: names) (.token name :: .token point :: ps)

/-- Entries with a comma after each but the last, where `entry` says how one is written. -/
inductive Listed (entry : β → List (Piece α) → Prop) : List β → List (Piece α) → Prop
  | single {b : β} {ps : List (Piece α)} : entry b ps → Listed entry [b] ps
  | cons {b : β} {bs : List β} {comma : Token} {ps qs : List (Piece α)} :
      entry b ps → comma.kind = .comma → Listed entry bs qs →
        Listed entry (b :: bs) (ps ++ .token comma :: qs)

/-- An alias, which may stand alone unless `AS` is required. -/
inductive Aliased (required : Bool) : Option Token → List (Piece α) → Prop
  | none : Aliased required none []
  | bare {name : Token} : required = false → Aliased required (some name) [.name name]
  | worded {word name : Token} : word.kind = .asKw →
      Aliased required (some name) [.token word, .name name]

/-- An entry of a select list with its alias. -/
inductive Projected : Projection α → List (Piece α) → Prop
  | mk {e : α} {aliasName : Option Token} {as : List (Piece α)} :
      Aliased true aliasName as → Projected ⟨e, aliasName⟩ (.child e :: as)

namespace Restriction

/-- The keyword and its expression. -/
def pieces (c : Restriction α) : List (Piece α) := [.token c.keyword, .child c.expression]

end Restriction

/-- The pieces of a layer in source order, where every token is put back that the layer drops. -/
inductive Node.Written : Node α → List (Piece α) → Prop
  | leaf (t : Token) : Written (.leaf t) [.token t]
  | column {c : ColumnName} {ps : List (Piece α)} :
      Dotted (c.schema.toList ++ c.table.toList ++ [c.column]) ps → Written (.column c) ps
  | literal (l : Literal) : Written (.literal l) (Piece.ofToken? l.sign ++ [.token l.value])
  | operation (o : Operation α) :
      Written (.operation o) (.child o.left :: o.operator.map .token ++ [.child o.right])
  | membership (o : Membership α) :
      Written (.membership o)
        (.child o.left :: Piece.ofToken? o.negation ++ [.token o.keyword, .child o.list])
  | conjunction (c : Conjunction α) :
      Written (.conjunction c)
        (c.parts.flatMap fun j => Piece.ofToken? j.operator ++ [.child j.expression])
  | bracket (p : Bracket α) :
      Written (.bracket p) (.token p.opening :: p.children.map .child ++ [.token p.closing])
  | call (c : Call α) : Written (.call c) [.token c.name, .child c.arguments]
  | allColumns {a : AllColumns} {ps : List (Piece α)} :
      Dotted (a.schema.toList ++ a.table.toList ++ [a.star]) ps → Written (.allColumns a) ps
  | table {t : TableName} {ps : List (Piece α)} :
      Dotted (t.schema.toList ++ [t.name]) ps → Written (.table t) ps
  | fromClause {c : FromClause α} {as : List (Piece α)} :
      Aliased false c.aliasName as →
        Written (.fromClause c) ([.token c.keyword, .child c.source] ++ as)
  | join {j : Join α} {as : List (Piece α)} :
      Aliased false j.aliasName as →
        Written (.join j)
          (j.keywords.map .token ++ .child j.source :: as
            ++ (j.condition.map Restriction.pieces).getD [])
  | whereClause (c : Restriction α) : Written (.whereClause c) c.pieces
  | havingClause (c : Restriction α) : Written (.havingClause c) c.pieces
  | groupBy {g : GroupBy α} {ps : List (Piece α)} :
      Listed (fun e qs => qs = [.child e]) g.expressions ps →
        Written (.groupBy g) ([.token g.group, .token g.byKeyword] ++ ps)
  | orderBy {o : OrderBy α} {ps : List (Piece α)} :
      Listed (fun i qs => qs = .child i.expression :: Piece.ofToken? i.direction) o.items ps →
        Written (.orderBy o) ([.token o.order, .token o.byKeyword] ++ ps)
  | select {s : Select α} {ps : List (Piece α)} :
      Listed Projected s.items ps →
        Written (.select s)
          (.token s.keyword :: Piece.ofToken? s.distinct ++ ps ++ Piece.ofChild? s.source
            ++ s.joins.map .child ++ Piece.ofChild? s.filter ++ Piece.ofChild? s.grouping
            ++ Piece.ofChild? s.having ++ Piece.ofChild? s.ordering)
  | update {u : Update α} {as ps : List (Piece α)} :
      Aliased false u.aliasName as → Listed (fun e qs => qs = [.child e]) u.assignments ps →
        Written (.update u)
          ([.token u.keyword, .child u.table] ++ as ++ u.joins.map .child
            ++ .token u.setKeyword :: ps ++ Piece.ofChild? u.filter ++ Piece.ofChild? u.ordering)
  | root (children : List α) : Written (.root children) (children.map .child)

/-! ## Changing the sub-nodes -/

section Map

variable (f : α → β)

theorem Dotted.map {names : List Token} {ps : List (Piece α)} (h : Dotted names ps) :
    Dotted names (ps.map (Piece.map f)) := by
  induction h with
  | single name => exact .single name
  | cons point _ ih => exact .cons point ih

theorem Aliased.map {required : Bool} {aliasName : Option Token} {ps : List (Piece α)}
    (h : Aliased required aliasName ps) : Aliased required aliasName (ps.map (Piece.map f)) := by
  cases h with
  | none => exact .none
  | bare optional => exact .bare optional
  | worded word => exact .worded word

theorem Listed.map {γ δ : Type} (g : γ → δ) {entry : γ → List (Piece α) → Prop}
    {entry' : δ → List (Piece β) → Prop}
    (each : ∀ b ps, entry b ps → entry' (g b) (ps.map (Piece.map f)))
    {bs : List γ} {ps : List (Piece α)} (h : Listed entry bs ps) :
    Listed entry' (bs.map g) (ps.map (Piece.map f)) := by
  induction h with
  | single first => exact .single (each _ _ first)
  | cons first comma _ ih =>
    rw [List.map_append]
    exact .cons (each _ _ first) comma ih

/-- The pieces of a layer with other sub-nodes are the pieces with other sub-nodes. -/
theorem Node.Written.map {n : Node α} {ps : List (Piece α)} (h : n.Written ps) :
    (n.map f).Written (ps.map (Piece.map f)) := by
  cases h with
  | leaf t => exact .leaf t
  | column names => exact .column (names.map f)
  | literal l => simpa [Node.map] using @Written.literal β l
  | operation o => simpa [Node.map] using Written.operation ⟨f o.left, o.operator, f o.right⟩
  | membership o =>
    have := Written.membership ⟨f o.left, o.negation, o.keyword, f o.list⟩
    simpa [Node.map] using this
  | conjunction c =>
    have := Written.conjunction ⟨c.first.map f, c.second.map f, c.rest.map (·.map f)⟩
    simpa [Node.map, Conjunction.parts, Junct.map, List.map_flatMap, List.flatMap_map] using this
  | bracket p => simpa [Node.map] using Written.bracket ⟨p.opening, p.closing, p.children.map f⟩
  | call c => exact .call ⟨c.name, c.distinct, f c.arguments⟩
  | allColumns names => exact .allColumns (names.map f)
  | table names => exact .table (names.map f)
  | @fromClause c as named =>
    exact Written.fromClause (c := ⟨c.keyword, f c.source, c.aliasName⟩) (named.map f)
  | @join j as named =>
    have := Written.join (j := ⟨j.keywords, f j.source, j.aliasName, j.condition.map (·.map f)⟩)
      (named.map f)
    cases hc : j.condition <;>
      simpa [Node.map, hc, Restriction.map, Restriction.pieces] using this
  | whereClause c => exact .whereClause (c.map f)
  | havingClause c => exact .havingClause (c.map f)
  | @groupBy g ps entries =>
    have : Listed (fun e qs => qs = [.child e]) (g.expressions.map f) (ps.map (Piece.map f)) :=
      entries.map f _ (by rintro b _ rfl; rfl)
    exact Written.groupBy (g := ⟨g.group, g.byKeyword, g.expressions.map f⟩) this
  | @orderBy o ps entries =>
    have : Listed (fun i qs => qs = .child i.expression :: Piece.ofToken? i.direction)
        (o.items.map (SortKey.map f)) (ps.map (Piece.map f)) :=
      entries.map f _ (by rintro b _ rfl; simp [SortKey.map])
    exact Written.orderBy (o := ⟨o.order, o.byKeyword, o.items.map (·.map f)⟩) this
  | @select s ps entries =>
    have : Listed Projected (s.items.map (Projection.map f)) (ps.map (Piece.map f)) :=
      entries.map f _ (by rintro _ _ ⟨named⟩; exact .mk (named.map f))
    have := Written.select (s := ⟨s.keyword, s.distinct, s.items.map (·.map f), s.source.map f,
      s.joins.map f, s.filter.map f, s.grouping.map f, s.having.map f, s.ordering.map f⟩) this
    simpa [Node.map] using this
  | @update u as ps named entries =>
    have : Listed (fun e qs => qs = [.child e]) (u.assignments.map f) (ps.map (Piece.map f)) :=
      entries.map f _ (by rintro b _ rfl; rfl)
    have := Written.update (u := ⟨u.keyword, f u.table, u.aliasName, u.joins.map f, u.setKeyword,
      u.assignments.map f, u.filter.map f, u.ordering.map f⟩) (named.map f) this
    simpa [Node.map] using this
  | root children => simpa [Node.map] using Written.root (children.map f)

theorem Dotted.of_map {names : List Token} {qs : List (Piece β)} (h : Dotted names qs) :
    ∃ ps : List (Piece α), Dotted names ps ∧ qs = ps.map (Piece.map f) := by
  induction h with
  | single name => exact ⟨_, .single name, rfl⟩
  | cons point _ ih =>
    obtain ⟨ps, names', rfl⟩ := ih
    exact ⟨_, .cons point names', rfl⟩

theorem Aliased.of_map {required : Bool} {aliasName : Option Token} {qs : List (Piece β)}
    (h : Aliased required aliasName qs) :
    ∃ ps : List (Piece α), Aliased required aliasName ps ∧ qs = ps.map (Piece.map f) := by
  cases h with
  | none => exact ⟨_, .none, rfl⟩
  | bare optional => exact ⟨_, .bare optional, rfl⟩
  | worded word => exact ⟨_, .worded word, rfl⟩

theorem Listed.of_map {γ δ : Type} (g : γ → δ) {entry : γ → List (Piece α) → Prop}
    {entry' : δ → List (Piece β) → Prop}
    (each : ∀ b qs, entry' (g b) qs → ∃ ps, entry b ps ∧ qs = ps.map (Piece.map f))
    {bs : List γ} {qs : List (Piece β)} (h : Listed entry' (bs.map g) qs) :
    ∃ ps, Listed entry bs ps ∧ qs = ps.map (Piece.map f) := by
  induction bs generalizing qs with
  | nil => cases h
  | cons b bs ih =>
    generalize eq : (b :: bs).map g = ds at h
    cases h with
    | single first =>
      simp only [List.map_cons, List.cons.injEq, List.map_eq_nil_iff] at eq
      obtain ⟨rfl, rfl⟩ := eq
      obtain ⟨ps, here, rfl⟩ := each b _ first
      exact ⟨ps, .single here, rfl⟩
    | @cons _ _ comma _ _ first isComma rest =>
      simp only [List.map_cons, List.cons.injEq] at eq
      obtain ⟨rfl, rfl⟩ := eq
      obtain ⟨ps, here, rfl⟩ := each b _ first
      obtain ⟨rs, later, rfl⟩ := ih rest
      exact ⟨ps ++ .token comma :: rs, .cons here isComma later, by simp⟩

/-- The pieces of a layer with other sub-nodes come from pieces of the layer. -/
theorem Node.Written.of_map {n : Node α} {qs : List (Piece β)} (h : (n.map f).Written qs) :
    ∃ ps, n.Written ps ∧ qs = ps.map (Piece.map f) := by
  cases n <;> simp only [Node.map] at h
  case leaf t => cases h; exact ⟨_, .leaf t, rfl⟩
  case column c =>
    cases h with
    | column names =>
      obtain ⟨ps, names', rfl⟩ := names.of_map f
      exact ⟨ps, .column names', rfl⟩
  case literal l => cases h; exact ⟨_, .literal l, by simp⟩
  case operation o => cases h; exact ⟨_, .operation o, by simp⟩
  case membership o => cases h; exact ⟨_, .membership o, by simp⟩
  case conjunction c =>
    cases h
    exact ⟨_, .conjunction c, by
      simp [Conjunction.parts, Junct.map, List.map_flatMap, List.flatMap_map]⟩
  case bracket p => cases h; exact ⟨_, .bracket p, by simp⟩
  case call c => cases h; exact ⟨_, .call c, rfl⟩
  case allColumns a =>
    cases h with
    | allColumns names =>
      obtain ⟨ps, names', rfl⟩ := names.of_map f
      exact ⟨ps, .allColumns names', rfl⟩
  case table t =>
    cases h with
    | table names =>
      obtain ⟨ps, names', rfl⟩ := names.of_map f
      exact ⟨ps, .table names', rfl⟩
  case fromClause c =>
    cases h with
    | fromClause named =>
      obtain ⟨ps, named', rfl⟩ := named.of_map f
      exact ⟨_, .fromClause named', by simp⟩
  case join j =>
    cases h with
    | join named =>
      obtain ⟨ps, named', rfl⟩ := named.of_map f
      refine ⟨_, .join named', ?_⟩
      cases j.condition <;> simp [Restriction.map, Restriction.pieces]
  case whereClause c => cases h; exact ⟨_, .whereClause c, rfl⟩
  case havingClause c => cases h; exact ⟨_, .havingClause c, rfl⟩
  case groupBy g =>
    cases h with
    | groupBy entries =>
      obtain ⟨ps, entries', rfl⟩ : ∃ ps, Listed (fun e qs => qs = [.child e]) g.expressions ps ∧
          _ = ps.map (Piece.map f) :=
        Listed.of_map f f (by rintro b _ rfl; exact ⟨_, rfl, rfl⟩) entries
      exact ⟨_, .groupBy entries', by simp⟩
  case orderBy o =>
    cases h with
    | orderBy entries =>
      obtain ⟨ps, entries', rfl⟩ : ∃ ps, Listed
          (fun i qs => qs = .child i.expression :: Piece.ofToken? i.direction) o.items ps ∧
            _ = ps.map (Piece.map f) :=
        Listed.of_map f (SortKey.map f)
          (by rintro b _ rfl; exact ⟨_, rfl, by simp [SortKey.map]⟩) entries
      exact ⟨_, .orderBy entries', by simp⟩
  case select s =>
    cases h with
    | select entries =>
      obtain ⟨ps, entries', rfl⟩ := Listed.of_map f (Projection.map f)
        (by
          rintro ⟨e, n⟩ _ ⟨named⟩
          obtain ⟨ps, named', rfl⟩ := named.of_map f
          exact ⟨_, Projected.mk named', rfl⟩) entries
      exact ⟨_, .select entries', by simp⟩
  case update u =>
    cases h with
    | update named entries =>
      obtain ⟨as, named', rfl⟩ := named.of_map f
      obtain ⟨ps, entries', rfl⟩ : ∃ ps, Listed (fun e qs => qs = [.child e]) u.assignments ps ∧
          _ = ps.map (Piece.map f) :=
        Listed.of_map f f (by rintro b _ rfl; exact ⟨_, rfl, rfl⟩) entries
      exact ⟨_, .update named' entries', by simp⟩
  case root cs => cases h; exact ⟨_, .root cs, by simp⟩

end Map

/-! ## The sub-nodes of a spelling -/

namespace Piece

/-- The sub-nodes among pieces. -/
def children (ps : List (Piece α)) : List α := ps.filterMap child?

@[simp] theorem children_nil : children ([] : List (Piece α)) = [] := rfl

@[simp] theorem children_token (t : Token) (ps : List (Piece α)) :
    children (token t :: ps) = children ps := rfl

@[simp] theorem children_name (t : Token) (ps : List (Piece α)) :
    children (name t :: ps) = children ps := rfl

@[simp] theorem children_child (c : α) (ps : List (Piece α)) :
    children (child c :: ps) = c :: children ps := rfl

@[simp] theorem children_append (ps qs : List (Piece α)) :
    children (ps ++ qs) = children ps ++ children qs := List.filterMap_append

@[simp] theorem children_map_token (ts : List Token) :
    children (ts.map token : List (Piece α)) = [] := by
  induction ts with
  | nil => rfl
  | cons t ts ih => exact ih

@[simp] theorem children_map_child (cs : List α) : children (cs.map child) = cs := by
  induction cs with
  | nil => rfl
  | cons c cs ih => simp [ih]

@[simp] theorem children_ofToken? (t : Option Token) : children (ofToken? t : List (Piece α)) = [] := by
  cases t <;> rfl

@[simp] theorem children_ofChild? (c : Option α) : children (ofChild? c) = c.toList := by
  cases c <;> rfl

end Piece

theorem Dotted.children {names : List Token} {ps : List (Piece α)} (h : Dotted names ps) :
    Piece.children ps = [] := by
  induction h with
  | single name => rfl
  | cons _ _ ih => exact ih

theorem Aliased.children {required : Bool} {aliasName : Option Token} {ps : List (Piece α)}
    (h : Aliased required aliasName ps) : Piece.children ps = [] := by
  cases h <;> rfl

theorem Listed.children (e : β → α) {entry : β → List (Piece α) → Prop}
    (each : ∀ b ps, entry b ps → Piece.children ps = [e b]) {bs : List β} {ps : List (Piece α)}
    (h : Listed entry bs ps) : Piece.children ps = bs.map e := by
  induction h with
  | single first => exact each _ _ first
  | cons first _ _ ih => simp [each _ _ first, ih]

/-- The sub-nodes of a layer are those among its pieces, in the same order. -/
theorem Node.Written.children {n : Node α} {ps : List (Piece α)} (h : n.Written ps) :
    Piece.children ps = n.children := by
  cases h with
  | column names => simpa using names.children
  | allColumns names => simpa using names.children
  | table names => simpa using names.children
  | conjunction c =>
    simp only [children_conjunction]
    induction c.parts with
    | nil => rfl
    | cons j js ih => simp [ih]
  | fromClause named => simp [named.children]
  | @join j as named => cases hc : j.condition <;> simp [named.children, Restriction.pieces, hc]
  | groupBy entries =>
    simpa using entries.children (·) (by rintro _ _ rfl; rfl)
  | orderBy entries =>
    simpa using entries.children SortKey.expression (by rintro _ _ rfl; simp)
  | select entries =>
    have := entries.children Projection.expression (by rintro _ _ ⟨named⟩; simp [named.children])
    simp [this]
  | update named entries =>
    have := entries.children (·) (by rintro _ _ rfl; rfl)
    simp [this, named.children]
  | _ => simp [Restriction.pieces]

/-! ## Whole trees -/

/-- The token lists that pieces spell, where `spells` says what the sub-nodes spell. -/
def Spelled (spells : α → List Token → Prop) : List (Piece α) → List Token → Prop
  | [], ts => ts = []
  | .token t :: ps, ts => ∃ rest, ts = t :: rest ∧ Spelled spells ps rest
  | .name t :: ps, ts => ∃ rest, ts = t :: rest ∧ Spelled spells ps rest
  | .child c :: ps, ts => ∃ front rest, ts = front ++ rest ∧ spells c front ∧ Spelled spells ps rest

/-- Pieces with other sub-nodes spell what these spell. -/
theorem spelled_map {spells : β → List Token → Prop} {f : α → β} {ps : List (Piece α)}
    {ts : List Token} :
    Spelled spells (ps.map (Piece.map f)) ts ↔ Spelled (fun c us => spells (f c) us) ps ts := by
  induction ps generalizing ts with
  | nil => exact Iff.rfl
  | cons p ps ih => cases p <;> simp only [List.map_cons, Piece.map, Spelled, ih]

/-- What pieces spell depends on what their sub-nodes spell. -/
theorem Spelled.imp {spells : α → List Token → Prop} {spells' : β → List Token → Prop} {f : α → β}
    {ps : List (Piece α)} {ts : List Token}
    (each : ∀ c ∈ Piece.children ps, ∀ us, spells c us → spells' (f c) us)
    (h : Spelled spells ps ts) : Spelled spells' (ps.map (Piece.map f)) ts := by
  induction ps generalizing ts with
  | nil => exact h
  | cons p ps ih =>
    cases p with
    | child c =>
      obtain ⟨front, rest, rfl, hc, hrest⟩ := h
      simp only [Piece.children_child, List.forall_mem_cons] at each
      exact ⟨front, rest, rfl, each.1 front hc, ih each.2 hrest⟩
    | _ =>
      obtain ⟨rest, rfl, hrest⟩ := h
      exact ⟨rest, rfl, ih each hrest⟩

/-- The token lists of pieces that stand one after the other. -/
theorem spelled_append {spells : α → List Token → Prop} {ps qs : List (Piece α)} {ts : List Token} :
    Spelled spells (ps ++ qs) ts ↔
      ∃ front rest, ts = front ++ rest ∧ Spelled spells ps front ∧ Spelled spells qs rest := by
  induction ps generalizing ts with
  | nil =>
    constructor
    · intro h
      exact ⟨[], ts, rfl, rfl, h⟩
    · rintro ⟨_, rest, rfl, rfl, h⟩
      exact h
  | cons p ps ih =>
    cases p with
    | child c =>
      simp only [List.cons_append, Spelled, ih]
      constructor
      · rintro ⟨front, _, rfl, hc, mid, rest, rfl, hps, hqs⟩
        exact ⟨front ++ mid, rest, by simp, ⟨front, mid, rfl, hc, hps⟩, hqs⟩
      · rintro ⟨_, rest, rfl, ⟨front, mid, rfl, hc, hps⟩, hqs⟩
        exact ⟨front, mid ++ rest, by simp, hc, mid, rest, rfl, hps, hqs⟩
    | _ =>
      simp only [List.cons_append, Spelled, ih]
      constructor
      · rintro ⟨_, rfl, mid, rest, rfl, hps, hqs⟩
        exact ⟨_ :: mid, rest, rfl, ⟨mid, rfl, hps⟩, hqs⟩
      · rintro ⟨_, rest, rfl, ⟨mid, rfl, hps⟩, hqs⟩
        exact ⟨mid ++ rest, rfl, mid, rest, rfl, hps, hqs⟩

/-! ## The tokens that stay -/

namespace Piece

/-- The tokens of a piece, where `below` gives those of its sub-node. -/
def read (below : α → List Token) : Piece α → List Token
  | .token t => [t]
  | .name t => [t]
  | .child c => below c

variable (below : α → List Token)

@[simp] theorem read_token (t : Token) : (token t).read below = [t] := rfl

@[simp] theorem read_name (t : Token) : (name t).read below = [t] := rfl

@[simp] theorem read_child (c : α) : (child c).read below = below c := rfl

@[simp] theorem flatMap_read_map_token (ts : List Token) :
    (ts.map token).flatMap (read below) = ts := by
  induction ts with
  | nil => rfl
  | cons t ts ih => simp [ih]

@[simp] theorem flatMap_read_map_child (cs : List α) :
    (cs.map child).flatMap (read below) = cs.flatMap below := by
  rw [List.flatMap_map]
  rfl

@[simp] theorem flatMap_read_ofToken? (t : Option Token) :
    (ofToken? t).flatMap (read below) = t.toList := by
  cases t <;> rfl

@[simp] theorem flatMap_read_ofChild? (c : Option α) :
    (ofChild? c).flatMap (read below) = c.toList.flatMap below := by
  cases c <;> simp [ofChild?]

end Piece

/-- The tokens of a part, where `below` gives those of its sub-node. -/
def Part.read (below : α → List Token) : Part α → List Token
  | .token t => [t]
  | .child c => below c
  | _ => []

namespace Part

variable (below : α → List Token)

@[simp] theorem read_token (t : Token) : (token t).read below = [t] := rfl

@[simp] theorem read_child (c : α) : (child c).read below = below c := rfl

@[simp] theorem read_absent : (absent : Part α).read below = [] := rfl

@[simp] theorem read_mark (b : Bool) : (mark b : Part α).read below = [] := rfl

@[simp] theorem read_ofToken? (t : Option Token) : (ofToken? t).read below = t.toList := by
  cases t <;> rfl

@[simp] theorem read_ofChild? (c : Option α) : (ofChild? c).read below = c.toList.flatMap below := by
  cases c <;> simp [ofChild?]

@[simp] theorem flatMap_read_map_token (ts : List Token) :
    (ts.map token).flatMap (read below) = ts := by
  induction ts with
  | nil => rfl
  | cons t ts ih => simp [ih]

@[simp] theorem flatMap_read_map_child (cs : List α) :
    (cs.map child).flatMap (read below) = cs.flatMap below := by
  rw [List.flatMap_map]
  rfl

end Part

section Read

variable (below : α → List Token)

theorem Dotted.sublist {names : List Token} {ps : List (Piece α)} (h : Dotted names ps) :
    names.Sublist (ps.flatMap (Piece.read below)) := by
  induction h with
  | single name => simp
  | @cons name point _ _ _ _ ih => simpa using (ih.cons point).cons_cons name

theorem Aliased.sublist {required : Bool} {aliasName : Option Token} {ps : List (Piece α)}
    (h : Aliased required aliasName ps) :
    aliasName.toList.Sublist (ps.flatMap (Piece.read below)) := by
  cases h <;> simp

theorem Listed.sublist {entry : β → List (Piece α) → Prop} (front : β → List Token)
    (each : ∀ b ps, entry b ps → (front b).Sublist (ps.flatMap (Piece.read below)))
    {bs : List β} {ps : List (Piece α)} (h : Listed entry bs ps) :
    (bs.flatMap front).Sublist (ps.flatMap (Piece.read below)) := by
  induction h with
  | single first => simpa using each _ _ first
  | cons first _ _ ih =>
    simp only [List.flatMap_cons, List.flatMap_append, Piece.read_token]
    exact (each _ _ first).append (ih.cons _)

/-- The parts of a layer are its pieces without the tokens that the layer drops. -/
theorem Node.Written.sublist {n : Node α} {ps : List (Piece α)} (h : n.Written ps) :
    (n.parts.flatMap (Part.read below)).Sublist (ps.flatMap (Piece.read below)) := by
  cases h with
  | column names => simpa [parts] using names.sublist below
  | allColumns names => simpa [parts] using names.sublist below
  | table names => simpa [parts] using names.sublist below
  | conjunction c => simp [parts, List.flatMap_assoc]
  | fromClause named =>
    simpa [parts] using named.sublist below
  | @join j as named =>
    cases hc : j.condition <;>
      simpa [parts, hc, Restriction.pieces] using named.sublist below
  | groupBy entries =>
    simpa [parts] using entries.sublist below below (by rintro _ _ rfl; simp)
  | orderBy entries =>
    simpa [parts, List.flatMap_assoc] using entries.sublist below
      (fun i => below i.expression ++ i.direction.toList) (by rintro _ _ rfl; simp)
  | select entries =>
    have := entries.sublist below (fun i => below i.expression ++ i.aliasName.toList)
      (by rintro _ _ ⟨named⟩; simpa using named.sublist below)
    simpa [parts, List.flatMap_assoc] using this
  | update named entries =>
    have rest := entries.sublist below below (by rintro _ _ rfl; simp)
    have front := named.sublist below
    simp [parts]
    exact front.append ((List.Sublist.refl _).append ((rest.append (.refl _)).cons_cons _))
  | _ => simp [parts, Restriction.pieces]

end Read

/-- The tokens that stay are found in what is spelled. -/
theorem Spelled.sublist {spells : α → List Token → Prop} {below : α → List Token}
    {ps : List (Piece α)} {ts : List Token}
    (each : ∀ c ∈ Piece.children ps, ∀ us, spells c us → (below c).Sublist us)
    (h : Spelled spells ps ts) : (ps.flatMap (Piece.read below)).Sublist ts := by
  induction ps generalizing ts with
  | nil => exact List.nil_sublist _
  | cons p ps ih =>
    cases p with
    | child c =>
      obtain ⟨front, rest, rfl, hc, hrest⟩ := h
      simp only [Piece.children_child, List.forall_mem_cons] at each
      exact (each.1 front hc).append (ih each.2 hrest)
    | _ =>
      obtain ⟨rest, rfl, hrest⟩ := h
      exact (ih each hrest).cons_cons _

namespace Tree

/-- The token lists that a tree spells. -/
def Spells : Tree ι → List Token → Prop :=
  fold fun _ n ts => ∃ ps, n.Written ps ∧ Spelled Prod.snd ps ts

/-- A tree spells what its layer spells around what its sub-trees spell. -/
theorem spells_mk {tag : ι} {n : Node (Tree ι)} {ts : List Token} :
    (mk tag n).Spells ts ↔ ∃ ps, n.Written ps ∧ Spelled Spells ps ts := by
  rw [Spells, fold_mk, ← Spells]
  constructor
  · rintro ⟨ps, written, spelled⟩
    have below := written.children
    refine ⟨ps.map (Piece.map Prod.fst), ?_, ?_⟩
    · simpa [Node.map_map, Function.comp_def] using written.map Prod.fst
    · refine spelled.imp fun c hc us hus => ?_
      rw [below, Node.children_map] at hc
      obtain ⟨t, _, rfl⟩ := List.mem_map.mp hc
      exact hus
  · rintro ⟨ps, written, spelled⟩
    exact ⟨_, written.map _, spelled.imp fun _ _ _ hus => hus⟩

/-- The tokens of a layer stand around those of its sub-trees. -/
theorem tokens_mk (tag : ι) (n : Node (Tree ι)) :
    (mk tag n).tokens = n.parts.flatMap (Part.read tokens) := by
  rw [tokens, fold_mk, Node.parts_map, List.flatMap_map, ← tokens]
  congr 1
  funext p
  cases p <;> rfl

/-- A tree keeps its tokens in the order in which they are spelled, each of them once. -/
theorem tokens_sublist {t : Tree ι} {ts : List Token} (h : t.Spells ts) : t.tokens.Sublist ts := by
  induction t using Tree.induction generalizing ts with
  | step tag n ih =>
    obtain ⟨ps, written, spelled⟩ := spells_mk.mp h
    rw [tokens_mk]
    refine (written.sublist tokens).trans (spelled.sublist fun c hc us hus => ?_)
    rw [written.children] at hc
    exact ih c hc hus

/-- A tree keeps what it spells if every sub-tree of its layer does. -/
theorem Spells.of_map {κ : Type} {tag : ι} {tag' : κ} {n : Node α} {f : α → Tree ι} {g : α → Tree κ}
    {ts : List Token} (h : (mk tag (n.map f)).Spells ts)
    (each : ∀ c ∈ n.children, ∀ us, (f c).Spells us → (g c).Spells us) :
    (mk tag' (n.map g)).Spells ts := by
  obtain ⟨qs, written, spelled⟩ := spells_mk.mp h
  obtain ⟨ps, before, rfl⟩ := written.of_map
  refine spells_mk.mpr ⟨_, before.map g, ?_⟩
  refine (spelled_map.mp spelled).imp fun c hc us hus => ?_
  rw [before.children] at hc
  exact each c hc us hus

/-- What a tree spells does not depend on its tags. -/
theorem spells_translate_id {κ : Type} {g : ι → κ} {t : Tree ι} {ts : List Token} :
    (t.translate id g).Spells ts ↔ t.Spells ts := by
  induction t using Tree.induction generalizing ts with
  | step tag n ih =>
    rw [translate_mk, Node.mapTokens_id]
    constructor
    · intro h
      have before : (mk tag (n.map fun t => t)).Spells ts :=
        h.of_map fun c hc us hus => (ih c hc).mp hus
      rwa [Node.map_id'] at before
    · intro h
      rw [← Node.map_id' n] at h
      exact h.of_map fun c hc us hus => (ih c hc).mpr hus

end Tree

end SqlFold
