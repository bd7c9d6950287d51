import Mathlib.Data.List.Forall2
import SqlFold.Proofs.Trees

/-!
# Visiting the sub-nodes of a layer

`Node.mapM` with an effect on a state visits the sub-nodes in source order, as `Node.mapM_visits`
says for effects that do not fail. What comes out has the shape of what went in, and a layer is known
by its shape and its sub-nodes (`Node.eq_of_shape`).
-/

namespace SqlFold

variable {α β γ δ ε σ τ : Type}

/-! ## Shapes -/

namespace Node

/-- A layer without its sub-nodes. -/
def shape (n : Node α) : Node Unit := n.map fun _ => ()

@[simp] theorem shape_map (f : α → β) (n : Node α) : (n.map f).shape = n.shape := by
  rw [shape, map_map]
  rfl

@[simp] theorem kind_shape (n : Node α) : n.shape.kind = n.kind := kind_map _ _

/-- Items with the same labels and the same sub-nodes are the same. -/
theorem list_eq_of_shape (item : α → τ → γ) (label : γ → τ) (inner : γ → α)
    (eta : ∀ c, item (inner c) (label c) = c) {cs ds : List γ} (labels : cs.map label = ds.map label)
    (inners : cs.map inner = ds.map inner) : cs = ds := by
  induction cs generalizing ds with
  | nil =>
    cases ds with
    | nil => rfl
    | cons d ds => cases labels
  | cons c cs ih =>
    cases ds with
    | nil => cases labels
    | cons d ds =>
      obtain ⟨head, labels⟩ := List.cons.inj labels
      obtain ⟨head', inners⟩ := List.cons.inj inners
      rw [← eta c, ← eta d, head, head', ih labels inners]

/-- Appended lists are equal if their first parts are as long and so are known. -/
theorem append_inj_of_map {f : α → τ} {as as' bs bs' : List α} (lengths : as.map f = as'.map f)
    (h : as ++ bs = as' ++ bs') : as = as' ∧ bs = bs' :=
  List.append_inj h (by simpa using congrArg List.length lengths)

/-- The same for an optional first element. -/
theorem toList_append_inj_of_map {f : α → τ} {a a' : Option α} {bs bs' : List α}
    (present : a.map f = a'.map f) (h : a.toList ++ bs = a'.toList ++ bs') : a = a' ∧ bs = bs' := by
  cases a <;> cases a' <;> simp_all

/-- A layer is known by its shape and its sub-nodes. -/
theorem eq_of_shape {n m : Node α} (shapes : n.shape = m.shape) (subs : n.children = m.children) :
    n = m := by
  cases n <;> cases m <;> simp only [shape, map, reduceCtorEq] at shapes
  case leaf.leaf => simpa using shapes
  case column.column => simpa using shapes
  case literal.literal => simpa using shapes
  case allColumns.allColumns => simpa using shapes
  case table.table => simpa using shapes
  case operation.operation o o' =>
    cases o; cases o'
    simp_all
  case membership.membership o o' =>
    cases o; cases o'
    simp_all
  case call.call c c' =>
    cases c; cases c'
    simp_all
  case fromClause.fromClause c c' =>
    cases c; cases c'
    simp_all
  case whereClause.whereClause c c' =>
    cases c; cases c'
    simp_all [Restriction.map]
  case havingClause.havingClause c c' =>
    cases c; cases c'
    simp_all [Restriction.map]
  case bracket.bracket p p' =>
    cases p; cases p'
    simp_all
  case root.root cs cs' => simpa using subs
  case groupBy.groupBy g g' =>
    cases g; cases g'
    simp_all
  case conjunction.conjunction c c' =>
    rcases c with ⟨⟨o₁, e₁⟩, ⟨o₂, e₂⟩, rest⟩
    rcases c' with ⟨⟨o₁', e₁'⟩, ⟨o₂', e₂'⟩, rest'⟩
    simp only [conjunction.injEq, Conjunction.mk.injEq, Junct.map, Junct.mk.injEq, and_true] at shapes
    obtain ⟨rfl, rfl, labels⟩ := shapes
    simp only [children_conjunction, Conjunction.parts, List.map_cons, List.cons.injEq] at subs
    obtain ⟨rfl, rfl, inners⟩ := subs
    have labels := congrArg (List.map Junct.operator) labels
    simp only [List.map_map] at labels
    rw [list_eq_of_shape (fun e o => Junct.mk o e) Junct.operator Junct.expression
      (fun _ => rfl) labels inners]
  case orderBy.orderBy o o' =>
    rcases o with ⟨k, b, is⟩
    rcases o' with ⟨k', b', is'⟩
    simp only [orderBy.injEq, OrderBy.mk.injEq] at shapes
    obtain ⟨rfl, rfl, labels⟩ := shapes
    have labels := congrArg (List.map SortKey.direction) labels
    simp only [List.map_map] at labels
    simp only [children_orderBy] at subs
    rw [list_eq_of_shape SortKey.mk SortKey.direction SortKey.expression
      (fun _ => rfl) labels subs]
  case join.join j j' =>
    rcases j with ⟨ks, s, a, _ | ⟨k, e⟩⟩ <;> rcases j' with ⟨ks', s', a', _ | ⟨k', e'⟩⟩ <;>
      simp_all [Restriction.map]
  case select.select s s' =>
    rcases s with ⟨k, d, is, s, js, f, g, h, o⟩
    rcases s' with ⟨k', d', is', s', js', f', g', h', o'⟩
    simp only [select.injEq, Select.mk.injEq] at shapes
    obtain ⟨rfl, rfl, items, source, joins, filter, grouping, having, ordering⟩ := shapes
    have items := congrArg (List.map Projection.aliasName) items
    simp only [List.map_map] at items
    simp only [children_select, List.append_assoc] at subs
    have lengths : (is.map (·.expression)).map (fun _ => ()) =
        (is'.map (·.expression)).map fun _ => () := by
      have := congrArg List.length items
      simp only [List.length_map] at this
      rw [List.map_const', List.map_const', List.length_map, List.length_map, this]
    obtain ⟨inners, subs⟩ := append_inj_of_map lengths subs
    obtain ⟨sameSource, subs⟩ := toList_append_inj_of_map source subs
    obtain ⟨sameJoins, subs⟩ := append_inj_of_map joins subs
    obtain ⟨sameFilter, subs⟩ := toList_append_inj_of_map filter subs
    obtain ⟨sameGrouping, subs⟩ := toList_append_inj_of_map grouping subs
    obtain ⟨sameHaving, subs⟩ := toList_append_inj_of_map having subs
    obtain ⟨sameOrdering, -⟩ := toList_append_inj_of_map ordering
      (show _ ++ [] = _ ++ [] by simpa using subs)
    rw [sameSource, sameJoins, sameFilter, sameGrouping, sameHaving, sameOrdering,
      list_eq_of_shape Projection.mk Projection.aliasName Projection.expression
        (fun _ => rfl) items inners]
  case update.update u u' =>
    rcases u with ⟨k, t, a, js, s, as, f, o⟩
    rcases u' with ⟨k', t', a', js', s', as', f', o'⟩
    simp only [update.injEq, Update.mk.injEq] at shapes
    obtain ⟨rfl, -, rfl, joins, rfl, assignments, filter, ordering⟩ := shapes
    simp only [children_update, List.append_assoc, List.cons_append, List.cons.injEq] at subs
    obtain ⟨sameTable, subs⟩ := subs
    obtain ⟨sameJoins, subs⟩ := append_inj_of_map joins subs
    obtain ⟨sameAssignments, subs⟩ := append_inj_of_map assignments subs
    obtain ⟨sameFilter, subs⟩ := toList_append_inj_of_map filter subs
    obtain ⟨sameOrdering, -⟩ := toList_append_inj_of_map ordering
      (show _ ++ [] = _ ++ [] by simpa using subs)
    rw [sameTable, sameJoins, sameAssignments, sameFilter, sameOrdering]

/-- Two changes of layers of one shape agree if they agree on the sub-nodes, one by one. -/
theorem map_eq_map_of_forall₂ {f : α → γ} {g : β → γ} {n : Node α} {m : Node β}
    (shapes : n.shape = m.shape)
    (subs : List.Forall₂ (fun a b => f a = g b) n.children m.children) : n.map f = m.map g := by
  refine eq_of_shape (by simpa using shapes) ?_
  rw [children_map, children_map]
  generalize n.children = as at subs
  generalize m.children = bs at subs
  induction subs with
  | nil => rfl
  | cons h _ ih => rw [List.map_cons, List.map_cons, h, ih]

end Node

/-! ## Effects that do not fail -/

/-- The effect `g` turns the values `as` into `bs`, one after the other, while the state goes from
the first to the second. -/
inductive Visits (g : α → EStateM ε σ β) : List α → σ → List β → σ → Prop
  | nil (s : σ) : Visits g [] s [] s
  | cons {a : α} {as : List α} {b : β} {bs : List β} {s s' s'' : σ} :
      g a s = .ok b s' → Visits g as s' bs s'' → Visits g (a :: as) s (b :: bs) s''

theorem Visits.append {g : α → EStateM ε σ β} {as as' : List α} {bs bs' : List β} {s s' s'' : σ}
    (h : Visits g as s bs s') (h' : Visits g as' s' bs' s'') :
    Visits g (as ++ as') s (bs ++ bs') s'' := by
  induction h with
  | nil s => exact h'
  | cons first _ ih => exact .cons first (ih h')

theorem Visits.single {g : α → EStateM ε σ β} {a : α} {b : β} {s s' : σ} (h : g a s = .ok b s') :
    Visits g [a] s [b] s' := .cons h (.nil s')

/-- A successful step of a sequence of effects. -/
theorem bind_ok {x : EStateM ε σ α} {f : α → EStateM ε σ β} {a : α} {s s' : σ}
    (h : x s = .ok a s') : (x >>= f) s = f a s' := by
  show EStateM.bind x f s = f a s'
  rw [EStateM.bind, h]

/-- A failing step ends a sequence of effects. -/
theorem bind_error {x : EStateM ε σ α} {f : α → EStateM ε σ β} {e : ε} {s s' : σ}
    (h : x s = .error e s') : (x >>= f) s = .error e s' := by
  show EStateM.bind x f s = _
  rw [EStateM.bind, h]

/-- Reading the state succeeds. -/
theorem get_bind (f : σ → EStateM ε σ β) (s : σ) : (get >>= f) s = f s s := rfl

/-- A successful effect with a changed result. -/
theorem map_ok {x : EStateM ε σ α} {f : α → β} {a : α} {s s' : σ} (h : x s = .ok a s') :
    (f <$> x) s = .ok (f a) s' := by
  show EStateM.map f x s = _
  rw [EStateM.map, h]

section Total

variable {g : α → EStateM ε σ β}

/-- A list is visited item by item, where an item holds the sub-node that is visited. -/
theorem list_mapM_visits {h : γ → EStateM ε σ δ} (inner : γ → α) (inner' : δ → β) (label : γ → τ)
    (label' : δ → τ)
    (each : ∀ c b s s', g (inner c) s = .ok b s' →
      ∃ d, h c s = .ok d s' ∧ inner' d = b ∧ label' d = label c)
    (cs : List γ) (total : ∀ c ∈ cs, ∀ s, ∃ b s', g (inner c) s = .ok b s') (s : σ) :
    ∃ ds s', cs.mapM h s = .ok ds s' ∧ Visits g (cs.map inner) s (ds.map inner') s' ∧
      ds.map label' = cs.map label := by
  induction cs generalizing s with
  | nil => exact ⟨[], s, rfl, .nil s, rfl⟩
  | cons c cs ih =>
    obtain ⟨here, later⟩ := List.forall_mem_cons.mp total
    obtain ⟨b, s', visited⟩ := here s
    obtain ⟨d, first, rfl, labelled⟩ := each c b s s' visited
    obtain ⟨ds, s'', rest, visits, labels⟩ := ih later s'
    refine ⟨d :: ds, s'', ?_, .cons visited visits, by simp [labelled, labels]⟩
    rw [List.mapM_cons, bind_ok first, bind_ok rest]
    rfl

/-- An optional item is visited if it is there. -/
theorem option_mapM_visits {h : γ → EStateM ε σ δ} (inner : γ → α) (inner' : δ → β) (label : γ → τ)
    (label' : δ → τ)
    (each : ∀ c b s s', g (inner c) s = .ok b s' →
      ∃ d, h c s = .ok d s' ∧ inner' d = b ∧ label' d = label c)
    (c : Option γ) (total : ∀ a ∈ c, ∀ s, ∃ b s', g (inner a) s = .ok b s') (s : σ) :
    ∃ d s', c.mapM h s = .ok d s' ∧ Visits g (c.map inner).toList s (d.map inner').toList s' ∧
      d.map label' = c.map label := by
  cases c with
  | none => exact ⟨none, s, rfl, .nil s, rfl⟩
  | some c =>
    obtain ⟨b, s', visited⟩ := total c rfl s
    obtain ⟨d, first, rfl, labelled⟩ := each c b s s' visited
    refine ⟨some d, s', ?_, .single visited, by simp [labelled]⟩
    show (some <$> h c) s = _
    rw [map_ok first]

/-- The sub-nodes of a layer are visited in source order, and the layer keeps its shape. -/
theorem Node.mapM_visits (n : Node α) (total : ∀ a ∈ n.children, ∀ s, ∃ b s', g a s = .ok b s')
    (s : σ) :
    ∃ m s', n.mapM g s = .ok m s' ∧ Visits g n.children s m.children s' ∧ m.shape = n.shape := by
  have junct (j : Junct α) (b : β) (s s' : σ) (h : g j.expression s = .ok b s') :
      ∃ d : Junct β, j.mapM g s = .ok d s' ∧ d.expression = b ∧
        d.map (fun _ => ()) = j.map (fun _ => ()) :=
    ⟨⟨j.operator, b⟩, by rw [Junct.mapM, bind_ok h]; rfl, rfl, rfl⟩
  have sortKey (i : SortKey α) (b : β) (s s' : σ) (h : g i.expression s = .ok b s') :
      ∃ d : SortKey β, i.mapM g s = .ok d s' ∧ d.expression = b ∧
        d.map (fun _ => ()) = i.map (fun _ => ()) :=
    ⟨⟨b, i.direction⟩, by rw [SortKey.mapM, bind_ok h]; rfl, rfl, rfl⟩
  have projection (i : Projection α) (b : β) (s s' : σ) (h : g i.expression s = .ok b s') :
      ∃ d : Projection β, i.mapM g s = .ok d s' ∧ d.expression = b ∧
        d.map (fun _ => ()) = i.map (fun _ => ()) :=
    ⟨⟨b, i.aliasName⟩, by rw [Projection.mapM, bind_ok h]; rfl, rfl, rfl⟩
  have restriction (c : Restriction α) (b : β) (s s' : σ) (h : g c.expression s = .ok b s') :
      ∃ d : Restriction β, c.mapM g s = .ok d s' ∧ d.expression = b ∧
        d.map (fun _ => ()) = c.map (fun _ => ()) :=
    ⟨⟨c.keyword, b⟩, by rw [Restriction.mapM, bind_ok h]; rfl, rfl, rfl⟩
  have plain (c : α) (b : β) (s s' : σ) (h : g c s = .ok b s') :
      ∃ d : β, g c s = .ok d s' ∧ d = b ∧ () = () := ⟨b, h, rfl, rfl⟩
  have list (cs : List α) (total : ∀ c ∈ cs, ∀ s, ∃ b s', g c s = .ok b s') (s : σ) :
      ∃ ds s', cs.mapM g s = .ok ds s' ∧ Visits g cs s ds s' ∧
        ds.map (fun _ => ()) = cs.map fun _ => () := by
    simpa using list_mapM_visits (fun c => c) (fun d => d) (fun _ => ()) (fun _ => ()) plain cs
      total s
  have option (c : Option α) (total : ∀ a ∈ c, ∀ s, ∃ b s', g a s = .ok b s') (s : σ) :
      ∃ d s', c.mapM g s = .ok d s' ∧ Visits g c.toList s d.toList s' ∧
        d.map (fun _ => ()) = c.map fun _ => () := by
    simpa using option_mapM_visits (fun c => c) (fun d => d) (fun _ => ()) (fun _ => ()) plain c
      total s
  cases n with
  | leaf t => exact ⟨.leaf t, s, rfl, .nil s, rfl⟩
  | column c => exact ⟨.column c, s, rfl, by simpa using .nil s, rfl⟩
  | literal l => exact ⟨.literal l, s, rfl, by simpa using .nil s, rfl⟩
  | allColumns a => exact ⟨.allColumns a, s, rfl, by simpa using .nil s, rfl⟩
  | table t => exact ⟨.table t, s, rfl, by simpa using .nil s, rfl⟩
  | operation o =>
    obtain ⟨l, s₁, left⟩ := total o.left (by simp) s
    obtain ⟨r, s₂, right⟩ := total o.right (by simp) s₁
    refine ⟨.operation ⟨l, o.operator, r⟩, s₂, ?_, by simpa using .cons left (.single right), rfl⟩
    rw [Node.mapM, bind_ok left, bind_ok right]
    rfl
  | membership o =>
    obtain ⟨l, s₁, left⟩ := total o.left (by simp) s
    obtain ⟨r, s₂, right⟩ := total o.list (by simp) s₁
    refine ⟨.membership ⟨l, o.negation, o.keyword, r⟩, s₂, ?_,
      by simpa using .cons left (.single right), rfl⟩
    rw [Node.mapM, bind_ok left, bind_ok right]
    rfl
  | conjunction c =>
    obtain ⟨e₁, s₁, visited₁⟩ := total c.first.expression (by simp [Conjunction.parts]) s
    obtain ⟨d₁, first, rfl, label₁⟩ := junct _ _ _ _ visited₁
    obtain ⟨e₂, s₂, visited₂⟩ := total c.second.expression (by simp [Conjunction.parts]) s₁
    obtain ⟨d₂, second, rfl, label₂⟩ := junct _ _ _ _ visited₂
    obtain ⟨ds, s₃, rest, visits, labels⟩ := list_mapM_visits _ _ _ _ junct c.rest
      (fun e he => total _ (by simp [Conjunction.parts]; exact .inr (.inr ⟨e, he, rfl⟩))) s₂
    refine ⟨.conjunction ⟨d₁, d₂, ds⟩, s₃, ?_, ?_, ?_⟩
    · rw [Node.mapM, bind_ok first, bind_ok second, bind_ok rest]
      rfl
    · simpa [Conjunction.parts] using .cons visited₁ (.cons visited₂ visits)
    · simp only [shape, map, label₁, label₂, labels]
  | bracket p =>
    obtain ⟨ds, s', visited, visits, labels⟩ := list p.children (fun e he => total _ (by simp [he])) s
    refine ⟨.bracket ⟨p.opening, p.closing, ds⟩, s', ?_, by simpa using visits, ?_⟩
    · rw [Node.mapM, bind_ok visited]
      rfl
    · simp only [shape, map, labels]
  | call c =>
    obtain ⟨e, s', visited⟩ := total c.arguments (by simp) s
    refine ⟨.call ⟨c.name, c.distinct, e⟩, s', ?_, by simpa using .single visited, rfl⟩
    rw [Node.mapM, bind_ok visited]
    rfl
  | fromClause c =>
    obtain ⟨e, s', visited⟩ := total c.source (by simp) s
    refine ⟨.fromClause ⟨c.keyword, e, c.aliasName⟩, s', ?_, by simpa using .single visited, rfl⟩
    rw [Node.mapM, bind_ok visited]
    rfl
  | join j =>
    obtain ⟨e, s₁, source⟩ := total j.source (by simp) s
    obtain ⟨d, s₂, condition, visits, label⟩ := option_mapM_visits _ _ _ _ restriction j.condition
      (fun e he => total _ (by simp; exact .inr ⟨e, he, rfl⟩)) s₁
    refine ⟨.join ⟨j.keywords, e, j.aliasName, d⟩, s₂, ?_, by simpa using .cons source visits, ?_⟩
    · rw [Node.mapM, bind_ok source, bind_ok condition]
      rfl
    · simp only [shape, map, label]
  | whereClause c =>
    obtain ⟨e, s', visited⟩ := total c.expression (by simp) s
    obtain ⟨d, first, rfl, label⟩ := restriction _ _ _ _ visited
    refine ⟨.whereClause d, s', ?_, by simpa using .single visited, ?_⟩
    · rw [Node.mapM, bind_ok first]
      rfl
    · simp only [shape, map, label]
  | havingClause c =>
    obtain ⟨e, s', visited⟩ := total c.expression (by simp) s
    obtain ⟨d, first, rfl, label⟩ := restriction _ _ _ _ visited
    refine ⟨.havingClause d, s', ?_, by simpa using .single visited, ?_⟩
    · rw [Node.mapM, bind_ok first]
      rfl
    · simp only [shape, map, label]
  | groupBy c =>
    obtain ⟨ds, s', visited, visits, labels⟩ := list c.expressions (fun e he => total _ (by simp [he])) s
    refine ⟨.groupBy ⟨c.group, c.byKeyword, ds⟩, s', ?_, by simpa using visits, ?_⟩
    · rw [Node.mapM, bind_ok visited]
      rfl
    · simp only [shape, map, labels]
  | orderBy o =>
    obtain ⟨ds, s', visited, visits, labels⟩ := list_mapM_visits _ _ _ _ sortKey o.items
      (fun e he => total _ (by simp; exact ⟨e, he, rfl⟩)) s
    refine ⟨.orderBy ⟨o.order, o.byKeyword, ds⟩, s', ?_, by simpa using visits, ?_⟩
    · rw [Node.mapM, bind_ok visited]
      rfl
    · simp only [shape, map, labels]
  | select c =>
    obtain ⟨is, s₁, items, visits₁, label₁⟩ := list_mapM_visits _ _ _ _ projection c.items
      (fun e he => total _ (by simp; exact .inl ⟨e, he, rfl⟩)) s
    obtain ⟨e, s₂, source, visits₂, label₂⟩ := option c.source (fun e he => total _ (by simp [Option.mem_def.mp he])) s₁
    obtain ⟨js, s₃, joins, visits₃, label₃⟩ := list c.joins (fun e he => total _ (by simp [he])) s₂
    obtain ⟨f, s₄, filter, visits₄, label₄⟩ := option c.filter (fun e he => total _ (by simp [Option.mem_def.mp he])) s₃
    obtain ⟨gr, s₅, grouping, visits₅, label₅⟩ := option c.grouping (fun e he => total _ (by simp [Option.mem_def.mp he])) s₄
    obtain ⟨hv, s₆, having, visits₆, label₆⟩ := option c.having (fun e he => total _ (by simp [Option.mem_def.mp he])) s₅
    obtain ⟨o, s₇, ordering, visits₇, label₇⟩ := option c.ordering (fun e he => total _ (by simp [Option.mem_def.mp he])) s₆
    refine ⟨.select ⟨c.keyword, c.distinct, is, e, js, f, gr, hv, o⟩, s₇, ?_, ?_, ?_⟩
    · rw [Node.mapM, bind_ok items, bind_ok source, bind_ok joins, bind_ok filter,
        bind_ok grouping, bind_ok having, bind_ok ordering]
      rfl
    · rw [children_select, children_select]
      exact (((((visits₁.append visits₂).append visits₃).append visits₄).append visits₅).append
        visits₆).append visits₇
    · simp only [shape, map, label₁, label₂, label₃, label₄, label₅, label₆, label₇]
  | update c =>
    obtain ⟨t, s₁, table⟩ := total c.table (by simp) s
    obtain ⟨js, s₂, joins, visits₂, label₂⟩ := list c.joins (fun e he => total _ (by simp [he])) s₁
    obtain ⟨as, s₃, assignments, visits₃, label₃⟩ := list c.assignments (fun e he => total _ (by simp [he])) s₂
    obtain ⟨f, s₄, filter, visits₄, label₄⟩ := option c.filter (fun e he => total _ (by simp [Option.mem_def.mp he])) s₃
    obtain ⟨o, s₅, ordering, visits₅, label₅⟩ := option c.ordering (fun e he => total _ (by simp [Option.mem_def.mp he])) s₄
    refine ⟨.update ⟨c.keyword, t, c.aliasName, js, c.setKeyword, as, f, o⟩, s₅, ?_, ?_, ?_⟩
    · rw [Node.mapM, bind_ok table, bind_ok joins, bind_ok assignments, bind_ok filter,
        bind_ok ordering]
      rfl
    · rw [children_update, children_update]
      exact ((((Visits.cons table visits₂).append visits₃).append visits₄).append visits₅)
    · simp only [shape, map, label₂, label₃, label₄, label₅]
  | root cs =>
    obtain ⟨ds, s', visited, visits, labels⟩ := list cs (fun e he => total _ (by simp [he])) s
    refine ⟨.root ds, s', ?_, by simpa using visits, ?_⟩
    · rw [Node.mapM, bind_ok visited]
      rfl
    · simp only [shape, map, labels]

end Total

end SqlFold
