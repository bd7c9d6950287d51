import Mathlib
import SqlFold.Forest.Equations
import SqlFold.Proofs.Parsing

/-!
# Equations follow from conditions

`Interpretation` gives columns and literals values and all other expressions truth values;
`Tree.Holds` is the truth of a condition under it: `=` between two of them is equality, a bracket
around one item stands for the item, a clause for its condition, and a conjunction is read from left to
right.

* Where a condition holds, so do its equations, unless there is a statement in it
  (`Tree.Holds.equations`);
* a condition made of equations, `AND` and brackets holds where its equations do
  (`Tree.Conjunctive.holds_iff`);
* the equations of a parsed text are listed in the order of the text, each of them once, and those of
  a `SELECT` are those of its joins and its `WHERE` (`Dialect.parse_equations`).
-/

namespace SqlFold

open Forest

variable {ι : Type}

/-! ## Truth -/

/-- Values for columns and literals, and truth values for other expressions. -/
structure Interpretation (ι : Type) where
  Value : Type
  value : Tree ι → Value
  truth : Tree ι → Prop

/-- The truth of a chain, where that of the operands before is known. -/
def Junct.chain (before : Prop) (j : Junct Prop) : Prop :=
  if j.wordKind? = some .orKw then before ∨ j.expression else before ∧ j.expression

/-- The truth of a chain of operands, read from left to right. -/
def Conjunction.Holds (c : Conjunction Prop) : Prop :=
  (c.second :: c.rest).foldl Junct.chain c.first.expression

namespace Interpretation

variable (I : Interpretation ι)

/-- The truth of a layer, where that of the sub-trees is known. -/
def layer (tag : ι) (n : Node (Tree ι × Prop)) : Prop :=
  match n with
  | .operation o =>
    if n.isEquation (·.1.kind) then I.value o.left.1 = I.value o.right.1
    else I.truth (.mk tag (n.map Prod.fst))
  | .bracket ⟨_, _, [item]⟩ => item.2
  | .conjunction c =>
    Conjunction.Holds ⟨c.first.map Prod.snd, c.second.map Prod.snd, c.rest.map (·.map Prod.snd)⟩
  | .whereClause c | .havingClause c => c.expression.2
  | .join ⟨_, _, _, some c⟩ =>
    if c.keyword.kind = .onKw then c.expression.2 else I.truth (.mk tag (n.map Prod.fst))
  | n => I.truth (.mk tag (n.map Prod.fst))

end Interpretation

/-- A join with `ON` has its condition as condition. -/
theorem Node.conditions_on {α : Type} {j : Join α} {c : Restriction α} (condition : j.condition = some c)
    (on : c.keyword.kind = .onKw) : (Node.join j).conditions = [c.expression] := by
  obtain ⟨_, _, _, _⟩ := j
  cases condition
  exact if_pos on

namespace Tree

variable {I : Interpretation ι} {tag : ι}

/-- Whether a condition is true under an interpretation. -/
def Holds (I : Interpretation ι) : Tree ι → Prop := fold I.layer

theorem holds_mk (n : Node (Tree ι)) :
    (mk tag n).Holds I = I.layer tag (n.map fun t => (t, t.Holds I)) := fold_mk _ _ _

/-- An equation holds where its sides have one value. -/
theorem holds_equation {o : Operation (Tree ι)} (equation : (Node.operation o).isEquation kind = true) :
    (mk tag (.operation o)).Holds I ↔ I.value o.left = I.value o.right := by
  have same : (Node.map (fun t => (t, t.Holds I)) (.operation o)).isEquation (·.1.kind) = true := by
    rw [Node.isEquation_map]
    exact equation
  rw [holds_mk]
  show (if _ then _ else _) ↔ _
  rw [if_pos same]

theorem holds_bracket {opening closing : Token} {item : Tree ι} :
    (mk tag (.bracket ⟨opening, closing, [item]⟩)).Holds I ↔ item.Holds I := by
  rw [holds_mk]
  rfl

/-- A conjunction is read from left to right. -/
theorem holds_chain {c : Conjunction (Tree ι)} :
    (mk tag (.conjunction c)).Holds I ↔
      ((c.second :: c.rest).map (Junct.map (Holds I))).foldl Junct.chain (c.first.expression.Holds I) := by
  have rest : (c.rest.map (·.map fun t => (t, t.Holds I))).map (·.map Prod.snd) =
      c.rest.map (Junct.map (Holds I)) := by
    simp [Junct.map]
  rw [holds_mk]
  show Conjunction.Holds ⟨_, _, (c.rest.map (·.map fun t => (t, t.Holds I))).map (·.map Prod.snd)⟩ ↔ _
  rw [rest]
  rfl

/-- A chain of `AND`s holds where all operands do. -/
theorem holds_conjunction {c : Conjunction (Tree ι)} (allAnd : c.allAnd = true) :
    (mk tag (.conjunction c)).Holds I ↔ ∀ j ∈ c.parts, j.expression.Holds I := by
  have chain (js : List (Junct (Tree ι))) (before : Prop)
      (ands : ∀ j ∈ js, j.wordKind? ≠ some .orKw) :
      (js.map (Junct.map (Holds I))).foldl Junct.chain before ↔ before ∧ ∀ j ∈ js, j.expression.Holds I := by
    induction js generalizing before with
    | nil => simp
    | cons j js ih =>
      obtain ⟨here, behind⟩ := List.forall_mem_cons.mp ands
      have step : Junct.chain before (j.map (Holds I)) = (before ∧ j.expression.Holds I) := if_neg here
      rw [List.map_cons, List.foldl_cons, step, ih _ behind, List.forall_mem_cons, and_assoc]
  have ands : ∀ j ∈ c.second :: c.rest, j.wordKind? ≠ some .orKw := by
    intro j mem isOr
    have isAnd := List.all_eq_true.mp allAnd .orKw
      (List.mem_filterMap.mpr ⟨j, List.mem_cons_of_mem _ mem, isOr⟩)
    cases isAnd
  rw [holds_chain, chain _ _ ands]
  exact (List.forall_mem_cons (p := fun j : Junct (Tree ι) => j.expression.Holds I)).symm

theorem holds_whereClause {c : Restriction (Tree ι)} :
    (mk tag (.whereClause c)).Holds I ↔ c.expression.Holds I := by
  rw [holds_mk]
  rfl

theorem holds_havingClause {c : Restriction (Tree ι)} :
    (mk tag (.havingClause c)).Holds I ↔ c.expression.Holds I := by
  rw [holds_mk]
  rfl

/-- A join with `ON` stands for its condition. -/
theorem holds_on {j : Join (Tree ι)} {c : Restriction (Tree ι)} (condition : j.condition = some c)
    (on : c.keyword.kind = .onKw) : (mk tag (.join j)).Holds I ↔ c.expression.Holds I := by
  obtain ⟨_, _, _, _⟩ := j
  cases condition
  rw [holds_mk]
  show (if c.keyword.kind = .onKw then c.expression.Holds I else _) ↔ _
  rw [if_pos on]

/-! ## Equations -/

/-- What the equations of a layer are, where it is none itself. -/
theorem equations_of_conditions {n : Node (Tree ι)} (other : n.isEquation kind = false) :
    (mk tag n).equations = n.conditions.flatMap equations := by
  rw [equations_mk, if_neg (by simp [other])]

/-- Where a condition holds, so do the conditions that it passes on, if it is no statement. -/
theorem Holds.conditions {n : Node (Tree ι)} (holds : (mk tag n).Holds I) (plain : n.kind ≠ .select) :
    ∀ c ∈ n.conditions, c.Holds I := by
  cases n with
  | conjunction c =>
    rw [Node.conditions]
    split
    · next allAnd => exact List.forall_mem_map.mpr (holds_conjunction allAnd |>.mp holds)
    · exact List.forall_mem_nil _
  | bracket p =>
    obtain ⟨opening, closing, _ | ⟨item, _ | _⟩⟩ := p
    · exact List.forall_mem_nil _
    · exact List.forall_mem_singleton.mpr (holds_bracket.mp holds)
    · exact List.forall_mem_nil _
  | whereClause c => exact List.forall_mem_singleton.mpr (holds_whereClause.mp holds)
  | havingClause c => exact List.forall_mem_singleton.mpr (holds_havingClause.mp holds)
  | join j =>
    obtain ⟨_, _, _, _ | c⟩ := j
    · exact List.forall_mem_nil _
    · rw [Node.conditions]
      split
      · next on => exact List.forall_mem_singleton.mpr ((holds_on rfl on).mp holds)
      · exact List.forall_mem_nil _
  | select => exact absurd rfl plain
  | _ => exact List.forall_mem_nil _

/-- The conditions that a layer passes on are among its sub-nodes, in the same order. -/
theorem conditions_sublist {α : Type} (n : Node α) : n.conditions.Sublist n.children := by
  cases n with
  | conjunction c =>
    rw [Node.conditions, Node.children_conjunction]
    split
    · exact .refl _
    · exact List.nil_sublist _
  | bracket p => obtain ⟨_, _, _ | ⟨_, _ | _⟩⟩ := p <;> simp [Node.conditions]
  | whereClause c => exact .refl _
  | havingClause c => exact .refl _
  | join j =>
    obtain ⟨_, _, _, _ | c⟩ := j
    · exact List.nil_sublist _
    · rw [Node.conditions, Node.children_join]
      split
      · exact (List.Sublist.refl _).cons _
      · exact List.nil_sublist _
  | select s =>
    rw [Node.conditions, Node.children_select, List.append_assoc, List.append_assoc]
    exact ((List.sublist_append_right _ _).append (.refl _)).trans (List.sublist_append_left _ _)
  | _ => exact List.nil_sublist _

/-- Where a condition holds, so do its equations, if there is no statement in it. -/
theorem Holds.equations {t : Tree ι} (holds : t.Holds I) (plain : ∀ u ∈ t.subtrees, u.kind ≠ .select) :
    ∀ e ∈ t.equations, e.Holds I := by
  induction t using Tree.induction with
  | step tag n ih =>
    rw [subtrees_eq, List.forall_mem_cons] at plain
    rw [equations_mk]
    split
    · exact List.forall_mem_singleton.mpr holds
    · intro e mem
      obtain ⟨c, passed, listed⟩ := List.mem_flatMap.mp mem
      have below : c ∈ n.children := (conditions_sublist n).subset passed
      refine ih c below (holds.conditions plain.1 c passed) (fun u inside => ?_) e listed
      exact plain.2 u (List.mem_flatMap.mpr ⟨c, below, inside⟩)

/-- A condition that is made of equations, `AND` and brackets around one item, and a clause with such a
condition. -/
inductive Conjunctive : Tree ι → Prop
  | equation {tag : ι} {n : Node (Tree ι)} : n.isEquation kind = true → Conjunctive (mk tag n)
  | bracket {tag : ι} {opening closing : Token} {item : Tree ι} : Conjunctive item →
      Conjunctive (mk tag (.bracket ⟨opening, closing, [item]⟩))
  | conjunction {tag : ι} {c : Conjunction (Tree ι)} : c.allAnd = true →
      (∀ j ∈ c.parts, Conjunctive j.expression) → Conjunctive (mk tag (.conjunction c))
  | whereClause {tag : ι} {c : Restriction (Tree ι)} : Conjunctive c.expression →
      Conjunctive (mk tag (.whereClause c))
  | havingClause {tag : ι} {c : Restriction (Tree ι)} : Conjunctive c.expression →
      Conjunctive (mk tag (.havingClause c))
  | join {tag : ι} {j : Join (Tree ι)} {c : Restriction (Tree ι)} : j.condition = some c →
      c.keyword.kind = .onKw → Conjunctive c.expression → Conjunctive (mk tag (.join j))

/-- Such a condition holds where its equations do. -/
theorem Conjunctive.holds_iff {t : Tree ι} (conjunctive : t.Conjunctive) :
    t.Holds I ↔ ∀ e ∈ t.equations, e.Holds I := by
  induction conjunctive with
  | equation equation =>
    rw [equations_mk, if_pos equation, List.forall_mem_singleton]
  | bracket _ ih =>
    rw [equations_of_conditions rfl, holds_bracket, ih]
    simp [Node.conditions]
  | @conjunction tag c allAnd _ ih =>
    rw [equations_of_conditions rfl, holds_conjunction allAnd]
    simp only [Node.conditions, allAnd, if_true, List.flatMap_map, List.mem_flatMap, forall_exists_index, and_imp]
    constructor
    · intro all e j mem listed
      exact (ih j mem).mp (all j mem) e listed
    · intro all j mem
      exact (ih j mem).mpr fun e listed => all e j mem listed
  | whereClause _ ih =>
    rw [equations_of_conditions rfl, holds_whereClause, ih]
    simp [Node.conditions]
  | havingClause _ ih =>
    rw [equations_of_conditions rfl, holds_havingClause, ih]
    simp [Node.conditions]
  | join condition on _ ih =>
    rw [equations_of_conditions rfl, holds_on condition on, ih, Node.conditions_on condition on]
    simp

/-! ## Order -/

/-- The tokens of the sub-trees are tokens of the tree, in the same order. -/
theorem tokens_children_sublist (t : Tree ι) : (t.children.flatMap tokens).Sublist t.tokens := by
  obtain ⟨tag, n⟩ := t
  have parts (ps : List (Part (Tree ι))) :
      ((ps.filterMap Part.child?).flatMap tokens).Sublist (ps.flatMap (Part.read tokens)) := by
    induction ps with
    | nil => exact .refl _
    | cons p ps ih =>
      cases p with
      | child c =>
        rw [List.filterMap_cons, Part.child?_child, List.flatMap_cons, List.flatMap_cons, Part.read_child]
        exact (List.Sublist.refl _).append ih
      | _ => exact ih.trans (List.sublist_append_right _ _)
  rw [tokens_mk]
  exact parts n.parts

/-- The tokens of the equations are tokens of the tree, in the same order. -/
theorem tokens_equations_sublist (t : Tree ι) : (t.equations.flatMap tokens).Sublist t.tokens := by
  induction t using Tree.induction with
  | step tag n ih =>
    rw [equations_mk]
    split
    · rw [List.flatMap_singleton]
    · have passed : ((n.conditions.flatMap equations).flatMap tokens).Sublist (n.conditions.flatMap tokens) := by
        rw [List.flatMap_assoc]
        exact .flatMap_right _ fun c passed => ih c ((conditions_sublist n).subset passed)
      exact passed.trans (((conditions_sublist n).flatMap tokens).trans (tokens_children_sublist (mk tag n)))

/-- The first token of a tree is one of its tokens. -/
theorem mem_tokens_of_leading {t : Tree ι} {k : Token} (leading : t.leadingToken? = some k) : k ∈ t.tokens := by
  induction t using Tree.induction generalizing k with
  | step tag n ih =>
    rw [leadingToken?_mk] at leading
    obtain ⟨p, listed, shown⟩ := List.exists_of_findSome?_eq_some leading
    rw [tokens_mk, List.mem_flatMap]
    cases p with
    | token t =>
      cases shown
      exact ⟨_, listed, by simp⟩
    | child c => exact ⟨_, listed, ih c (List.mem_filterMap.mpr ⟨_, listed, rfl⟩) shown⟩
    | absent => cases shown
    | mark => cases shown

/-- Trees whose tokens stand one behind the other do so as well. -/
theorem ordered_of_sublist {ts : List (Tree ι)} {ks : List Token}
    (increasing : ks.Pairwise fun k k' => k.position.Before k'.position) (spelled : (ts.flatMap tokens).Sublist ks)
    (leading : ∀ t ∈ ts, ∃ k, t.leadingToken? = some k) : ts.Pairwise fun t t' => t.position.Before t'.position := by
  have apart := (List.pairwise_flatMap.mp (increasing.sublist spelled)).2
  refine apart.imp_of_mem ?_
  intro t t' mem mem' before
  obtain ⟨k, first⟩ := leading t mem
  obtain ⟨k', first'⟩ := leading t' mem'
  rw [position, position, first, first']
  exact before k (mem_tokens_of_leading first) k' (mem_tokens_of_leading first')

/-- An equation has a first token. -/
theorem leading_of_mem_equations {t e : Tree ι} (mem : e ∈ t.equations) : ∃ k, e.leadingToken? = some k := by
  induction t using Tree.induction with
  | step tag n ih =>
    rw [equations_mk] at mem
    split at mem
    · next equation =>
      cases List.mem_singleton.mp mem
      cases n with
      | operation o =>
        have term : o.left.kind.isTerm = true := by
          simp only [Node.isEquation, Bool.and_eq_true] at equation
          exact equation.1.2
        obtain ⟨⟨_, left⟩, _, _⟩ := o
        cases left with
        | column c =>
          obtain ⟨_ | _, _ | _, _⟩ := c <;>
            simp [leadingToken?_mk, Node.leadingToken?, Node.parts, Part.ofToken?]
        | literal l =>
          obtain ⟨_ | _, _⟩ := l <;> simp [leadingToken?_mk, Node.leadingToken?, Node.parts, Part.ofToken?]
        | _ => cases term
      | _ => cases equation
    · obtain ⟨c, passed, listed⟩ := List.mem_flatMap.mp mem
      exact ih c ((conditions_sublist n).subset passed) listed

end Tree

/-- The condition behind `ON`. -/
def Node.onCondition? {α : Type} : Node α → Option α
  | .join ⟨_, _, _, some c⟩ => if c.keyword.kind = .onKw then some c.expression else none
  | _ => none

/-- The condition of a join is the one behind `ON`. -/
theorem Node.conditions_join {α : Type} {n : Node α} (join : n.kind = .join) :
    n.conditions = n.onCondition?.toList := by
  cases n with
  | join j =>
    obtain ⟨_, _, _, _ | c⟩ := j
    · rfl
    · simp only [conditions, onCondition?]
      split <;> rfl
  | _ => cases join

/-! ## Nodes of a store -/

namespace Forest

variable {f : Forest} {r : NodeRef}

/-- The equations of a node entail and are entailed by what they should, and stand in order. -/
structure EquationsRight (f : Forest) (r : NodeRef) : Prop where
  /-- Where the condition at the node holds, so do the equations, unless there is a subquery in it. -/
  implied (I : Interpretation NodeRef) : (∀ t ∈ (f.tree r).subtrees, t.kind ≠ .select) → (f.tree r).Holds I →
    ∀ e ∈ f.equations r, e.Holds I
  /-- Where the equations hold, so does a condition that is made of nothing else. -/
  complete (I : Interpretation NodeRef) : (f.tree r).Conjunctive →
    ((f.tree r).Holds I ↔ ∀ e ∈ f.equations r, e.Holds I)
  /-- The equations are nodes below. -/
  below : ∀ e ∈ f.equations r, f.Below r e.tag ∧ e = f.tree e.tag
  ordered : (f.equations r).Pairwise fun e e' => e.position.Before e'.position
  once : ((f.equations r).map Tree.tag).Nodup
  /-- A `SELECT` has the equations of its joins before those of its `WHERE`. -/
  select (s : Select NodeRef) : f.node r = .select s →
    f.equations r =
      (s.joins.flatMap fun j => (f.node j).onCondition?.toList.flatMap f.equations) ++
        s.filter.toList.flatMap f.equations

namespace Coherent

variable (h : f.Coherent)

include h

/-- A node is an equation or passes the equations of its conditions on. -/
theorem equations_node (r : NodeRef) :
    f.equations r =
      if (f.node r).isEquation f.kind then [f.tree r] else (f.node r).conditions.flatMap f.equations := by
  have kinds : Tree.kind ∘ f.tree = f.kind := by
    funext c
    show (f.tree c).node.kind = _
    rw [h.tree_eq, Tree.node, Node.kind_map]
    rfl
  rw [equations_eq, h.tree_eq, Tree.equations_mk, Node.isEquation_map, kinds, Node.conditions_map, List.flatMap_map,
    ← funext f.equations_eq]

/-- The equations of a node are nodes below it. -/
theorem equations_below (r : NodeRef) : ∀ e ∈ f.equations r, f.Below r e.tag ∧ e = f.tree e.tag := by
  induction r using h.grounded.induction with
  | _ r ih =>
    intro e mem
    rw [h.equations_node] at mem
    split at mem
    · cases List.mem_singleton.mp mem
      rw [h.tag_tree]
      exact ⟨.refl, rfl⟩
    · obtain ⟨c, passed, listed⟩ := List.mem_flatMap.mp mem
      have mem : c ∈ f.children r := (Tree.conditions_sublist _).subset passed
      obtain ⟨below, eq⟩ := ih c mem e listed
      exact ⟨.head mem below, eq⟩

/-- The tokens below a node are tokens of the node, in the same order. -/
theorem tokens_sublist_of_below {q : NodeRef} (below : f.Below q r) :
    (f.tree r).tokens.Sublist (f.tree q).tokens := by
  induction below with
  | refl => exact .refl _
  | @tail s r _ mem ih =>
    refine List.Sublist.trans ?_ (((f.tree s).tokens_children_sublist).trans ih)
    have child : f.tree r ∈ (f.tree s).children := h.children_tree s ▸ List.mem_map_of_mem mem
    exact List.sublist_flatten_of_mem (List.mem_map_of_mem child)

end Coherent

end Forest

namespace Dialect

variable {vocabulary : Vocabulary} {limit : Nat} {source : String} {f : Forest} {r : NodeRef}

namespace Parsed

variable {script : Script} {row : Row} (h : Parsed vocabulary limit source f script row)

include h

/-- The tokens of a tree stand one behind the other. -/
theorem tokens_increasing (reached : f.Reached r) :
    (f.tree r).tokens.Pairwise fun t u => t.position.Before u.position := by
  have below := reached_iff_below.mp reached
  have spelled := (Tree.spells_bare.mp h.spells : (f.tree root).Spells script.significant)
  exact h.increasing.sublist ((h.sound.coherent.tokens_sublist_of_below below).trans (Tree.tokens_sublist spelled))

/-- Equations stand one behind the other. -/
theorem equations_ordered (reached : f.Reached r) :
    (f.equations r).Pairwise fun e e' => e.position.Before e'.position := by
  rw [f.equations_eq]
  refine Tree.ordered_of_sublist (h.tokens_increasing reached) (f.tree r).tokens_equations_sublist fun e mem => ?_
  exact (f.tree r).leading_of_mem_equations mem

/-- A `SELECT` has the equations of its joins before those of its `WHERE`. -/
theorem equations_select (reached : f.Reached r) {s : Select NodeRef} (node : f.node r = .select s) :
    f.equations r = (s.joins.flatMap fun j => (f.node j).onCondition?.toList.flatMap f.equations) ++
      s.filter.toList.flatMap f.equations := by
  have joins : ∀ j ∈ s.joins, f.kind j = .join := by
    rcases h.all_reached (fun t mem => (h.sound_row t mem).all) reached with rfl | layers
    · have isRoot := h.sound.root
      rw [node] at isRoot
      cases isRoot
    · obtain ⟨_, slots⟩ := layers.node
      rw [h.sound.coherent.node_bare, Node.slots_map, node] at slots
      intro j mem
      have kind := slots.2.2.2.2.1 j mem
      rwa [Function.comp, Rule.glance, h.sound.coherent.node_bare, Node.kind_map] at kind
  rw [h.sound.coherent.equations_node, node, if_neg (by simp [Node.isEquation]), Node.conditions, List.flatMap_append]
  congr 1
  refine List.flatMap_congr fun j mem => ?_
  have join := joins j mem
  have other : (f.node j).isEquation f.kind = false := by
    cases shape : f.node j with
    | operation =>
      rw [kind, shape] at join
      cases join
    | _ => rfl
  rw [h.sound.coherent.equations_node, other, if_neg (by simp), Node.conditions_join join]

end Parsed

/-- The equations of every node of a parsed text are right. -/
theorem parse_equations (ok : (Dialect.mk vocabulary (.standard limit)).parse source = .ok f)
    (reached : f.Reached r) : f.EquationsRight r := by
  obtain ⟨script, row, h⟩ := exists_parsed ok
  have ordered := h.equations_ordered reached
  have below := h.sound.coherent.equations_below r
  refine ⟨fun I plain holds => ?_, fun I conjunctive => ?_, below, ordered, ?_, fun s => h.equations_select reached⟩
  · rw [f.equations_eq]
    exact holds.equations plain
  · rw [f.equations_eq]
    exact conjunctive.holds_iff
  · refine List.pairwise_map.mpr (ordered.imp_of_mem fun {e e'} mem mem' before same => ?_)
    rw [(below e mem).2, (below e' mem').2, same] at before
    exact Text.Position.Before.irrefl _ before

/-- The equations of `SELECT 1 WHERE a=b` are right, once it is parsed. -/
theorem parse_equations_oneEquation : ∃ f r, Dialect.standard.parse "SELECT 1 WHERE a=b" = .ok f ∧
    f.Reached r ∧ f.kind r = .select ∧ f.EquationsRight r := by
  have scanned : Script.ofText? .standard "SELECT 1 WHERE a=b" = .ok ⟨"SELECT 1 WHERE a=b",
      [⟨.selectKw, "SELECT", ⟨0, 0⟩⟩, ⟨.whitespace, " ", ⟨0, 6⟩⟩, ⟨.numericLiteral, "1", ⟨0, 7⟩⟩,
        ⟨.whitespace, " ", ⟨0, 8⟩⟩, ⟨.whereKw, "WHERE", ⟨0, 9⟩⟩, ⟨.whitespace, " ", ⟨0, 14⟩⟩,
        ⟨.symbol, "a", ⟨0, 15⟩⟩, ⟨.operator, "=", ⟨0, 16⟩⟩, ⟨.symbol, "b", ⟨0, 17⟩⟩]⟩ :=
    Script.ofText?_standard (by decide +kernel)
  have settled : Row.settle (.standard Folding.standardLimit) false 7 (Row.leaves
      [⟨.selectKw, "SELECT", ⟨0, 0⟩⟩, ⟨.numericLiteral, "1", ⟨0, 7⟩⟩, ⟨.whereKw, "WHERE", ⟨0, 9⟩⟩,
        ⟨.symbol, "a", ⟨0, 15⟩⟩, ⟨.operator, "=", ⟨0, 16⟩⟩, ⟨.symbol, "b", ⟨0, 17⟩⟩]) =
      .ok () [.mk () (.select ⟨⟨.selectKw, "SELECT", ⟨0, 0⟩⟩, none,
        [⟨.mk () (.literal ⟨none, ⟨.numericLiteral, "1", ⟨0, 7⟩⟩⟩), none⟩], none, [],
        some (.mk () (.whereClause ⟨⟨.whereKw, "WHERE", ⟨0, 9⟩⟩, .mk () (.operation
          ⟨.mk () (.column ⟨none, none, ⟨.symbol, "a", ⟨0, 15⟩⟩⟩), [⟨.operator, "=", ⟨0, 16⟩⟩],
            .mk () (.column ⟨none, none, ⟨.symbol, "b", ⟨0, 17⟩⟩⟩)⟩)⟩)),
        none, none, none⟩)] := by
    cbv
  obtain ⟨f, ok, h⟩ := parse_of_settle scanned settled
  obtain ⟨r, listed, bare⟩ := List.map_eq_singleton_iff.mp h.children_root
  have reached : f.Reached r := .child .root (listed ▸ List.mem_singleton_self r)
  refine ⟨f, r, ok, reached, ?_, parse_equations ok reached⟩
  rw [kind, ← Node.kind_map f.bare, ← h.sound.coherent.node_bare, bare]
  rfl

end Dialect

end SqlFold
