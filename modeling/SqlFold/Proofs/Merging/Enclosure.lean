import SqlFold.Proofs.Entailment
import SqlFold.Proofs.Lines
import SqlFold.Proofs.Rows.Phases

/-!
# Conjunctions in brackets

No rule makes a conjunction an operand of a conjunction, but a merged condition is one with such operands, and it
is written with brackets around them. `Tree.enclosed` is the tree with those brackets in it. It is written as the
tree is (`Tree.render_enclosed`), its equations are written as those of the tree (`Tree.equations_enclosed`), and a
tree without nested conjunctions stays as it is (`Tree.enclosed_of_regular`).
-/

namespace SqlFold

variable {ι κ : Type}

namespace Token

/-- The bracket that is written before a nested conjunction. -/
def opening : Token := ⟨.bracketOpen, "(", .start⟩

/-- The bracket that is written behind a nested conjunction. -/
def closing : Token := ⟨.bracketClose, ")", .start⟩

end Token

/-- Which sub-nodes are conditions shows nothing of the positions. -/
theorem KeepsLooks.conditions_mapTokens {h : Token → Token} (keeps : KeepsLooks h) {α : Type} (n : Node α) :
    (n.mapTokens h).conditions = n.conditions := by
  cases n with
  | conjunction c =>
    have words : (c.parts.map fun j => (⟨j.operator.map h, j.expression⟩ : Junct α)).filterMap Junct.wordKind? =
        c.parts.filterMap Junct.wordKind? := by
      rw [List.filterMap_map]
      refine List.filterMap_congr fun j _ => ?_
      cases operator : j.operator <;> simp [Junct.wordKind?, operator, keeps.kind]
    have allAnd : Conjunction.allAnd ⟨⟨c.first.operator.map h, c.first.expression⟩,
        ⟨c.second.operator.map h, c.second.expression⟩, c.rest.map fun j => ⟨j.operator.map h, j.expression⟩⟩ =
          c.allAnd :=
      congrArg (fun kinds : List TokenKind => kinds.all fun kind => kind == .andKw) words
    simp only [Node.mapTokens, Node.conditions, allAnd]
    simp [Conjunction.parts, Function.comp_def]
  | bracket p => obtain ⟨_, _, _ | ⟨_, _ | _⟩⟩ := p <;> rfl
  | join j => obtain ⟨_, _, _, _ | c⟩ := j <;> simp [Node.mapTokens, Node.conditions, Restriction.mapTokens, keeps.kind]
  | _ => rfl

namespace Tree

/-- The sub-tree of a layer of the kind `outer`, in brackets where conjunctions nest. -/
def operandOf (outer : NodeKind) (t : Bare) : Bare :=
  if outer = .conjunction ∧ t.kind = .conjunction then Row.span .opening .closing [t] else t

/-- The tree with brackets around the conjunctions in conjunctions. -/
def enclosed : Bare → Bare := fold fun _ n => mk () (n.map fun c => c.2.operandOf n.kind)

theorem operandOf_of_ne {outer : NodeKind} {t : Bare} (other : outer = .conjunction → t.kind ≠ .conjunction) :
    t.operandOf outer = t :=
  if_neg fun nested => other nested.1 nested.2

theorem operandOf_conjunction {t : Bare} (nested : t.kind = .conjunction) :
    t.operandOf .conjunction = Row.span .opening .closing [t] :=
  if_pos ⟨rfl, nested⟩

/-- What is said of the operand in its brackets is said of the operand. -/
theorem All.of_operandOf {C : Node Bare → Prop} {outer : NodeKind} {t : Bare} (all : (t.operandOf outer).All C) :
    t.All C := by
  by_cases nested : outer = .conjunction ∧ t.kind = .conjunction
  · rw [operandOf, if_pos nested] at all
    exact all.children t List.mem_cons_self
  · rwa [operandOf, if_neg nested] at all

theorem enclosed_mk (n : Node Bare) : (mk () n).enclosed = mk () (n.map fun c => c.enclosed.operandOf n.kind) := by
  rw [enclosed, fold_mk, Node.map_map, Node.kind_map]
  rfl

theorem enclosed_of_ne {n : Node Bare} (plain : n.kind ≠ .conjunction) :
    (mk () n).enclosed = mk () (n.map enclosed) := by
  rw [enclosed_mk]
  exact congrArg (mk ()) (Node.map_congr fun c _ => operandOf_of_ne fun conjunction => absurd conjunction plain)

theorem node_enclosed (t : Bare) : t.enclosed.node = t.node.map fun c => c.enclosed.operandOf t.kind := by
  obtain ⟨⟨⟩, n⟩ := t
  rw [enclosed_mk]
  rfl

@[simp] theorem kind_enclosed (t : Bare) : t.enclosed.kind = t.kind := by
  rw [kind, node_enclosed, Node.kind_map]
  rfl

theorem tokenKind?_enclosed (t : Bare) : t.enclosed.node.tokenKind? = t.node.tokenKind? := by
  rw [node_enclosed, Node.tokenKind?, Node.token?_map]
  rfl

/-- Where no conjunction nests, there are no brackets to add. -/
theorem enclosed_of_regular {t : Bare} (regular : t.All Regular) : t.enclosed = t := by
  induction regular with
  | @mk n here below ih =>
    rw [enclosed_mk]
    refine congrArg (mk ()) ((Node.map_congr fun c listed => ?_).trans n.map_id')
    rw [ih c listed]
    refine operandOf_of_ne fun conjunction => ?_
    have nests := here.2.2
    cases n with
    | conjunction c =>
      obtain ⟨j, part, rfl⟩ := List.mem_map.mp (Node.children_conjunction c ▸ listed)
      exact nests j part
    | _ => cases conjunction

/-! ## The text -/

/-- What is written between brackets. -/
theorem render_span (opening closing : Token) (t : Bare) :
    (Row.span opening closing [t]).render = opening.lexeme ++ t.render ++ closing.lexeme := by
  rw [Row.span, render_mk]
  simp [Node.map, Render.layer, Render.sequence, Render.sequenceAfter]

/-- An operand of a conjunction is written with the brackets that it needs. -/
theorem junct_enclosed (operator : Option Token) {e : Bare} (same : e.enclosed.render = e.render) :
    Render.junct ⟨operator, (e.enclosed.operandOf .conjunction, (e.enclosed.operandOf .conjunction).render)⟩ =
      Render.junct ⟨operator, (e, e.render)⟩ := by
  by_cases nested : e.kind = .conjunction
  · rw [operandOf_conjunction (e.kind_enclosed.trans nested), render_span, same]
    have bracket : (Row.span .opening .closing [e.enclosed]).kind ≠ .conjunction := nofun
    simp only [Render.junct, if_neg bracket, if_pos nested]
    rfl
  · rw [operandOf_of_ne fun _ => e.kind_enclosed ▸ nested, same]
    simp only [Render.junct, kind_enclosed]

/-- A conjunction is written operand by operand. -/
theorem layer_conjunction {α : Type} (c : Conjunction α) (f : α → Tree ι × String) :
    Render.layer ((Node.conjunction c).map f) = String.join (c.parts.map fun j => Render.junct (j.map f)) := by
  simp [Node.map, Render.layer, Conjunction.parts, Function.comp_def]

/-- The brackets are those that are written around a nested conjunction. -/
theorem render_enclosed (t : Bare) : t.enclosed.render = t.render := by
  induction t using Tree.induction with
  | step tag n ih =>
    rw [enclosed_mk, render_mk, render_mk, Node.map_map]
    by_cases conjunction : n.kind = .conjunction
    · cases n with
      | conjunction c =>
        rw [layer_conjunction, layer_conjunction]
        refine congrArg String.join (List.map_congr_left fun j part => ?_)
        exact junct_enclosed j.operator (ih j.expression (Node.children_conjunction c ▸ List.mem_map_of_mem part))
      | _ => cases conjunction
    · -- In the other layers the sub-trees stand as they are enclosed, and only their texts are read.
      have texts : n.map (fun e => (e.enclosed.operandOf n.kind, (e.enclosed.operandOf n.kind).render)) =
          (n.map fun e => (e, e.render)).map (Prod.map enclosed (·)) := by
        rw [Node.map_map]
        refine Node.map_congr fun e listed => ?_
        rw [operandOf_of_ne fun same => absurd same conjunction, ih e listed]
        rfl
      exact (congrArg Render.layer texts).trans (Render.layer_map kind_enclosed tokenKind?_enclosed _)

/-! ## The equations -/

/-- A layer is an equation whether or not conjunctions are enclosed in it. -/
theorem isEquation_enclosed (n : Node Bare) :
    (n.map fun c => c.enclosed.operandOf n.kind).isEquation kind = n.isEquation kind := by
  cases n with
  | operation o =>
    have operand (e : Bare) : (e.enclosed.operandOf .operation).kind = e.kind :=
      (congrArg kind (@operandOf_of_ne .operation _ nofun)).trans e.kind_enclosed
    simp only [Node.map, Node.isEquation, Node.kind, operand, Operation.isEquals]
  | _ => rfl

/-- Brackets around one operand pass on its equations. -/
theorem equations_operandOf (outer : NodeKind) (t : Bare) : (t.operandOf outer).equations = t.equations := by
  rw [operandOf]
  split
  · rw [Row.span, equations_of_conditions rfl]
    exact List.flatMap_singleton ..
  · rfl

/-- The equations are written as without the brackets. -/
theorem equations_enclosed (t : Bare) : t.enclosed.equations.map render = t.equations.map render := by
  induction t using Tree.induction with
  | step tag n ih =>
    have whole := render_enclosed (mk tag n)
    rw [enclosed_mk] at whole ⊢
    rw [equations_mk, equations_mk, isEquation_enclosed]
    split
    · exact congrArg (fun s => [s]) whole
    · rw [Node.conditions_map, List.flatMap_map, List.map_flatMap, List.map_flatMap]
      refine List.flatMap_congr fun c passed => ?_
      rw [equations_operandOf, ih c ((conditions_sublist n).subset passed)]

variable {h : Token → Token}

/-- Trees that look alike have equations that look alike. -/
theorem equations_translate (keeps : KeepsLooks h) (g : ι → κ) (t : Tree ι) :
    (t.translate h g).equations = t.equations.map (translate h g) := by
  induction t using Tree.induction with
  | step tag n ih =>
    have equation : ((n.map (translate h g)).mapTokens h).isEquation kind = n.isEquation kind := by
      cases n with
      | operation o =>
        obtain ⟨left, _ | ⟨op, _ | ⟨_, _⟩⟩, right⟩ := o <;>
          simp [Node.map, Node.mapTokens, Node.isEquation, Operation.isEquals, keeps.lexeme]
      | _ => rfl
    have passed : ((n.map (translate h g)).mapTokens h).conditions = n.conditions.map (translate h g) := by
      rw [← Node.conditions_map, keeps.conditions_mapTokens]
    rw [translate_mk, equations_mk, equations_mk, equation, passed]
    split
    · rw [List.map_singleton, translate_mk]
    · rw [List.flatMap_map, List.map_flatMap]
      exact List.flatMap_congr fun c mem => ih c ((conditions_sublist n).subset mem)

end Tree

end SqlFold
