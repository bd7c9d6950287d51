import SqlFold.Proofs.Engine.Idling
import SqlFold.Proofs.Quiescence
import SqlFold.Proofs.Parsing
import SqlFold.Proofs.Rows.Rest
import SqlFold.Proofs.Rows.Yields

/-!
# Brackets and argument lists

Brackets are checked before names are folded, and behind a name anything is allowed that an argument list may be:
nothing at all, or a list behind `DISTINCT`. But the name need not become that of a call. Behind a point it is a part
of a column name, and its brackets are left to themselves (`BehindPoint`).

So between the brackets of a parsed text there are items with single commas between them, unless the brackets are
those of a call or stand behind a point and a name; and a text without such a place can be run over again without
an error (`Dialect.parse_brackets`).
-/

namespace SqlFold

open Forest

/-- A bracket that opens behind a point and a name. -/
def BehindPoint (ts : List Token) (opening : Token) : Prop :=
  ∃ point name, point.kind = .dot ∧ name.kind = .symbol ∧ opening.kind = .bracketOpen ∧
    [point, name, opening] <:+: ts

theorem BehindPoint.mono {ts us : List Token} {opening : Token} (behind : BehindPoint ts opening)
    (inside : ts <:+: us) : BehindPoint us opening := by
  obtain ⟨point, name, isPoint, isName, opens, stands⟩ := behind
  exact ⟨point, name, isPoint, isName, opens, stands.trans inside⟩

namespace Row

variable {S : Row → Row → Prop} {previous : Option Bare} {raw row row' left right : Row} {here : Bare}

/-! ## What stands before a bracket -/

/-- A row with grouped brackets ends with what the end of the row is grouped to. -/
theorem Grouped.suffix {front back : Row} (grouped : Grouped S previous raw (front ++ back)) :
    ∃ raw₁ raw₂, raw = raw₁ ++ raw₂ ∧ Grouped S (front.getLast?.or previous) raw₂ back := by
  induction front generalizing previous raw with
  | nil => exact ⟨[], raw, rfl, grouped⟩
  | cons t front ih =>
    have last : (t :: front).getLast?.or previous = front.getLast?.or (some t) := by
      cases front <;> rfl
    rw [last]
    cases grouped with
    | cons _ _ _ behind =>
      obtain ⟨raw₁, raw₂, rfl, grouped⟩ := ih behind
      exact ⟨t :: raw₁, raw₂, rfl, grouped⟩
    | @span _ u _ _ row inner _ after _ _ _ split _ _ behind =>
      obtain ⟨closing, rfl, _⟩ := Rule.splitAtClosing?_some split
      obtain ⟨raw₁, raw₂, rfl, grouped⟩ := ih behind
      exact ⟨u :: (inner ++ closing :: raw₁), raw₂, by simp, grouped⟩

/-- Between brackets that stand behind no name there is a proper list. -/
def Introduced (ts : List Token) (row : Row) : Prop :=
  ∀ left here right p, row = List.reverse left ++ here :: right → here.node = .bracket p → Proper p.children ∨
    ∃ name before, left = name :: before ∧ Rule.leafIs Tree.node .symbol name = true ∧
      (before.head?.any (Rule.leafIs Tree.node .dot) = true → BehindPoint ts p.opening)

/-- Leaves that stand side by side are those of tokens that do. -/
theorem exists_infix {ts : List Token} {before inner after : Row} (split : leaves ts = before ++ (inner ++ after)) :
    ∃ us, inner = leaves us ∧ us <:+: ts := by
  obtain ⟨front, rest, rfl, _, behind⟩ := List.map_eq_append_iff.mp split
  obtain ⟨us, back, rfl, same, _⟩ := List.map_eq_append_iff.mp behind
  exact ⟨us, same.symm, front, back, by rw [List.append_assoc]⟩

/-- A leaf stands where it stood before brackets were grouped. -/
theorem Grouped.leaf {t : Bare} {token : Token} (grouped : Grouped S previous raw (t :: row))
    (shown : t.node = .leaf token) : ∃ raw', raw = t :: raw' ∧ Grouped S (some t) raw' row := by
  cases grouped with
  | cons _ _ _ behind => exact ⟨_, rfl, behind⟩
  | span => cases shown

/-- Where a bracket was grouped it opened, and its content was checked. -/
theorem Grouped.bracket {p : Bracket Bare} (grouped : Grouped S previous raw (here :: row))
    (shown : here.node = .bracket p) : ∃ t inner closing raw', raw = t :: (inner ++ closing :: raw') ∧
      t.node = .leaf p.opening ∧ p.opening.kind = .bracketOpen ∧ S inner p.children ∧
        Rule.checkContent Tree.node here p.children (previous.any (Rule.leafIs Tree.node .symbol)) = .ok () := by
  cases grouped with
  | cons plain =>
    rw [Node.isBranch, shown] at plain
    cases plain
  | span node opens split settled checked _ =>
    cases shown
    obtain ⟨closing, rfl, _⟩ := Rule.splitAtClosing?_some split
    exact ⟨_, _, closing, _, rfl, node, opens, settled, checked⟩

theorem Grouped.introduced {ts : List Token} (grouped : Grouped S none (leaves ts) row) : Introduced ts row := by
  rintro left here right p rfl shown
  obtain ⟨_, _, _, back⟩ := grouped.suffix
  obtain ⟨_, _, _, _, rfl, _, opens, _, checked⟩ := back.bracket shown
  rw [List.getLast?_reverse, Option.or_none] at checked
  cases behindName : left.head?.any (Rule.leafIs Tree.node .symbol) with
  | false => exact .inl (proper_of_checked (behindName ▸ checked))
  | true =>
    obtain ⟨name, before, rfl, isName⟩ := Rule.head?_any behindName
    refine .inr ⟨name, before, rfl, isName, fun behindPoint => ?_⟩
    obtain ⟨point, before, rfl, isPoint⟩ := Rule.head?_any behindPoint
    obtain ⟨t, name_eq, nameKind⟩ := Rule.leafIs_iff.mp isName
    obtain ⟨u, point_eq, pointKind⟩ := Rule.leafIs_iff.mp isPoint
    -- The point, the name and the bracket stood side by side among the leaves.
    have sides : Grouped S none (leaves ts) (before.reverse ++ point :: name :: here :: right) := by
      simpa using grouped
    obtain ⟨front, _, whole, atPoint⟩ := sides.suffix
    obtain ⟨_, rfl, atName⟩ := atPoint.leaf point_eq
    obtain ⟨_, rfl, atBracket⟩ := atName.leaf name_eq
    obtain ⟨opening, inner, closing, after, rfl, open_eq, _⟩ := atBracket.bracket shown
    have leaf {a : Bare} {v : Token} (shown : a.node = .leaf v) : a = .mk () (.leaf v) := by
      obtain ⟨⟨⟩, n⟩ := a
      exact congrArg _ shown
    have looks : [point, name, opening] = leaves [u, t, p.opening] := by
      rw [leaf point_eq, leaf name_eq, leaf open_eq]
      rfl
    have whole : leaves ts = front ++ ([point, name, opening] ++ (inner ++ closing :: after)) := whole
    obtain ⟨us, same, infixed⟩ := exists_infix whole
    obtain rfl : [u, t, p.opening] = us :=
      List.map_injective_iff.mpr (fun a b eq => Node.leaf.inj (Tree.mk.inj eq).2) (looks.symm.trans same)
    exact ⟨u, t, pointKind, nameKind, opens, infixed⟩

/-! ## Calls take argument lists -/

variable {ts : List Token} {fold : Fold Bare}

/-- A call takes a name and the brackets behind it. -/
theorem applyCall_taken (answer : Rule.applyCall Tree.node ⟨left, here, right⟩ = .ok (some fold)) :
    ∃ arguments, right = arguments :: fold.right ∧ fold.left = left ∧ arguments.kind = .bracket := by
  unfold Rule.applyCall at answer
  split at answer
  · next name arguments after _ split =>
    split at answer
    · next isBracket =>
      cases answer
      rw [Bool.and_eq_true] at isBracket
      exact ⟨arguments, split, rfl, Rule.isNode_iff.mp isBracket.1⟩
    · cases answer
  · cases answer

theorem introduced_fold (answer : Rule.apply Tree.node .call ⟨left, here, right⟩ = .ok (some fold))
    (introduced : Introduced ts (left.reverse ++ here :: right)) : Introduced ts fold.row := by
  obtain ⟨arguments, rfl, left_eq, isBracket⟩ := applyCall_taken answer
  intro l h r p place shown
  rw [Fold.row, left_eq] at place
  cases place_of_split place with
  | before between front _ =>
    exact introduced l h (between ++ here :: arguments :: fold.right) p (by simp [front]) shown
  | here _ eq =>
    have kind := Rule.kind_tree answer
    rw [← eq, Tree.kind, shown] at kind
    cases kind
  | behind between rear back =>
    have stood := introduced (between ++ arguments :: here :: left) h r p (by simp [rear]) shown
    refine stood.imp_right ?_
    rintro ⟨name, before, split, isName, behindPoint⟩
    cases between with
    | nil =>
      -- Brackets right behind the call stood behind brackets, so not behind a name.
      obtain ⟨rfl, _⟩ := List.cons.inj split
      obtain ⟨_, leaf, _⟩ := Rule.leafIs_iff.mp isName
      rw [Tree.kind, leaf] at isBracket
      cases isBracket
    | cons u between =>
      obtain ⟨rfl, rfl⟩ := List.cons.inj split
      refine ⟨u, between ++ fold.tree :: left, by simp [back], isName, fun isPoint => behindPoint ?_⟩
      cases between with
      | nil => cases (leafIs_tree answer .dot).symm.trans isPoint
      | cons => exact isPoint

/-- A bracket with a proper list in it, or behind a point and a name. -/
def Listed (ts : List Token) (t : Bare) : Prop :=
  ∀ p, t.node = .bracket p → Proper p.children ∨ BehindPoint ts p.opening

/-- When `Rule.call` has come to rest the brackets behind a name are those behind a point. -/
theorem listed_of_declined (introduced : Introduced ts row) (declined : Declined .call row) :
    ∀ t ∈ row, Listed ts t := by
  intro t mem p shown
  obtain ⟨before, after, split⟩ := List.append_of_mem mem
  have split : row = List.reverse before.reverse ++ t :: after := by simpa using split
  refine (introduced _ _ _ p split shown).imp_right fun ⟨name, left, eq, isName, behindPoint⟩ => behindPoint ?_
  rw [eq] at split
  have answer := declined left name (t :: after) (by simp [split])
  obtain ⟨token, leaf⟩ := Rule.leafIs_iff.mp isName
  by_contra noPoint
  rw [Rule.apply, Rule.applyCall, Rule.leaf?_eq_some.mpr leaf] at answer
  have isBracket : Rule.isNode Tree.node .bracket t = true := Rule.isNode_iff.mpr (by rw [shown]; rfl)
  simp only [isBracket, Bool.eq_false_of_not_eq_true noPoint, Bool.not_false, Bool.and_self, if_true] at answer
  cases answer

/-! ## Layers -/

/-- The brackets right below a layer are those of a call, or there is a proper list in them, or they stand behind a
point and a name. -/
def Fenced (ts : List Token) (n : Node Bare) : Prop := n.kind ≠ .call → ∀ c ∈ n.children, Listed ts c

theorem listed_of_kind {t : Bare} (other : t.kind ≠ .bracket) : Listed ts t := fun _ shown =>
  absurd (congrArg Node.kind shown) other

/-- A call may have any brackets, and a tree that another rule folds has those of the row. -/
theorem fenced_tree {rule : Rule} (answer : rule.apply Tree.node ⟨left, here, right⟩ = .ok (some fold))
    (listed : rule ≠ .call → ∀ t ∈ left.reverse ++ here :: right, Listed ts t)
    (fenced : ∀ t ∈ left.reverse ++ here :: right, t.All (Fenced ts)) : fold.tree.All (Fenced ts) := by
  refine .of_node (fun noCall c mem => ?_) (Rule.all_children (fun _ _ => by simp) answer fenced)
  have other : rule ≠ .call := by
    rintro rfl
    exact noCall (Rule.kind_tree answer)
  rcases Rule.mem_children_tree answer c mem with stood | ⟨name, rfl⟩
  · exact listed other c stood
  · exact listed_of_kind nofun

/-- In parsed rows, and everywhere in their trees, the brackets that are not those of a call are proper lists, or they
stand behind a point and a name. -/
theorem Parses.fenced (parses : Parses (leaves ts) row) : ∀ t ∈ row, Listed ts t ∧ t.All (Fenced ts) := by
  refine parses.induction
    (Q := fun raw row => ∀ us, raw = leaves us → us <:+: ts → ∀ t ∈ row, Listed ts t ∧ t.All (Fenced ts))
    (fun {raw row row'} _ grouped rests us eq inside => ?_) (leaf_of_mem_leaves _) ts rfl (List.infix_refl ts)
  subst eq
  have introduced : Introduced ts row := fun left here right p split shown =>
    (grouped.introduced left here right p split shown).imp_right fun ⟨name, before, eq, isName, behindPoint⟩ =>
      ⟨name, before, eq, isName, fun isPoint => (behindPoint isPoint).mono inside⟩
  have fenced : ∀ t ∈ row, t.All (Fenced ts) := by
    intro t mem
    rcases grouped.mem t mem with raw | ⟨opening, closing, _, content, _, rfl, _⟩
    · obtain ⟨token, _, rfl⟩ := List.mem_map.mp raw
      exact .of_children_nil (fun _ => nofun) rfl
    · obtain ⟨before, after, rfl⟩ := List.append_of_mem mem
      obtain ⟨front, _, whole, atBracket⟩ := grouped.suffix
      obtain ⟨u, inner, last, back, rfl, _, _, ⟨_, within⟩, _⟩ :=
        atBracket.bracket (p := ⟨opening, closing, content⟩) rfl
      have whole : leaves us = (front ++ [u]) ++ (inner ++ last :: back) := by simpa using whole
      obtain ⟨vs, rfl, infixed⟩ := exists_infix whole
      have listed := within vs rfl (infixed.trans inside)
      exact .mk (fun _ c mem => (listed c (by simpa using mem)).1) fun c mem => (listed c (by simpa using mem)).2
  cases rests with
  | @cons _ _ _ between _ calls later =>
    obtain ⟨introduced, fenced⟩ := calls.keeps
      (I := fun row => Introduced ts row ∧ ∀ t ∈ row, t.All (Fenced ts))
      (fun _ _ _ _ answer inv => ⟨introduced_fold answer inv.1,
        Rule.forall_row answer inv.2 (fenced_tree answer (absurd rfl) inv.2)⟩) ⟨introduced, fenced⟩
    have listed := listed_of_declined introduced calls.declined
    refine later.keeps (I := fun row => ∀ t ∈ row, Listed ts t ∧ t.All (Fenced ts))
      (fun rule inTail _ _ _ _ answer all => ?_) fun t mem => ⟨listed t mem, fenced t mem⟩
    have other : rule.makes ≠ .bracket := by
      revert inTail
      cases rule <;> decide
    refine Rule.forall_row answer all ⟨listed_of_kind (Rule.kind_tree answer ▸ other), ?_⟩
    exact fenced_tree answer (fun _ t mem => (all t mem).1) fun t mem => (all t mem).2

/-! ## Rows at rest -/

/-- Checked content is a list of items if it is proper. -/
theorem items_iff_proper (content : Rule.Content Tree.node row) : Rule.Items Tree.node row ↔ Proper row := by
  refine ⟨fun items => ?_, fun proper => ?_⟩
  · cases items with
    | last isItem => exact ⟨rfl, Rule.leafIs_of_isItem isItem .distinctKw⟩
    | next isItem => exact ⟨rfl, Rule.leafIs_of_isItem isItem .distinctKw⟩
  · cases content with
    | empty => cases proper.1
    | items items => exact items
    | distinct isWord => cases isWord.symm.trans proper.2

/-- At a bracket with a proper list in it nothing is wrong. -/
theorem applyBracket_of_proper {p : Bracket Bare} (shown : here.node = .bracket p)
    (content : Rule.Content Tree.node p.children) (proper : Proper p.children) :
    Rule.applyBracket Tree.node ⟨left, here, right⟩ = .ok none :=
  (applyBracket_eq_none shown).mpr (checked_of_proper (content.checked here) proper _)

/-- In every bracket of a row there is a proper list. -/
def ProperInside (row : Row) : Prop :=
  ∀ t ∈ row, ∀ p, t.node = .bracket p → Rule.Content Tree.node p.children ∧ Proper p.children

/-- Between checked brackets nothing is left to do. -/
theorem declined_of_content (content : Rule.Content Tree.node row) (proper : ProperInside row) (rule : Rule) :
    Declined rule row := by
  intro left here right split
  refine Rule.apply_of_between (content.between split) fun _ isBracket => ?_
  cases shown : here.node with
  | bracket p =>
    obtain ⟨inner, isProper⟩ := proper here (by simp [split]) p shown
    exact applyBracket_of_proper shown inner isProper
  | _ =>
    rw [Rule.isNode, show here.node = _ from shown] at isBracket
    cases isBracket

/-- In a parsed row whose brackets are proper lists nothing is left to do. -/
theorem Parses.declined_of_proper (parses : Parses raw row) (sound : AllSound raw) (proper : ProperInside row)
    (rule : Rule) : Declined rule row := by
  by_cases other : rule = .bracket
  · subst other
    intro left here right split
    have mem : here ∈ row := by simp [split]
    cases shown : here.node with
    | bracket p =>
      obtain ⟨content, isProper⟩ := proper here mem p shown
      exact applyBracket_of_proper shown content isProper
    | leaf t =>
      have gone {kind : TokenKind} (gone : kind = .bracketOpen ∨ kind = .bracketClose) : t.kind ≠ kind := by
        rintro rfl
        refine parses.not_mem_leafKinds (gone.elim .inl fun close => .inr (.inl close))
          (List.mem_filterMap.mpr ⟨here, mem, ?_⟩)
        rw [Node.tokenKind?, shown]
        rfl
      refine Rule.apply_of_leaf shown ?_
      simp [Rule.startsAtLeaf, gone (.inl rfl), gone (.inr rfl)]
    | _ => exact Rule.apply_of_node (by rw [shown]; rfl) (by rw [shown]; rfl)
  · exact parses.declined sound other

end Row

/-! ## Parsed texts -/

theorem Tree.Orderly.all {t : Bare} (orderly : t.Orderly) :
    t.All fun n => ∀ cs, n.branch? = some cs → Rule.Content Tree.node cs := by
  induction orderly with
  | mk contents _ ih => exact .mk contents ih

namespace Rule

variable {α β : Type} {view : α → Node α} {view' : β → Node β} {g : α → β} {h : Token → Token}

/-- A list of items is one whatever shows them. -/
theorem Translates.items_iff (tr : Translates view view' g h) {as : List α} :
    Items view' (as.map g) ↔ Items view as := by
  refine ⟨fun items => ?_, fun items => ?_⟩
  · generalize shown : as.map g = bs at items
    induction items generalizing as with
    | last isItem =>
      obtain ⟨a, rfl, rfl⟩ := List.map_eq_singleton_iff.mp shown
      exact .last (tr.isItem a ▸ isItem)
    | next isItem isComma _ ih =>
      obtain ⟨a, rest, rfl, rfl, behind⟩ := List.map_eq_cons_iff.mp shown
      obtain ⟨comma, rest, rfl, rfl, again⟩ := List.map_eq_cons_iff.mp behind
      exact .next (tr.isItem a ▸ isItem) (tr.leafIs .comma comma ▸ isComma) (ih again)
  · induction items with
    | last isItem => exact .last ((tr.isItem _).trans isItem)
    | next isItem isComma _ ih => exact .next ((tr.isItem _).trans isItem) ((tr.leafIs _ _).trans isComma) ih

theorem Translates.content (tr : Translates view view' g h) {as : List α} (content : Content view' (as.map g)) :
    Content view as := by
  generalize shown : as.map g = bs at content
  cases content with
  | empty =>
    obtain rfl := List.map_eq_nil_iff.mp shown
    exact .empty
  | items items => exact .items (tr.items_iff.mp (shown ▸ items))
  | distinct isWord items =>
    obtain ⟨word, rest, rfl, rfl, rfl⟩ := List.map_eq_cons_iff.mp shown
    exact .distinct (tr.leafIs .distinctKw word ▸ isWord) (tr.items_iff.mp items)

end Rule

namespace Forest

variable {f : Forest}

/-- A branch in whose row every rule declines is idle. -/
theorem Coherent.idleAt (h : f.Coherent) {b : NodeRef} {row : Row} (branch : (f.bare b).node.branch? = some row)
    (declined : ∀ rule, Row.Declined rule row) : f.IdleAt b := by
  intro rule left here right shown
  rw [h.node_bare, Node.branch?_map, shown, Option.map_some, Option.some.injEq] at branch
  have onTrees := Folding.apply_bare h rule ⟨left, here, right⟩
  have answer : rule.apply Tree.node (Focus.map f.bare ⟨left, here, right⟩) = .ok none :=
    declined rule (left.map f.bare) (f.bare here) (right.map f.bare) (by simp [← branch])
  rw [answer] at onTrees
  cases own : rule.apply f.node ⟨left, here, right⟩ with
  | error o =>
    rw [own] at onTrees
    cases onTrees
  | ok fold? =>
    rw [own] at onTrees
    cases fold? with
    | none => rfl
    | some => cases onTrees

/-- The brackets of a call. -/
def IsArguments (f : Forest) (r : NodeRef) : Prop := ∃ q c, f.Reached q ∧ f.node q = .call c ∧ c.arguments = r

end Forest

namespace Dialect

variable {vocabulary : Vocabulary} {limit : Nat} {source : String} {f : Forest} {script : Script} {row : Row}

/-- Whatever stands between brackets was checked, and the brackets right below are in order. -/
def FencedWithin (ts : List Token) (n : Node Bare) : Prop :=
  (∀ cs, n.branch? = some cs → Rule.Content Tree.node cs) ∧ Row.Fenced ts n

namespace Parsed

variable (h : Parsed vocabulary limit source f script row) {r : NodeRef}

include h

/-- Everywhere in a parsed row brackets are in order. -/
theorem fencedWithin : ∀ t ∈ row, t.All (FencedWithin script.significant) := fun t mem =>
  (h.parses.orderly (Row.orderly_leaves _) t mem).all.and (h.parses.fenced t mem).2

/-- Brackets that no call has for its arguments hold a proper list, or they stand behind a point and a name. -/
theorem listed (reached : f.Reached r) (free : ¬f.IsArguments r) : Row.Listed script.significant (f.bare r) := by
  rcases reached.cases with rfl | ⟨q, reached', child⟩
  · exact Row.listed_of_kind (by rw [h.bare]; nofun)
  have stands : f.bare r ∈ (f.bare q).node.children := by
    rw [h.sound.coherent.node_bare, Node.children_map]
    exact List.mem_map_of_mem child
  rcases h.all_reached h.fencedWithin reached' with rfl | layers
  · rw [h.bare, Tree.node, Node.children_root] at stands
    exact (h.parses.fenced _ stands).1
  · refine layers.node.2 (fun isCall => free ?_) _ stands
    rw [h.sound.coherent.node_bare, Node.kind_map] at isCall
    cases node : f.node q with
    | call c =>
      rw [children, node, Node.children_call, List.mem_singleton] at child
      exact ⟨q, c, reached', node, child.symm⟩
    | _ =>
      rw [node] at isCall
      cases isCall

theorem content (reached : f.Reached r) {p : Bracket Bare} (shown : (f.bare r).node = .bracket p) :
    Rule.Content Tree.node p.children := by
  rcases h.all_reached h.fencedWithin reached with rfl | layers
  · rw [h.bare] at shown
    cases shown
  · exact layers.node.1 _ (by rw [shown]; rfl)

/-- Brackets that something else than a call lists are not those of a call. -/
theorem not_isArguments_of_child {q c : NodeRef} (reached : f.Reached q) (child : c ∈ f.children q)
    (other : f.kind q ≠ .call) : ¬f.IsArguments c := by
  rintro ⟨r, call, reached', node, rfl⟩
  have inCall : call.arguments ∈ f.children r := by
    rw [children, node, Node.children_call]
    exact List.mem_singleton_self _
  -- What lists the same node is the same node.
  have link := h.sound.coherent.link reached child
  obtain rfl := Option.some.inj (link.symm.trans (h.sound.coherent.link reached' inCall))
  exact other (by rw [kind, node]; rfl)

/-- The brackets in a branch are not those of a call. -/
theorem not_isArguments {b c : NodeRef} {cs : List NodeRef} (reached : f.Reached b)
    (branch : (f.node b).branch? = some cs) (child : c ∈ cs) : ¬f.IsArguments c := by
  refine h.not_isArguments_of_child reached (by rwa [children, Node.children_of_branch? branch]) fun isCall => ?_
  rw [kind] at isCall
  generalize f.node b = n at branch isCall
  cases n with
  | call => cases branch
  | _ => cases isCall

/-- Where there are items between the brackets behind a point and a name too nothing is left to do in any branch. -/
theorem idleAt (filled : ∀ r p, f.Reached r → f.node r = .bracket p → BehindPoint script.significant p.opening →
    Rule.Items f.node p.children) (reached : f.Reached r) : f.IdleAt r := by
  have coherent := h.sound.coherent
  cases branch : (f.node r).branch? with
  | none =>
    intro rule left here right shown
    cases branch.symm.trans shown
  | some cs =>
    have proper : Row.ProperInside (cs.map f.bare) := by
      intro t mem p shown
      obtain ⟨c, child, rfl⟩ := List.mem_map.mp mem
      have reached' : f.Reached c := reached.child (by rwa [children, Node.children_of_branch? branch])
      have content := h.content reached' shown
      refine ⟨content, (h.listed reached' (h.not_isArguments reached branch child) p shown).elim id fun behind => ?_⟩
      rw [coherent.node_bare] at shown
      cases node : f.node c with
      | bracket q =>
        rw [node] at shown
        cases shown
        have items := filled c q reached' node behind
        exact (Row.items_iff_proper content).mp ((Rule.Translates.of_map coherent.node_bare).items_iff.mpr items)
      | _ =>
        rw [node] at shown
        cases shown
    have branch' : (f.bare r).node.branch? = some (cs.map f.bare) := by
      rw [coherent.node_bare, Node.branch?_map, branch]
      rfl
    refine coherent.idleAt branch' fun rule => ?_
    rcases h.all_reached h.fencedWithin reached with rfl | layers
    · rw [h.bare] at branch'
      cases branch'
      exact h.parses.declined_of_proper (Row.allSound_leaves _) proper rule
    · exact Row.declined_of_content (layers.node.1 _ branch') proper rule

end Parsed

/-- Three words that do not start with a point are too few for brackets behind a point and a name. -/
theorem not_behindPoint {t u v : Token} (noPoint : t.kind ≠ .dot) (opening : Token) :
    ¬BehindPoint [t, u, v] opening := by
  rintro ⟨point, name, isPoint, -, -, stands⟩
  cases stands.eq_of_length rfl
  exact noPoint isPoint

end Dialect

end SqlFold
