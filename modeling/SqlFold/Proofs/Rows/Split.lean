import SqlFold.Proofs.Cover.Contents
import SqlFold.Proofs.Edges.Clauses
import SqlFold.Proofs.Rows.Phases

/-!
# Rows that fall into parts

A leaf that a rule neither starts at nor looks at divides a row: the rule comes to rest with both parts
(`Row.Rests.split`, `Row.Rests.join`). A semicolon divides a row for all rules but `Rule.bracket`, and
there is none between checked brackets. So a row with a semicolon in it is parsed by parsing what stands
before it and what stands behind it (`Row.parses_semicolon`).
-/

namespace SqlFold

namespace Rule.Both

variable {α β γ : Type} {f : β → γ} {x : Checked α (Option β)} {y : Checked α (Option γ)}

theorem left_none (both : Both (Option.map f) x (.ok none)) : x = .ok none := by
  cases x with
  | error => cases both
  | ok b =>
    generalize result : Except.ok none = y' at both
    cases both
    cases b with
    | none => rfl
    | some => cases result

theorem right_none (both : Both (Option.map f) (.ok none) y) : y = .ok none := by
  cases both
  rfl

theorem left_some {c : γ} (both : Both (Option.map f) x (.ok (some c))) :
    ∃ b, x = .ok (some b) ∧ f b = c := by
  generalize result : Except.ok (some c) = y' at both
  cases both with
  | error => cases result
  | ok b =>
    cases b with
    | none => cases result
    | some b => exact ⟨b, rfl, (Option.some.inj (Except.ok.inj result)).symm⟩

theorem right_some {b : β} (both : Both (Option.map f) (.ok (some b)) y) : y = .ok (some (f b)) := by
  cases both
  rfl

end Rule.Both

namespace Row

variable {rule : Rule} {s : Bare} {A B : Row}

/-! ## Places of a divided row -/

/-- A place before the tree `s`, at `s` or behind it. -/
inductive Place (s : Bare) (A B left : Row) (here : Bare) (right : Row) : Prop
  | before (between : Row) : A = left.reverse ++ here :: between → right = between ++ s :: B →
      Place s A B left here right
  | here : A = left.reverse → here = s → Place s A B left here right
  | behind (between : Row) : B = between.reverse ++ here :: right → left = between ++ s :: A.reverse →
      Place s A B left here right

theorem place_of_split {left right : Row} {here : Bare}
    (split : A ++ s :: B = left.reverse ++ here :: right) : Place s A B left here right := by
  rcases List.append_eq_append_iff.mp split with ⟨between, eq, rest⟩ | ⟨between, eq, rest⟩
  · cases between with
    | nil =>
      obtain ⟨rfl, rfl⟩ := List.cons.inj rest
      exact .here (by simpa using eq.symm) rfl
    | cons u between =>
      obtain ⟨rfl, rfl⟩ := List.cons.inj rest
      exact .behind between.reverse (by simp) (by rw [← List.reverse_inj, eq]; simp)
  · cases between with
    | nil =>
      obtain ⟨rfl, rfl⟩ := List.cons.inj rest
      exact .here (by simpa using eq) rfl
    | cons u between =>
      obtain ⟨rfl, rfl⟩ := List.cons.inj rest
      exact .before between eq rfl

/-- What a rule does before leaves that it spares. -/
theorem both_before (other : rule ≠ .bracket) (edge : Rule.Edge Tree.node rule.spares B) (left right : Row)
    (here : Bare) :
    Rule.Both (Option.map (Fold.widen [] B)) (rule.apply Tree.node ⟨left, here, right⟩)
      (rule.apply Tree.node ⟨left, here, right ++ B⟩) := by
  have both : Rule.Both (Option.map (Fold.widen [] B)) (rule.apply Tree.node ⟨left, here, right⟩)
      (rule.apply Tree.node (Focus.widen [] B ⟨left, here, right⟩)) :=
    Rule.apply_widen _ other Rule.edge_nil edge
  rwa [Focus.widen, List.append_nil] at both

/-- What a rule does behind leaves that it spares. -/
theorem both_behind (other : rule ≠ .bracket) (edge : Rule.Edge Tree.node rule.spares A)
    (left right : Row) (here : Bare) :
    Rule.Both (Option.map (Fold.widen A [])) (rule.apply Tree.node ⟨left, here, right⟩)
      (rule.apply Tree.node ⟨left ++ A, here, right⟩) := by
  have both : Rule.Both (Option.map (Fold.widen A [])) (rule.apply Tree.node ⟨left, here, right⟩)
      (rule.apply Tree.node (Focus.widen A [] ⟨left, here, right⟩)) :=
    Rule.apply_widen _ other edge Rule.edge_nil
  rwa [Focus.widen, List.append_nil] at both

/-- A leaf that a rule does not look at, and at which it declines behind the trees on the left. -/
structure DividesBehind (rule : Rule) (left : Row) (s : Bare) : Prop where
  leaf : ∃ t, s.node = .leaf t ∧ rule.spares t.kind = true
  declined (right : Row) : rule.apply Tree.node ⟨left, s, right⟩ = .ok none
  other : rule ≠ .bracket

namespace DividesBehind

variable {left₀ : Row} (divides : DividesBehind rule left₀ s)

include divides

theorem edge (C : Row) : Rule.Edge Tree.node rule.spares (s :: C) := by
  obtain ⟨t, shown, spared⟩ := divides.leaf
  exact Rule.edge_cons.mpr ⟨t, shown, spared⟩

theorem before (left right : Row) (here : Bare) :
    Rule.Both (Option.map (Fold.widen [] (s :: B))) (rule.apply Tree.node ⟨left, here, right⟩)
      (rule.apply Tree.node ⟨left, here, right ++ s :: B⟩) :=
  both_before divides.other (divides.edge B) left right here

theorem behind (left right : Row) (here : Bare) :
    Rule.Both (Option.map (Fold.widen (s :: A.reverse) [])) (rule.apply Tree.node ⟨left, here, right⟩)
      (rule.apply Tree.node ⟨left ++ s :: A.reverse, here, right⟩) :=
  both_behind divides.other (divides.edge A.reverse) left right here

end DividesBehind

/-- A leaf that a rule neither starts at nor looks at. -/
structure Divides (rule : Rule) (s : Bare) : Prop where
  leaf : ∃ t, s.node = .leaf t ∧ rule.spares t.kind = true ∧ rule.startsAtLeaf t.kind = false
  other : rule ≠ .bracket

theorem divides_semicolon (semi : Rule.leafIs Tree.node .semicolon s = true) (other : rule ≠ .bracket) :
    Divides rule s := by
  obtain ⟨t, shown, kind⟩ := Rule.leafIs_iff.mp semi
  refine ⟨⟨t, shown, ?_⟩, other⟩
  rw [kind]
  cases rule <;> first | exact ⟨rfl, rfl⟩ | exact absurd rfl other

namespace Divides

variable (divides : Divides rule s)

include divides

theorem declined (left right : Row) : rule.apply Tree.node ⟨left, s, right⟩ = .ok none := by
  obtain ⟨t, shown, _, starts⟩ := divides.leaf
  exact Rule.apply_of_leaf shown starts

theorem dividesBehind (left : Row) : DividesBehind rule left s where
  leaf := divides.leaf.imp fun _ shown => ⟨shown.1, shown.2.1⟩
  declined := divides.declined left
  other := divides.other

theorem before (left right : Row) (here : Bare) :
    Rule.Both (Option.map (Fold.widen [] (s :: B))) (rule.apply Tree.node ⟨left, here, right⟩)
      (rule.apply Tree.node ⟨left, here, right ++ s :: B⟩) :=
  (divides.dividesBehind []).before left right here

theorem behind (left right : Row) (here : Bare) :
    Rule.Both (Option.map (Fold.widen (s :: A.reverse) [])) (rule.apply Tree.node ⟨left, here, right⟩)
      (rule.apply Tree.node ⟨left ++ s :: A.reverse, here, right⟩) :=
  (divides.dividesBehind []).behind left right here

end Divides

theorem declined_iff {row : Row} : Declined rule row ↔ ∀ n, DeclinedBefore rule n row :=
  ⟨fun declined _ l h r split _ => declined l h r split,
    fun before l h r split => before (l.length + 1) l h r split (Nat.lt_succ_self _)⟩

/-- A rule that declines at places before the leaf. -/
theorem DeclinedBefore.front {left : Row} {n : Nat} (divides : DividesBehind rule left s)
    (declined : DeclinedBefore rule n A) (inside : n ≤ A.length) : DeclinedBefore rule n (A ++ s :: B) := by
  intro l h r split lt
  cases place_of_split split with
  | before between eq right =>
    have both := divides.before (B := B) l between h
    rw [declined l h between eq lt] at both
    rw [right]
    exact both.right_none
  | here eq =>
    rw [eq, List.length_reverse] at inside
    omega
  | behind between eq left =>
    simp only [left, List.length_append, List.length_cons, List.length_reverse] at lt
    omega

/-- A rule that declines at all places before the leaf and at places behind it. -/
theorem DeclinedBefore.back {n : Nat} (divides : DividesBehind rule A.reverse s) (declined : Declined rule A)
    (declined' : DeclinedBefore rule n B) : DeclinedBefore rule (n + (A.length + 1)) (A ++ s :: B) := by
  intro l h r split lt
  cases place_of_split split with
  | before between eq right =>
    have both := divides.before (B := B) l between h
    rw [declined l h between eq] at both
    rw [right]
    exact both.right_none
  | here eq same =>
    rw [same, ← List.reverse_reverse l, ← eq]
    exact divides.declined r
  | behind between eq left =>
    simp only [left, List.length_append, List.length_cons, List.length_reverse] at lt
    have both := divides.behind (A := A) between r h
    rw [declined' between h r eq (by omega)] at both
    rw [left]
    exact both.right_none

/-- A rule comes to rest with both sides of a leaf at which it declines behind what it has made on the left
side. -/
theorem Rests.meet {A' B' : Row} (restsA : Rests rule A A') (divides : DividesBehind rule A'.reverse s)
    (restsB : Rests rule B B') : Rests rule (A ++ s :: B) (A' ++ s :: B') := by
  induction restsA with
  | @rest A declined =>
    induction restsB with
    | rest declined' =>
      rw [declined_iff] at declined'
      refine .rest (declined_iff.mpr fun n l h r split lt => ?_)
      exact (declined' n).back divides declined l h r split (by omega)
    | @fold left right row' here fold before answer _ ih =>
      have both := divides.behind (A := A) left right here
      rw [answer] at both
      have row : (fold.widen (s :: A.reverse) []).row = A ++ s :: fold.row := by
        simp [Fold.row, Fold.widen, Fold.tree]
      have back := before.back divides declined
      have folded : Rests rule (List.reverse (left ++ s :: A.reverse) ++ here :: right)
          (A ++ s :: row') :=
        .fold (by simpa [Nat.add_assoc] using back) both.right_some (row ▸ ih)
      simpa using folded
  | @fold left right row' here fold before answer _ ih =>
    have both := divides.before (B := B) left right here
    rw [answer] at both
    have row : (fold.widen [] (s :: B)).row = fold.row ++ s :: B := by
      simp [Fold.row, Fold.widen, Fold.tree]
    have front := before.front (B := B) divides (by simp)
    have folded : Rests rule (List.reverse left ++ here :: (right ++ s :: B)) (row' ++ s :: B') :=
      .fold (by simpa using front) both.right_some (row ▸ ih divides)
    simpa using folded

section Rules

variable (divides : Divides rule s)

include divides

/-! ## A rule comes to rest on both sides -/

/-- A rule that declines at places before the leaf does so without it. -/
theorem DeclinedBefore.before {n : Nat} (declined : DeclinedBefore rule n (A ++ s :: B)) :
    DeclinedBefore rule n A := by
  intro l h r split lt
  have both := divides.before (B := B) l r h
  rw [declined l h (r ++ s :: B) (by simp [split]) lt] at both
  exact both.left_none

/-- A rule that declines at places behind the leaf does so without it. -/
theorem DeclinedBefore.behind {n : Nat}
    (declined : DeclinedBefore rule (n + (A.length + 1)) (A ++ s :: B)) : DeclinedBefore rule n B := by
  intro l h r split lt
  have both := divides.behind (A := A) l r h
  rw [declined (l ++ s :: A.reverse) h r (by simp [split]) (by simp; omega)] at both
  exact both.left_none

/-- A rule comes to rest on both sides of the leaf. -/
theorem Rests.split {row row' : Row} (rests : Rests rule row row') (eq : row = A ++ s :: B) :
    ∃ A' B', Rests rule A A' ∧ Rests rule B B' ∧ row' = A' ++ s :: B' := by
  induction rests generalizing A B with
  | rest declined =>
    subst eq
    rw [declined_iff] at declined
    refine ⟨A, B, .rest (declined_iff.mpr fun n => ?_), .rest (declined_iff.mpr fun n => ?_), rfl⟩
    · exact (declined n).before divides
    · exact (declined _).behind divides
  | @fold left right row' here fold before answer rests ih =>
    cases place_of_split eq.symm with
    | before between front right_eq =>
      have both := divides.before (B := B) left between here
      rw [right_eq] at before answer
      rw [answer] at both
      obtain ⟨fold, folds, rfl⟩ := both.left_some
      obtain ⟨A', B', restsA, restsB, rfl⟩ := ih (A := fold.row) (B := B)
        (by simp [Fold.row, Fold.widen, Fold.tree])
      subst front
      refine ⟨A', B', .fold (DeclinedBefore.before divides (B := B) ?_) folds restsA, restsB, rfl⟩
      simpa using before
    | here _ here_eq =>
      rw [here_eq, divides.declined] at answer
      cases answer
    | behind between back left_eq =>
      have both := divides.behind (A := A) between right here
      rw [left_eq] at before answer
      rw [answer] at both
      obtain ⟨fold, folds, rfl⟩ := both.left_some
      obtain ⟨A', B', restsA, restsB, rfl⟩ := ih (A := A) (B := fold.row)
        (by simp [Fold.row, Fold.widen, Fold.tree])
      subst back
      refine ⟨A', B', restsA, .fold (DeclinedBefore.behind divides (A := A) ?_) folds restsB, rfl⟩
      simpa [Nat.add_assoc] using before

/-- A rule comes to rest with both sides of the leaf. -/
theorem Rests.join {A' B' : Row} (restsA : Rests rule A A') (restsB : Rests rule B B') :
    Rests rule (A ++ s :: B) (A' ++ s :: B') :=
  restsA.meet (divides.dividesBehind _) restsB

omit divides in
/-- Rules come to rest on both sides of a leaf that they neither start at nor look at. -/
theorem restsAll_split {rules : List Rule} (divides : ∀ rule ∈ rules, Divides rule s) {row' : Row} :
    RestsAll rules (A ++ s :: B) row' ↔
      ∃ A' B', RestsAll rules A A' ∧ RestsAll rules B B' ∧ row' = A' ++ s :: B' := by
  constructor
  · intro rests
    generalize whole : A ++ s :: B = row at rests
    induction rests generalizing A B with
    | nil => exact ⟨A, B, .nil, .nil, whole.symm⟩
    | cons first _ ih =>
      obtain ⟨here, later⟩ := List.forall_mem_cons.mp divides
      obtain ⟨A', B', firstA, firstB, rfl⟩ := first.split here whole.symm
      obtain ⟨A'', B'', restA, restB, rfl⟩ := ih later rfl
      exact ⟨A'', B'', .cons firstA restA, .cons firstB restB, rfl⟩
  · rintro ⟨A', B', restsA, restsB, rfl⟩
    induction rules generalizing A B with
    | nil =>
      cases restsA
      cases restsB
      exact .nil
    | cons rule rules ih =>
      obtain ⟨here, later⟩ := List.forall_mem_cons.mp divides
      cases restsA with
      | cons firstA restA =>
        cases restsB with
        | cons firstB restB =>
          exact .cons (firstA.join here firstB) (ih later restA restB)

end Rules

/-! ## Brackets on both sides -/

/-- A sibling closes the span or belongs to its content, whatever stands behind it. -/
theorem splitAtClosing?_cons (depth : Nat) (t : Bare) :
    (∃ token, ∀ rest, Rule.splitAtClosing? Tree.node depth (t :: rest) = some ([], token, rest)) ∨
      ∃ depth', ∀ rest, Rule.splitAtClosing? Tree.node depth (t :: rest) =
        (Rule.splitAtClosing? Tree.node depth' rest).map fun (inner, closing, after) =>
          (t :: inner, closing, after) := by
  cases shown : t.node.token? with
  | none => exact .inr ⟨depth, fun _ => by simp only [Rule.splitAtClosing?, shown, Rule.splitAtClosing?.within]⟩
  | some token =>
    by_cases opening : token.kind = .bracketOpen
    · refine .inr ⟨depth + 1, fun _ => ?_⟩
      simp only [Rule.splitAtClosing?, shown, if_pos opening, Rule.splitAtClosing?.within]
    · by_cases closing : token.kind = .bracketClose
      · cases depth with
        | zero =>
          refine .inl ⟨token, fun _ => ?_⟩
          simp only [Rule.splitAtClosing?, shown, if_neg opening, if_pos closing]
        | succ depth =>
          refine .inr ⟨depth, fun _ => ?_⟩
          simp only [Rule.splitAtClosing?, shown, if_neg opening, if_pos closing,
            Rule.splitAtClosing?.within]
      · refine .inr ⟨depth, fun _ => ?_⟩
        simp only [Rule.splitAtClosing?, shown, if_neg opening, if_neg closing,
          Rule.splitAtClosing?.within]

/-- Where a span ends does not depend on what stands behind it. -/
theorem splitAtClosing?_append {depth : Nat} {A inner after : Row} {closing : Token}
    (split : Rule.splitAtClosing? Tree.node depth A = some (inner, closing, after)) (B : Row) :
    Rule.splitAtClosing? Tree.node depth (A ++ B) = some (inner, closing, after ++ B) := by
  induction A generalizing depth inner with
  | nil => simp [Rule.splitAtClosing?] at split
  | cons t A ih =>
    rw [List.cons_append]
    rcases splitAtClosing?_cons depth t with ⟨token, ends⟩ | ⟨depth', goesOn⟩
    · rw [ends] at split ⊢
      cases split
      rfl
    · rw [goesOn, Option.map_eq_some_iff] at split
      obtain ⟨⟨inner', closing', after'⟩, split, eq⟩ := split
      cases eq
      rw [goesOn, ih split]
      rfl

/-- A span ends in the first of two rows, or all of that row belongs to its content. -/
theorem splitAtClosing?_of_append {depth : Nat} {A B inner after : Row} {closing : Token}
    (split : Rule.splitAtClosing? Tree.node depth (A ++ B) = some (inner, closing, after)) :
    (∃ after', Rule.splitAtClosing? Tree.node depth A = some (inner, closing, after') ∧
      after = after' ++ B) ∨ ∃ inner', inner = A ++ inner' := by
  induction A generalizing depth inner with
  | nil => exact .inr ⟨inner, rfl⟩
  | cons t A ih =>
    rw [List.cons_append] at split
    rcases splitAtClosing?_cons depth t with ⟨token, ends⟩ | ⟨depth', goesOn⟩
    · rw [ends] at split
      cases split
      exact .inl ⟨A, ends A, rfl⟩
    · rw [goesOn, Option.map_eq_some_iff] at split
      obtain ⟨⟨inner', closing', after'⟩, split, eq⟩ := split
      cases eq
      rcases ih split with ⟨after', inside, rfl⟩ | ⟨inner', rfl⟩
      · exact .inl ⟨after', by rw [goesOn, inside]; rfl, rfl⟩
      · exact .inr ⟨inner', rfl⟩

/-- What stands before a row does not matter beyond whether it is a name. -/
theorem Grouped.change {S : Row → Row → Prop} {previous previous' : Option Bare} {row row' : Row}
    (grouped : Grouped S previous row row')
    (same : previous.any (Rule.leafIs Tree.node .symbol) =
      previous'.any (Rule.leafIs Tree.node .symbol)) : Grouped S previous' row row' := by
  cases grouped with
  | nil => exact .nil
  | cons plain opened closed behind => exact .cons plain opened closed behind
  | span node kind split content checked behind =>
    exact .span node kind split content (same ▸ checked) behind

/-- What is grouped behind anything is grouped behind other rows. -/
theorem Grouped.append {S : Row → Row → Prop} {previous : Option Bare} {A' B' : Row}
    (grouped : Grouped S previous A A') (behind : ∀ previous, Grouped S previous B B') : Grouped S previous (A ++ B) (A' ++ B') := by
  induction grouped with
  | nil => exact behind _
  | cons plain opened closed _ ih => exact .cons plain opened closed ih
  | span node kind split settled checked _ ih =>
    exact .span node kind (splitAtClosing?_append split B) settled checked ih

/-- Without brackets nothing is grouped. -/
theorem grouped_plain {S : Row → Row → Prop} {ts : List Token}
    (plain : ∀ t ∈ ts, t.kind ≠ .bracketOpen ∧ t.kind ≠ .bracketClose) (previous : Option Bare) : Grouped S previous (leaves ts) (leaves ts) := by
  induction ts generalizing previous with
  | nil => exact .nil
  | cons t ts ih =>
    obtain ⟨⟨noOpen, noClose⟩, later⟩ := List.forall_mem_cons.mp plain
    refine .cons rfl ?_ ?_ (ih later _)
    · exact beq_eq_false_iff_ne.mpr fun same => noOpen (Option.some.inj same)
    · exact beq_eq_false_iff_ne.mpr fun same => noClose (Option.some.inj same)

section Brackets

variable {S : Row → Row → Prop} (semi : Rule.leafIs Tree.node .semicolon s = true)

include semi

theorem edge_semicolon : Rule.Edge Tree.node (· == .semicolon) [s] := by
  obtain ⟨t, shown, kind⟩ := Rule.leafIs_iff.mp semi
  exact Rule.edge_cons.mpr ⟨t, shown, by simp [kind]⟩

/-- Between checked brackets there is no semicolon. -/
theorem not_mem_of_checked {t : Bare} {content : Row} {arguments : Bool}
    (checked : Rule.checkContent Tree.node t content arguments = .ok ()) : s ∉ content := by
  intro mem
  obtain ⟨before, after, split⟩ := List.append_of_mem mem
  have edge := edge_semicolon semi
  have between : Rule.Between Tree.node ⟨before.reverse, s, after⟩ :=
    (Rule.checkContent_ok checked).between (by simpa using split)
  cases between with
  | word isWord =>
    dsimp only at isWord
    rw [Rule.leafIs_of_edge edge (by decide), Rule.leafIs_of_edge edge (by decide)] at isWord
    simp at isWord
  | item isItem =>
    dsimp only at isItem
    rw [Rule.isItem, Rule.isOperand_of_edge edge, Rule.isNode_of_edge edge (by decide)] at isItem
    cases isItem

/-- A semicolon is no bracket and no name. -/
theorem grouped_semicolon (previous : Option Bare) {row' : Row} :
    Grouped S previous (s :: B) row' ↔ ∃ B', Grouped S none B B' ∧ row' = s :: B' := by
  obtain ⟨t, shown, isSemi⟩ := Rule.leafIs_iff.mp semi
  have edge := edge_semicolon semi
  have noName : (some s).any (Rule.leafIs Tree.node .symbol) = false :=
    Rule.leafIs_of_edge edge (by decide)
  constructor
  · intro grouped
    cases grouped with
    | cons _ _ _ behind => exact ⟨_, behind.change noName, rfl⟩
    | span node kind =>
      cases shown.symm.trans node
      cases isSemi.symm.trans kind
  · rintro ⟨B', grouped, rfl⟩
    refine .cons ?_ ?_ ?_ (grouped.change noName.symm)
    · rw [show s.node = _ from shown]
      rfl
    · exact Rule.leafIs_of_edge edge (by decide)
    · exact Rule.leafIs_of_edge edge (by decide)

/-- Brackets are grouped on both sides of a semicolon, if no content loses its semicolons. -/
theorem Grouped.split {previous : Option Bare} {row row' : Row} (grouped : Grouped S previous row row')
    (keeps : ∀ inner content, inner.weight < row.weight → s ∈ inner → S inner content → s ∈ content)
    (eq : row = A ++ s :: B) :
    ∃ A' B', Grouped S previous A A' ∧ Grouped S none B B' ∧ row' = A' ++ s :: B' := by
  induction grouped generalizing A with
  | nil => simp at eq
  | @cons previous t row row' plain opened closed behind ih =>
    cases A with
    | nil =>
      rw [List.nil_append] at eq
      have grouped : Grouped S previous (t :: row) _ := .cons plain opened closed behind
      rw [eq] at grouped
      obtain ⟨B', groupedB, shown⟩ := (grouped_semicolon semi previous).mp grouped
      exact ⟨[], B', .nil, groupedB, shown⟩
    | cons u A =>
      rw [List.cons_append] at eq
      obtain ⟨rfl, rfl⟩ := List.cons.inj eq
      rw [weight_cons] at keeps
      obtain ⟨A', B', groupedA, groupedB, rfl⟩ :=
        ih (fun inner content lt => keeps inner content (by omega)) rfl
      exact ⟨t :: A', B', .cons plain opened closed groupedA, groupedB, rfl⟩
  | @span previous t opening closing row inner content after row' node kind split settled checked
      behind ih =>
    cases A with
    | nil =>
      rw [List.nil_append] at eq
      have grouped : Grouped S previous (t :: row) _ := .span node kind split settled checked behind
      rw [eq] at grouped
      obtain ⟨B', groupedB, shown⟩ := (grouped_semicolon semi previous).mp grouped
      exact ⟨[], B', .nil, groupedB, shown⟩
    | cons u A =>
      rw [List.cons_append] at eq
      obtain ⟨rfl, rfl⟩ := List.cons.inj eq
      obtain ⟨last, whole, closes, isClosing⟩ := Rule.splitAtClosing?_some split
      rw [whole, weight_cons, weight_append, weight_cons] at keeps
      have bracket := Rule.weight_leaf (Rule.kind_of_leaf closes)
      rcases splitAtClosing?_of_append split with ⟨after', inside, rfl⟩ | ⟨inner', rfl⟩
      · obtain ⟨A', B', groupedA, groupedB, rfl⟩ :=
          ih (fun inner content lt => keeps inner content (by omega)) rfl
        exact ⟨_ :: A', B', .span node kind inside settled checked groupedA, groupedB, rfl⟩
      · -- The span reaches over the semicolon, which its content does not allow.
        refine absurd (keeps (A ++ inner') content (by omega) ?_ settled)
          (not_mem_of_checked semi checked)
        rw [List.append_assoc, List.append_cancel_left_eq] at whole
        cases inner' with
        | nil =>
          obtain ⟨rfl, _⟩ := List.cons.inj whole
          obtain ⟨token, shown, isSemi⟩ := Rule.leafIs_iff.mp semi
          cases shown.symm.trans closes
          cases isSemi.symm.trans isClosing
        | cons v inner' =>
          obtain ⟨rfl, _⟩ := List.cons.inj whole
          simp

/-- Brackets are grouped with both sides of a semicolon. -/
theorem Grouped.join {previous : Option Bare} {A' B' : Row} (groupedA : Grouped S previous A A')
    (groupedB : Grouped S none B B') : Grouped S previous (A ++ s :: B) (A' ++ s :: B') := by
  induction groupedA with
  | nil => exact (grouped_semicolon semi _).mpr ⟨B', groupedB, rfl⟩
  | cons plain opened closed _ ih => exact .cons plain opened closed ih
  | span node kind split content checked _ ih =>
    exact .span node kind (splitAtClosing?_append split _) content checked ih

/-! ## All rules -/

/-- A row with a semicolon is parsed by parsing what stands before it and what stands behind it. -/
theorem parses_semicolon {row' : Row} :
    Parses (A ++ s :: B) row' ↔ ∃ A' B', Parses A A' ∧ Parses B B' ∧ row' = A' ++ s :: B' := by
  have divides : ∀ rule ∈ Rule.standard.tail, Divides rule s := fun rule mem =>
    divides_semicolon semi (by rintro rfl; revert mem; decide)
  constructor
  · intro parses
    generalize bound : (A ++ s :: B).weight = w
    induction w using Nat.strongRecOn generalizing A B row' with
    | ind w ih =>
      obtain ⟨grouped, rests⟩ := parses
      obtain ⟨A₁, B₁, groupedA, groupedB, rfl⟩ := grouped.split semi (fun inner content lt mem parses => by
        obtain ⟨before, after, rfl⟩ := List.append_of_mem mem
        obtain ⟨before', after', _, _, rfl⟩ := ih _ (bound ▸ lt) parses rfl
        simp) rfl
      obtain ⟨A', B', restsA, restsB, rfl⟩ :=
        (restsAll_split divides).mp rests
      exact ⟨A', B', .mk groupedA restsA, .mk groupedB restsB, rfl⟩
  · rintro ⟨A', B', ⟨groupedA, restsA⟩, ⟨groupedB, restsB⟩, rfl⟩
    exact .mk (groupedA.join semi groupedB)
      ((restsAll_split divides).mpr ⟨A', B', restsA, restsB, rfl⟩)

end Brackets

end Row

end SqlFold
