import SqlFold.Proofs.Embedding

/-!
# Chains of operands

A `Chain` is a sequence of things with something between each two of them. The operands of an expression are a
chain with operators, `AND` and `OR` between them. Its tree is known without any rule: it is cut at `AND` and
`OR`, each piece is folded from the left, and the pieces are the operands of one flat conjunction (`Chain.tree`).
The rules fold the tokens of the chain to this tree (`Folding.runWith_chain`).

The rules up to `Rule.column` make a row of operands of the tokens, with the leaves of the operators and words
between them. They do so on both sides of such a leaf (`Row.Named.meet`); only `Rule.literal` starts at an
operator, which may be a sign, and it declines behind an operand. Then `Rule.operation` folds every piece from
the left, and `Rule.conjunction` takes all pieces at once.
-/

namespace SqlFold

open Forest

/-- Things with something between each two of them. -/
structure Chain (κ α : Type) where
  first : α
  rest : List (κ × α)

namespace Chain

/-! ## Operands and what stands between them -/

/-- The tokens are parsed to one call or one bracket, with nothing around them. -/
def StandsAlone (ts : List Token) (e : Bare) : Prop :=
  (e.kind = .call ∨ e.kind = .bracket) ∧ ∃ (s : Script) (limit : Nat) (notesCalls : Bool), s.significant = ts ∧
    let run := (Folding.standard limit).runWith notesCalls root (ofScript s)
    run.result = .ok () ∧ run.forest.bare root = .mk () (.root [e])

/-- An operand. -/
inductive Operand where
  | name (column : Word .symbol)
  | ofTable (table : Word .symbol) (point : Word .dot) (column : Word .symbol)
  | ofSchema (schema : Word .symbol) (point : Word .dot) (table : Word .symbol) (point' : Word .dot)
      (column : Word .symbol)
  | literal (value : Token) (isValue : Rule.isValueKind value.kind = true)
  | number (sign : Token) (isSign : Rule.isSign sign = true) (value : Word .numericLiteral)
  | group (tokens : List Token) (tree : Bare) (alone : StandsAlone tokens tree)

namespace Operand

/-- The tokens of an operand. -/
def spell : Operand → List Token
  | name column => [column]
  | ofTable table point column => [table, point, column]
  | ofSchema schema point table point' column => [schema, point, table, point', column]
  | literal value _ => [value]
  | number sign _ value => [sign, value]
  | group tokens _ _ => tokens

/-- The tree of an operand. -/
def fold : Operand → Bare
  | name column => .mk () (.column ⟨none, none, column⟩)
  | ofTable table _ column => .mk () (.column ⟨none, some table, column⟩)
  | ofSchema schema _ table _ column => .mk () (.column ⟨some schema, some table, column⟩)
  | literal value _ => .mk () (.literal ⟨none, value⟩)
  | number sign _ value => .mk () (.literal ⟨some sign, value⟩)
  | group _ tree _ => tree

end Operand

/-- What makes an operation of two operands. -/
inductive Operator where
  | symbol (word : Word .operator)
  | like (word : Word .likeKw)
  | notLike (word : Word .notKw) (word' : Word .likeKw)
  | is (word : Word .isKw)
  | isNot (word : Word .isKw) (word' : Word .notKw)

/-- The tokens of an operator. -/
def Operator.spell : Operator → List Token
  | symbol word | like word | is word => [word]
  | notLike word word' | isNot word word' => [word, word']

/-- A word that joins the operands of a conjunction. -/
abbrev Joint : Type := {t : Token // t.kind = .andKw ∨ t.kind = .orKw}

/-- What stands between two operands. -/
inductive Link where
  | operator (o : Operator)
  | joint (j : Joint)

/-- The tokens between two operands. -/
def Link.spell : Link → List Token
  | operator o => o.spell
  | joint j => [j.val]

/-! ## Trees -/

variable {κ α β : Type}

/-- The elements of what is in a chain. -/
def flatten (between : κ → List β) (item : α → List β) (c : Chain κ α) : List β :=
  item c.first ++ c.rest.flatMap fun (k, a) => between k ++ item a

/-- The tokens of a chain. -/
def tokens (c : Chain Link Operand) : List Token := c.flatten Link.spell Operand.spell

/-- Operands with operators between them, folded from the left. -/
def fold (c : Chain Operator Operand) : Bare :=
  c.rest.foldl (fun left (o, a) => .mk () (.operation ⟨left, o.spell, a.fold⟩)) c.first.fold

/-- The pieces between the words. -/
def cut (first : Operand) : List (Link × Operand) → Chain Joint (Chain Operator Operand)
  | [] => ⟨⟨first, []⟩, []⟩
  | (.operator o, a) :: rest =>
    let ⟨piece, pieces⟩ := cut a rest
    ⟨⟨first, (o, piece.first) :: piece.rest⟩, pieces⟩
  | (.joint j, a) :: rest =>
    let ⟨piece, pieces⟩ := cut a rest
    ⟨⟨first, []⟩, (j, piece) :: pieces⟩

/-- The pieces in one flat conjunction, if there are several. -/
def join : Chain Joint (Chain Operator Operand) → Bare
  | ⟨piece, []⟩ => piece.fold
  | ⟨piece, (j, second) :: rest⟩ =>
    .mk () (.conjunction ⟨⟨none, piece.fold⟩, ⟨some j.val, second.fold⟩,
      rest.map fun (j, piece) => ⟨some j.val, piece.fold⟩⟩)

/-- The tree of a chain: a flat conjunction of pieces that are folded from the left. -/
def tree (c : Chain Link Operand) : Bare := (cut c.first c.rest).join

end Chain

namespace Row

variable {ts us : List Token} {A B row row' : Row} {rule : Rule}

/-! ## Up to the names -/

/-- A row that ends with an operand, folded or not. -/
def ClosesOperand (row : Row) : Prop := row.getLast?.any (Rule.closesOperand Tree.node) = true

theorem ClosesOperand.behind (closes : ClosesOperand B) (A : Row) : ClosesOperand (A ++ B) := by
  unfold ClosesOperand at closes ⊢
  rw [List.getLast?_append]
  cases last : B.getLast? with
  | none =>
    rw [last] at closes
    cases closes
  | some t =>
    rw [last] at closes
    exact closes

/-- The rules up to `Rule.column` make the row of the tokens, wherever no name stands before them. -/
inductive Named (ts : List Token) (row : Row) : Prop
  | mk {γ γ₁ γ₂ : Row} : (∀ previous : Option Bare, previous.any (Rule.leafIs Tree.node .symbol) = false →
      Grouped Parses previous (leaves ts) γ) → Rests .call γ γ₁ → Rests .literal γ₁ γ₂ → ClosesOperand γ₂ →
        RestsAll [.allColumns, .column] γ₂ row → Named ts row

/-- The tokens between operands. -/
def isLinkKind : TokenKind → Bool
  | .operator | .likeKw | .notKw | .isKw | .andKw | .orKw => true
  | _ => false

section Link

variable {t : Token} (isLink : isLinkKind t.kind = true)

include isLink

/-- A token between operands is no bracket and no name. -/
theorem grouped_link {S : Row → Row → Prop} {γ : Row} (grouped : ∀ previous : Option Bare,
      previous.any (Rule.leafIs Tree.node .symbol) = false → Grouped S previous (leaves ts) γ)
    (previous : Option Bare) : Grouped S previous (leaves (t :: ts)) (.mk () (.leaf t) :: γ) := by
  have other : ∀ kind ∈ [TokenKind.bracketOpen, .bracketClose, .symbol], (some t.kind == some kind) = false := by
    revert isLink
    generalize t.kind = kind
    cases kind <;> decide
  exact .cons rfl (other _ (by decide)) (other _ (by decide)) (grouped _ (other _ (by decide)))

theorem divides_link (listed : rule ∈ [Rule.call, .allColumns, .column]) : Divides rule (.mk () (.leaf t)) := by
  refine ⟨⟨t, rfl, ?_⟩, ?_⟩
  · revert isLink listed
    generalize t.kind = kind
    cases kind <;> cases rule <;> decide
  · rintro rfl
    revert listed
    decide

/-- An operator behind an operand is no sign. -/
theorem dividesBehind_link (allowed : t.kind = .operator → ClosesOperand A) :
    DividesBehind .literal A.reverse (.mk () (.leaf t)) := by
  refine ⟨⟨t, rfl, ?_⟩, fun right => ?_, nofun⟩
  · revert isLink
    generalize t.kind = kind
    cases kind <;> decide
  · by_cases operator : t.kind = .operator
    · have closed : A.reverse.head?.any (Rule.closesOperand Tree.node) = true := by
        rw [List.head?_reverse]
        exact allowed operator
      have noValue : Rule.isValueKind t.kind = false := by rw [operator]; rfl
      have token : (Tree.node (.mk () (.leaf t) : Bare)).token? = some t := rfl
      simp only [Rule.apply, Rule.applyLiteral, token, noValue, closed, Bool.not_true, Bool.and_false,
        Bool.false_eq_true, if_false]
      rfl
    · refine Rule.apply_of_leaf rfl ?_
      revert isLink operator
      generalize t.kind = kind
      cases kind <;> decide

/-- The rules up to `Rule.column` pass a word before operands. -/
theorem Named.behind (named : Named ts A) (word : t.kind ≠ .operator) : Named (t :: ts) (.mk () (.leaf t) :: A) := by
  obtain ⟨grouped, call, literal, closes, names⟩ := named
  have empty {rule : Rule} : Rests rule [] [] := .rest fun _ _ _ split => by simp at split
  refine .mk (fun previous _ => grouped_link isLink grouped previous)
    (empty.join (divides_link isLink (by decide)) call) (empty.meet (dividesBehind_link isLink fun operator => absurd operator word) literal) (closes.behind [_]) ?_
  exact (restsAll_split fun rule listed => divides_link isLink (List.mem_cons_of_mem _ listed)).mpr
    ⟨[], A, restsAll_nil _, names, rfl⟩

/-- The rules up to `Rule.column` come to rest on both sides of a token between operands. -/
theorem Named.meet (named : Named ts A) (named' : Named us B) :
    Named (ts ++ t :: us) (A ++ .mk () (.leaf t) :: B) := by
  obtain ⟨grouped, call, literal, closes, names⟩ := named
  obtain ⟨grouped', call', literal', closes', names'⟩ := named'
  refine .mk (fun previous noName => ?_) (call.join (divides_link isLink (by decide)) call')
    (literal.meet (dividesBehind_link isLink fun _ => closes) literal') ((closes'.behind [_]).behind _) ?_
  · rw [leaves_append]
    exact (grouped previous noName).append (grouped_link isLink grouped')
  · exact (restsAll_split fun rule listed => divides_link isLink (List.mem_cons_of_mem _ listed)).mpr
      ⟨_, _, names, names', rfl⟩

end Link

theorem isLinkKind_word {kind : TokenKind} (word : Word kind) (isLink : isLinkKind kind = true) :
    isLinkKind word.val.kind = true := by
  rwa [word.property]

theorem isLinkKind_joint (j : Chain.Joint) : isLinkKind j.val.kind = true := by
  rcases j.property with and | or
  · rw [and]; rfl
  · rw [or]; rfl

theorem isLinkKind_spell (l : Chain.Link) : ∀ t ∈ l.spell, isLinkKind t.kind = true := by
  cases l with
  | operator o =>
    cases o with
    | symbol word | like word | is word => exact List.forall_mem_singleton.mpr (isLinkKind_word word rfl)
    | notLike word word' | isNot word word' =>
      exact List.forall_mem_cons.mpr
        ⟨isLinkKind_word word rfl, List.forall_mem_singleton.mpr (isLinkKind_word word' rfl)⟩
  | joint j => exact List.forall_mem_singleton.mpr (isLinkKind_joint j)

/-- The rules up to `Rule.column` come to rest on both sides of what stands between two operands. -/
theorem Named.link (named : Named ts A) (l : Chain.Link) (named' : Named us B) :
    Named (ts ++ (l.spell ++ us)) (A ++ (leaves l.spell ++ B)) := by
  cases l with
  | operator o =>
    cases o with
    | symbol word | like word | is word => exact named.meet (isLinkKind_word word rfl) named'
    | notLike word word' | isNot word word' =>
      refine named.meet (isLinkKind_word word rfl) (named'.behind (isLinkKind_word word' rfl) ?_)
      rw [word'.property]
      nofun
  | joint j => exact named.meet (isLinkKind_joint j) named'

/-! ## Operands -/

/-- A name with qualifiers perhaps. -/
theorem named_column {t : Token} {ts : List Token} {c : ColumnName} (parts : ∀ u ∈ t :: ts, isNamePart u)
    (closes : ClosesOperand (leaves (t :: ts)))
    (answer : Rule.apply Tree.node .column ⟨[], .mk () (.leaf t), leaves ts⟩ = .ok (some ⟨[], .column c, []⟩)) :
    Named (t :: ts) [.mk () (.column c)] := by
  have seen := fun u mem => leaf_namePart (parts u mem)
  have idle {rule : Rule} (listed : rule ∈ [Rule.literal, .allColumns]) :
      Rests rule (leaves (t :: ts)) (leaves (t :: ts)) := by
    have idle : Idle rule (leaves (t :: ts)) := List.forall_mem_map.mpr fun u mem => (seen u mem).2.2 rule listed
    simpa using (Turns.passes idle .nil).rests
  have plain : ∀ u ∈ t :: ts, u.kind ≠ .bracketOpen ∧ u.kind ≠ .bracketClose := by
    intro u mem
    rcases parts u mem with symbol | point
    · rw [symbol]; decide
    · rw [point]; decide
  refine .mk (fun previous _ => grouped_plain plain previous) (.rest (declined_call ?_)) (idle (by decide)) closes
    (.cons (idle (by decide)) (.cons (.alone nofun answer rfl rfl) .nil))
  exact fun u mem => not_bracket_of_mem_leaves u (List.mem_of_mem_tail mem)

/-- A tree that the rules on names leave alone. -/
theorem named_value {γ γ₁ : Row} {e : Bare} (grouped : ∀ previous : Option Bare,
      previous.any (Rule.leafIs Tree.node .symbol) = false → Grouped Parses previous (leaves ts) γ)
    (call : Rests .call γ γ₁) (literal : Rests .literal γ₁ [e]) (operand : Rule.isOperand Tree.node e = true) :
    Named ts [e] := by
  have closes : ClosesOperand [e] := by
    have noLeaf : (Tree.node e).tokenKind? = none := by rw [Node.tokenKind?, Rule.token?_of_isOperand operand]; rfl
    show Rule.closesOperand Tree.node e = true
    rwa [Rule.closesOperand, noLeaf]
  exact .mk grouped call literal closes (restsAll_alone (Rule.isItem_of_isOperand operand) (by decide))

end Row

namespace Chain

open Row

/-- A call or a bracket that is parsed alone is made of its tokens: behind `Rule.call` nothing is left to do. -/
theorem Operand.named_group {ts : List Token} {e : Bare} (alone : StandsAlone ts e) : Named ts [e] := by
  obtain ⟨group, script, limit, notesCalls, rfl, result, shown⟩ := alone
  obtain ⟨⟨grouped, rests⟩, _⟩ := (Folding.runWith_ok_iff_within notesCalls [e]).mp ⟨result, shown⟩
  have operand : Rule.isOperand Tree.node e = true := by
    show e.kind.isExpression = true
    rcases group with call | bracket
    · rw [call]; rfl
    · rw [bracket]; rfl
  have others : ∀ rule ∈ Rule.standard.tail.tail, e.kind ≠ rule.makes := by
    rcases group with call | bracket
    · rw [call]; decide
    · rw [bracket]; decide
  cases rests with
  | cons call rests =>
    obtain rfl := rests.eq_alone others
    have declined : Declined .literal [e] := declined_alone (Rule.isItem_of_isOperand operand) nofun
    exact named_value (fun previous noName => grouped.change noName.symm) call (.rest declined) operand

/-- Every operand is made of its tokens. -/
theorem Operand.named (o : Operand) : Named o.spell [o.fold] := by
  have read {kind : TokenKind} (word : Word kind) :
      Rule.leaf? Tree.node kind (.mk () (.leaf word.val) : Bare) = some word.val := leaf?_leaf word.property
  have is {kind : TokenKind} (word : Word kind) :
      Rule.leafIs Tree.node kind (.mk () (.leaf word.val) : Bare) = true := Rule.leafIs_iff.mpr ⟨_, rfl, word.property⟩
  have closes (ts : List Token) (word : Word .symbol) : ClosesOperand (leaves (ts ++ [word.val])) := by
    rw [leaves_append]
    refine ClosesOperand.behind ?_ _
    show Rule.closesOperandKind word.val.kind = true
    rw [word.property]
    rfl
  cases o with
  | name column =>
    refine named_column (by simp [isNamePart, column.property]) (closes [] column) ?_
    simp [Rule.apply, Rule.applyColumn, read, leaves, Rule.takeNames, Rule.columnName, bind, Except.bind, Rule.fold]
  | ofTable table point column =>
    refine named_column (by simp [isNamePart, table.property, point.property, column.property])
      (closes [table.val, point.val] column) ?_
    simp [Rule.apply, Rule.applyColumn, read, is, leaves, Rule.takeNames, Rule.columnName, bind, Except.bind, Rule.fold,
      pure, Except.pure]
  | ofSchema schema point table point' column =>
    have parts : ∀ t ∈ [schema.val, point.val, table.val, point'.val, column.val], isNamePart t := by
      simp [isNamePart, schema.property, point.property, table.property, point'.property, column.property]
    refine named_column parts (closes [schema.val, point.val, table.val, point'.val] column) ?_
    simp [Rule.apply, Rule.applyColumn, read, is, leaves, Rule.takeNames, Rule.columnName, bind, Except.bind, Rule.fold,
      pure, Except.pure]
  | literal value isValue =>
    have token : (Tree.node (.mk () (.leaf value) : Bare)).token? = some value := rfl
    have plain : value.kind ≠ .bracketOpen ∧ value.kind ≠ .bracketClose := by
      constructor <;> intro same <;> rw [same] at isValue <;> cases isValue
    have answer : Rule.apply Tree.node .literal ⟨[], .mk () (.leaf value), []⟩ =
        .ok (some ⟨[], .literal ⟨none, value⟩, []⟩) := by
      simp [Rule.apply, Rule.applyLiteral, token, isValue, Rule.fold]
    have folded : Rests .literal (leaves [value]) [.mk () (.literal ⟨none, value⟩)] := .alone (by decide) answer rfl rfl
    exact named_value (fun previous _ => grouped_plain (by simpa [spell] using plain) previous)
      (.rest (declined_call (List.forall_mem_nil _))) folded rfl
  | number sign isSign value =>
    have operator : sign.kind = .operator := by
      rw [Rule.isSign, Bool.and_eq_true] at isSign
      exact beq_iff_eq.mp isSign.1
    have token : (Tree.node (.mk () (.leaf sign) : Bare)).token? = some sign := rfl
    have noValue : Rule.isValueKind sign.kind = false := by rw [operator]; rfl
    have answer : Rule.apply Tree.node .literal ⟨[], .mk () (.leaf sign), leaves [value.val]⟩ =
        .ok (some ⟨[], .literal ⟨some sign, value⟩, []⟩) := by
      simp [Rule.apply, Rule.applyLiteral, token, noValue, isSign, Rule.takeLeaf?, read, leaves, Rule.fold]
    have folded : Rests .literal (leaves [sign, value.val]) [.mk () (.literal ⟨some sign, value⟩)] :=
      .alone (by decide) answer rfl rfl
    refine named_value (fun previous _ => grouped_plain ?_ previous) (.rest (declined_call ?_)) folded rfl
    · simp [spell, operator, value.property]
    · exact fun t mem => not_bracket_of_mem_leaves t (List.mem_of_mem_tail mem)
  | group tokens tree alone => exact named_group alone

theorem Operand.isOperand (o : Operand) : Rule.isOperand Tree.node o.fold = true := by
  cases o with
  | group tokens tree alone =>
    show tree.kind.isExpression = true
    obtain ⟨call | bracket, _⟩ := alone
    · rw [call]; rfl
    · rw [bracket]; rfl
  | _ => rfl

/-! ## From link to link -/

variable {κ α β : Type}

theorem flatten_cons (between : κ → List β) (item : α → List β) (a : α) (k : κ) (a' : α) (rest : List (κ × α)) :
    flatten between item ⟨a, (k, a') :: rest⟩ = item a ++ (between k ++ flatten between item ⟨a', rest⟩) := by
  simp [flatten]

/-- The leaves of operators and the trees of operands. -/
def row (c : Chain Link Operand) : Row := c.flatten (fun l => leaves l.spell) fun o => [o.fold]

/-- The rules up to `Rule.column` make the row of a chain. -/
theorem named (first : Operand) (rest : List (Link × Operand)) :
    Named (tokens ⟨first, rest⟩) (row ⟨first, rest⟩) := by
  induction rest generalizing first with
  | nil => simpa [tokens, row, flatten] using first.named
  | cons next rest ih =>
    obtain ⟨l, o⟩ := next
    rw [tokens, row, flatten_cons, flatten_cons]
    exact first.named.link l (ih o)

/-- `Rule.membership` has nothing to do in a chain. -/
theorem declined_membership (c : Chain Link Operand) : Declined .membership c.row := by
  have plain (o : Operand) : Rule.leafIs Tree.node .inKw o.fold = false := by
    rw [Rule.leafIs, Node.tokenKind?, Rule.token?_of_isOperand o.isOperand]
    rfl
  have word {t : Token} (isLink : isLinkKind t.kind = true) :
      Rule.leafIs Tree.node .inKw (.mk () (.leaf t)) = false := by
    rw [Bool.eq_false_iff]
    intro isIn
    obtain ⟨_, ⟨⟩, kind⟩ := Rule.leafIs_iff.mp isIn
    rw [kind] at isLink
    cases isLink
  refine declined_of_noIn fun t mem => ?_
  simp only [row, flatten, List.singleton_append, List.mem_cons, List.mem_flatMap, List.mem_append, List.not_mem_nil,
    or_false, Prod.exists] at mem
  rcases mem with rfl | ⟨l, o, _, leaf | rfl⟩
  · exact plain _
  · obtain ⟨t, mem, rfl⟩ := List.mem_map.mp leaf
    exact word (isLinkKind_spell l t mem)
  · exact plain _

/-! ## Operations -/

/-- `Rule.operation` folds from the left. -/
theorem rests_operation {e : Bare} (operand : Rule.isOperand Tree.node e = true) (rest : List (Operator × Operand)) :
    Rests .operation (e :: rest.flatMap fun (o, a) => leaves o.spell ++ [a.fold])
      [rest.foldl (fun left (o, a) => .mk () (.operation ⟨left, o.spell, a.fold⟩)) e] := by
  induction rest generalizing e with
  | nil => exact .rest (declined_alone (Rule.isItem_of_isOperand operand) nofun)
  | cons next rest ih =>
    obtain ⟨o, a⟩ := next
    let after : Row := rest.flatMap fun (o, a) => leaves o.spell ++ [a.fold]
    have read : ∃ last, Rule.takeOperator? Tree.node (leaves o.spell ++ a.fold :: after) =
        some ⟨o.spell, last, a.fold :: after⟩ := by
      have plain := Rule.token?_of_isOperand a.isOperand
      cases o with
      | symbol word | like word | is word =>
        have token : (Tree.node (.mk () (.leaf word.val) : Bare)).token? = some word.val := rfl
        exact ⟨.mk () (.leaf word.val), by simp [Operator.spell, leaves, Rule.takeOperator?, Rule.takeOperator?.single,
          Rule.startsOperator, token, plain, word.property]⟩
      | notLike word word' | isNot word word' =>
        have token : (Tree.node (.mk () (.leaf word.val) : Bare)).token? = some word.val := rfl
        have token' : (Tree.node (.mk () (.leaf word'.val) : Bare)).token? = some word'.val := rfl
        exact ⟨.mk () (.leaf word'.val), by simp [Operator.spell, leaves, Rule.takeOperator?, token, token',
          word.property, word'.property]⟩
    obtain ⟨last, read⟩ := read
    have answer : Rule.apply Tree.node .operation ⟨[], e, leaves o.spell ++ a.fold :: after⟩ =
        .ok (some ⟨[], .operation ⟨.sibling e, o.spell, .sibling a.fold⟩, after⟩) := by
      simp only [Rule.apply, Rule.applyOperation, Rule.token?_of_isOperand operand, operand, read, a.isOperand, if_true]
      rfl
    have made : Fold.tree ⟨[], .operation ⟨.sibling e, o.spell, .sibling a.fold⟩, after⟩ =
        .mk () (.operation ⟨e, o.spell, a.fold⟩) := rfl
    have folded := @Rests.fold .operation [] _ _ _ _ (fun _ _ _ _ few => absurd few (Nat.not_lt_zero _)) answer
      (ih (e := Fold.tree _) rfl)
    simpa [made, after] using folded

/-- The pieces between the words of a chain, each as a row. -/
theorem row_cut (first : Operand) (rest : List (Link × Operand)) :
    row ⟨first, rest⟩ = (cut first rest).flatten (fun j => leaves [j.val]) fun piece =>
      piece.flatten (fun o => leaves o.spell) fun o => [o.fold] := by
  induction rest generalizing first with
  | nil => rfl
  | cons next rest ih =>
    obtain ⟨o | j, a⟩ := next
    · rw [row, flatten_cons, ← row, ih]
      simp [cut, flatten, Link.spell]
    · rw [row, flatten_cons, ← row, ih]
      simp [cut, flatten, Link.spell]

/-- `Rule.operation` folds every piece. -/
theorem rests_pieces (first : Chain Operator Operand) (rest : List (Joint × Chain Operator Operand)) :
    Rests .operation
      (flatten (fun j => leaves [j.val]) (fun piece => piece.flatten (fun o => leaves o.spell) fun o => [o.fold])
        ⟨first, rest⟩)
      (flatten (fun j => leaves [j.val]) (fun piece => [piece.fold]) ⟨first, rest⟩) := by
  induction rest generalizing first with
  | nil => simpa [flatten, fold] using rests_operation first.first.isOperand first.rest
  | cons next rest ih =>
    obtain ⟨j, piece⟩ := next
    rw [flatten_cons, flatten_cons]
    have divides : Divides .operation (.mk () (.leaf j.val)) := by
      refine ⟨⟨_, rfl, ?_⟩, nofun⟩
      rcases j.property with and | or
      · rw [and]; exact ⟨rfl, rfl⟩
      · rw [or]; exact ⟨rfl, rfl⟩
    have folded : Rests .operation (first.flatten (fun o => leaves o.spell) fun o => [o.fold]) [first.fold] := by
      simpa [flatten, fold] using rests_operation first.first.isOperand first.rest
    exact folded.join divides (ih piece)

theorem isOperand_fold (c : Chain Operator Operand) : Rule.isOperand Tree.node c.fold = true := by
  obtain ⟨first, rest⟩ := c
  rcases List.eq_nil_or_concat' rest with rfl | ⟨rest, last, rfl⟩
  · exact first.isOperand
  · rw [fold, List.foldl_append]
    rfl

theorem isOperand_join (c : Chain Joint (Chain Operator Operand)) : Rule.isOperand Tree.node c.join = true := by
  obtain ⟨first, _ | _⟩ := c
  · exact first.isOperand_fold
  · rfl

/-- `Rule.conjunction` takes all pieces at once. -/
theorem rests_join (c : Chain Joint (Chain Operator Operand)) :
    Rests .conjunction (c.flatten (fun j => leaves [j.val]) fun piece => [piece.fold]) [c.join] := by
  obtain ⟨first, _ | ⟨⟨j, second⟩, rest⟩⟩ := c
  · exact .rest (declined_alone (Rule.isItem_of_isOperand first.isOperand_fold) nofun)
  · have words (j : Joint) : Rule.joinsOperands j.val.kind = true := by
      rcases j.property with and | or
      · rw [and]; rfl
      · rw [or]; rfl
    have operand (piece : Chain Operator Operand) : Rule.isOperand Tree.node piece.fold = true := piece.isOperand_fold
    let made : Conjunction Bare :=
      ⟨⟨none, first.fold⟩, ⟨some j.val, second.fold⟩, rest.map fun (j, piece) => ⟨some j.val, piece.fold⟩⟩
    have slots : (Node.conjunction made).Slots (Rule.glance Tree.node) := by
      refine ⟨?_, rfl, ?_⟩
      · simp only [Conjunction.parts, made, List.forall_mem_cons, List.forall_mem_map]
        exact ⟨operand first, operand second, fun piece _ => operand piece.2⟩
      · simp only [made, List.forall_mem_cons, List.forall_mem_map]
        exact ⟨⟨_, rfl, words j⟩, fun piece _ => ⟨_, rfl, words piece.1⟩⟩
    have whole : Layout.row ((Node.conjunction made).layout Render.isGlued) =
        flatten (fun j => leaves [j.val]) (fun piece => [piece.fold]) ⟨first, (j, second) :: rest⟩ := by
      simp [Node.layout, Conjunction.parts, made, flatten, leaves, Layout.junct, Layout.row,
        Piece.bare_expression (operand _), List.flatMap_map, List.map_flatMap]
    exact whole ▸ rests_conjunction slots

/-- A chain is parsed to its tree. -/
theorem parses (c : Chain Link Operand) : Parses (leaves c.tokens) [c.tree] := by
  obtain ⟨grouped, call, literal, _, names⟩ := named c.first c.rest
  have memberships : Rests .membership c.row c.row := .rest (declined_membership c)
  have operations : Rests .operation c.row _ := row_cut c.first c.rest ▸ rests_pieces _ _
  have conjunctions := rests_join (cut c.first c.rest)
  have later : RestsAll Rule.clauseRules [c.tree] [c.tree] :=
    restsAll_alone (Rule.isItem_of_isOperand (cut c.first c.rest).isOperand_join) (by decide)
  have statements : RestsAll [.select, .update] [c.tree] [c.tree] :=
    restsAll_alone (Rule.isItem_of_isOperand (cut c.first c.rest).isOperand_join) (by decide)
  exact .mk (grouped none rfl) (.cons call (.cons literal (names.append
    (.cons memberships (.cons operations (.cons conjunctions (later.append statements)))))))

end Chain

namespace Folding

end Folding

end SqlFold
