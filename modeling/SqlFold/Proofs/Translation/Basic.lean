import SqlFold.Proofs.Cover.Basic

/-!
# Rules under a translation

A rule looks at siblings through `view` and at nothing else. So it gives the same answer on siblings
`a` and on their translations `g a`, if the nodes of these are the translated nodes: other sub-nodes
by `g` and other tokens by `h`. `Rule.Translates` says so of two views, with what `h` must keep: the
kinds of tokens, and which operators are signs.

`Rule.Agree` compares two readings. Both succeed and the second value is the translated first one,
or both object to corresponding siblings. The faults may then differ in the texts of tokens that they
mention (`Fault.Renamed`), and in nothing else.
-/

namespace SqlFold

variable {α α' β γ δ : Type}

/-! ## Translated data -/

/-- The name with other tokens. -/
def TableName.mapTokens (h : Token → Token) (t : TableName) : TableName := ⟨t.schema.map h, h t.name⟩

/-- The focus with other siblings. -/
def Focus.map (g : α → α') (focus : Focus α) : Focus α' :=
  ⟨focus.left.map g, g focus.here, focus.right.map g⟩

/-- The origin with another sibling or other tokens. -/
def Origin.map (g : α → α') (h : Token → Token) : Origin α → Origin α'
  | .sibling a => .sibling (g a)
  | .newTable name => .newTable (name.mapTokens h)

/-- The fold with other siblings and tokens. -/
def Fold.map (g : α → α') (h : Token → Token) (f : Fold α) : Fold α' :=
  ⟨f.left.map g, (f.node.map (Origin.map g h)).mapTokens h, f.right.map g⟩

/-- The objection to another sibling. -/
def Objection.map (g : α → α') (o : Objection α) : Objection α' := ⟨g o.culprit, o.fault⟩

/-! ## Faults that differ in the texts of tokens -/

/-- Two mentions of one kind. Where they mention a token, the second mentions the translated one. -/
inductive Mention.Renamed (h : Token → Token) : Mention → Mention → Prop
  | refl (m : Mention) : Renamed h m m
  | lexeme (t : Token) : Renamed h (.lexeme t.lexeme) (.lexeme (h t).lexeme)

/-- Two faults with the same cause. -/
inductive Fault.Renamed (h : Token → Token) : Fault → Fault → Prop
  | refl (fault : Fault) : Renamed h fault fault
  | expected (wanted : Wanted) {after after' found found' : Option Mention} :
      Option.Rel (Mention.Renamed h) after after' → Option.Rel (Mention.Renamed h) found found' →
        Renamed h (.expected wanted after found) (.expected wanted after' found')
  | missingLeftOperand {m m' : Mention} :
      Mention.Renamed h m m' → Renamed h (.missingLeftOperand m) (.missingLeftOperand m')

/-- Without other tokens a fault stays the same. -/
theorem Fault.Renamed.eq_of_id {fault fault' : Fault} (r : Renamed id fault fault') :
    fault' = fault := by
  have mention {m m' : Mention} (r : Mention.Renamed id m m') : m' = m := by cases r <;> rfl
  have mention? {m m' : Option Mention} (r : Option.Rel (Mention.Renamed id) m m') : m' = m := by
    cases r with
    | some r => rw [mention r]
    | none => rfl
  cases r with
  | refl => rfl
  | expected wanted after found => rw [mention? after, mention? found]
  | missingLeftOperand m => rw [mention m]

namespace Rule

/-- The second view shows the translated nodes of the first one. -/
structure Translates (view : α → Node α) (view' : α' → Node α') (g : α → α') (h : Token → Token) :
    Prop where
  node : ∀ a, view' (g a) = ((view a).map g).mapTokens h
  kind : ∀ t, (h t).kind = t.kind
  sign : ∀ t, isSign (h t) = isSign t

/-- A view of the same tokens is a translation. -/
theorem Translates.of_map {view : α → Node α} {view' : α' → Node α'} {g : α → α'}
    (shows : ∀ a, view' (g a) = (view a).map g) : Translates view view' g id :=
  ⟨fun a => (shows a).trans (Node.mapTokens_id _).symm, fun _ => rfl, fun _ => rfl⟩

/-- Two readings that agree up to a translation, which takes the values of the first to those of the
second by `f`. -/
inductive Agree (g : α → α') (h : Token → Token) (f : β → γ) : Checked α β → Checked α' γ → Prop
  | ok (b : β) : Agree g h f (.ok b) (.ok (f b))
  | error {culprit : α} {fault fault' : Fault} :
      Fault.Renamed h fault fault' → Agree g h f (.error ⟨culprit, fault⟩) (.error ⟨g culprit, fault'⟩)

variable {view : α → Node α} {view' : α' → Node α'} {g : α → α'} {h : Token → Token}

/-! ## Readings -/

namespace Agree

/-- The same value on both sides, up to the translation. -/
theorem of_ok {f : β → γ} {b : β} {c : γ} (eq : c = f b) : Agree g h f (.ok b) (.ok c) := eq ▸ .ok b

/-- A reading that goes on after another. -/
theorem bind {δ' : Type} {f : β → γ} {f' : δ → δ'} {x : Checked α β} {x' : Checked α' γ}
    {k : β → Checked α δ} {k' : γ → Checked α' δ'} (first : Agree g h f x x')
    (second : ∀ b, x = .ok b → Agree g h f' (k b) (k' (f b))) :
    Agree g h f' (x >>= k) (x' >>= k') := by
  cases first with
  | ok b => exact second b rfl
  | error renamed => exact .error renamed

/-- A reading with a changed value. -/
theorem map {δ' : Type} {f : β → γ} {f' : δ → δ'} {x : Checked α β} {x' : Checked α' γ}
    {k : β → δ} {k' : γ → δ'} (first : Agree g h f x x') (second : ∀ b, k' (f b) = f' (k b)) :
    Agree g h f' (k <$> x) (k' <$> x') := by
  cases first with
  | ok b => exact of_ok (second b)
  | error renamed => exact .error renamed

end Agree

/-- Both rules decline. -/
theorem agree_decline : Agree g h (Option.map (Fold.map g h)) decline decline := .ok none

/-- Both rules fold. -/
theorem agree_fold {left right : List α} {left' right' : List α'} {node : Node (Origin α)}
    {node' : Node (Origin α')} (lefts : left' = left.map g)
    (nodes : node' = (node.map (Origin.map g h)).mapTokens h) (rights : right' = right.map g) :
    Agree g h (Option.map (Fold.map g h)) (fold left node right) (fold left' node' right') := by
  subst lefts nodes rights
  exact .ok (some (Fold.mk left node right))

/-- Both object to the same sibling, for the same cause. -/
theorem agree_object {f : β → γ} (culprit : α) {fault fault' : Fault}
    (renamed : Fault.Renamed h fault fault') :
    Agree g h f (object culprit fault) (object (g culprit) fault') := .error renamed

/-! ## What is seen of one sibling -/

namespace Translates

variable (tr : Translates view view' g h)

include tr

theorem token? (a : α) : (view' (g a)).token? = (view a).token?.map h := by rw [tr.node]; simp

theorem nodeKind (a : α) : (view' (g a)).kind = (view a).kind := by rw [tr.node]; simp

theorem tokenKind? (a : α) : (view' (g a)).tokenKind? = (view a).tokenKind? := by
  rw [Node.tokenKind?, Node.tokenKind?, tr.token?, Option.map_map]
  exact Option.map_congr fun t _ => tr.kind t

theorem leafIs (kind : TokenKind) (a : α) :
    Rule.leafIs view' kind (g a) = Rule.leafIs view kind a := by
  rw [Rule.leafIs, Rule.leafIs, tr.tokenKind?]

theorem leafOf? (sort : TokenKind → Bool) (a : α) :
    Rule.leafOf? view' sort (g a) = (Rule.leafOf? view sort a).map h := by
  rw [Rule.leafOf?, Rule.leafOf?, tr.token?, Option.filter_map]
  simp only [Function.comp_def, tr.kind]

theorem leaf? (kind : TokenKind) (a : α) :
    Rule.leaf? view' kind (g a) = (Rule.leaf? view kind a).map h := by
  rw [Rule.leaf?, Rule.leaf?, tr.token?, Option.filter_map]
  simp only [Function.comp_def, tr.kind]

theorem isOperand (a : α) : Rule.isOperand view' (g a) = Rule.isOperand view a := by
  rw [Rule.isOperand, Rule.isOperand, Node.isExpression, Node.isExpression, tr.nodeKind]

theorem isNode (kind : NodeKind) (a : α) :
    Rule.isNode view' kind (g a) = Rule.isNode view kind a := by
  rw [Rule.isNode, Rule.isNode, tr.nodeKind]

theorem children (a : α) : (view' (g a)).children = (view a).children.map g := by
  rw [tr.node]
  simp

theorem mention (a : α) : Mention.Renamed h (view a).mention (view' (g a)).mention := by
  rw [Node.mention, Node.mention, tr.token?, tr.nodeKind]
  cases (view a).token? with
  | none => exact .refl _
  | some t => exact .lexeme t

omit tr in
/-- A question about the first of some siblings has one answer. -/
theorem any_head? {p : α → Bool} {p' : α' → Bool} (same : ∀ a, p' (g a) = p a) (as : List α) :
    (as.map g).head?.any p' = as.head?.any p := by
  cases as with
  | nil => rfl
  | cons a as => exact same a

/-- Both complain that something is missing after a sibling. -/
theorem missingAfter {f : β → γ} (culprit : α) (wanted : Wanted) :
    Agree g h f (Rule.missingAfter view culprit wanted)
      (Rule.missingAfter view' (g culprit) wanted) :=
  agree_object culprit (.expected wanted (.some (tr.mention culprit)) .none)

/-- Both complain that a sibling stands in the place of something else. -/
theorem misplaced {f : β → γ} (culprit : α) (wanted : Wanted) :
    Agree g h f (Rule.misplaced view culprit wanted) (Rule.misplaced view' (g culprit) wanted) :=
  agree_object culprit (.expected wanted .none (.some (tr.mention culprit)))

end Translates

end Rule

end SqlFold
