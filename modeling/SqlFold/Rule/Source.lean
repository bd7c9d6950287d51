import SqlFold.Rule.Focus

/-!
# Where rows come from

* `Rule.fromClause` folds `FROM` with its source and alias.
* `Rule.join` folds the words before `JOIN`, `JOIN` itself, the source, its alias and the condition.

A source is a table, which a column name of up to two parts is turned into, or a bracketed subquery.
-/

namespace SqlFold.Rule

variable {α : Type} (view : α → Node α)

/-! ## Sources and aliases -/

/-- The table or, where that is allowed, the bracketed subquery that a sibling stands for. -/
def source? (subquery : Bool) (a : α) : Checked α (Option (Origin α)) :=
  match view a with
  | .column c =>
    if c.schema.isSome then object a (.tooManyQualifiers .table)
    else .ok (some (.newTable ⟨c.table, c.column⟩))
  | .bracket _ => .ok (if subquery then some (.sibling a) else none)
  | _ => .ok none

/-- The source at the front of the siblings, and the siblings after it. -/
def takeSource? (subquery : Bool) :
    List α → Checked α (Option (Origin α × List α))
  | [] => .ok none
  | a :: rest => return (← source? view subquery a).map (·, rest)

/-- The token of a column without qualifiers. -/
def bareName? (a : α) : Option Token :=
  match view a with
  | .column ⟨none, none, name⟩ => some name
  | _ => none

/-- The alias at the front of the siblings, if there is one, and the siblings after it. Without `AS`
an alias is read only where it may be `bare`. -/
def takeAlias (bare : Bool) : List α → Checked α (Option Token × List α)
  | [] => .ok (none, [])
  | a :: rest =>
    if leafIs view .asKw a then
      match rest with
      | [] => object a (.expected .aliasName (some (.word "AS")) none)
      | b :: rest' =>
        match bareName? view b with
        | some name => .ok (some name, rest')
        | none => object a (.expected .aliasName (some (.word "AS")) none)
    else
      match (if bare then bareName? view a else none) with
      | some name => .ok (some name, rest)
      | none => .ok (none, a :: rest)

/-- Reading an alias adds no sibling. -/
theorem takeAlias_length_le {bare : Bool} {siblings : List α} {aliasName : Option Token}
    {after : List α} (h : takeAlias view bare siblings = .ok (aliasName, after)) :
    after.length ≤ siblings.length := by
  unfold takeAlias at h
  split at h
  · cases h; simp
  · split at h
    · split at h
      · cases h
      · split at h <;> cases h
        simp only [List.length_cons]
        omega
    · split at h <;> cases h <;> simp

/-! ## From -/

/-- Folds a `FROM` clause. -/
def applyFromClause (focus : Focus α) : Checked α (Option (Fold α)) :=
  match leaf? view .fromKw focus.here with
  | none => decline
  | some keyword => do
    match ← takeSource? view true focus.right with
    | none => decline
    | some (source, rest) =>
      let (aliasName, after) ← takeAlias view true rest
      fold focus.left (.fromClause ⟨keyword, source, aliasName⟩) after

/-! ## Joins -/

/-- The words before `JOIN`, and the siblings after them. -/
def takeModifiers : List α → List Token × List α
  | [] => ([], [])
  | a :: rest =>
    match leafOf? view TokenKind.isJoinModifier a with
    | some t => let (modifiers, after) := takeModifiers rest; (t :: modifiers, after)
    | none => ([], a :: rest)

/-- The condition of a join, if there is one, and the siblings after it. -/
def takeJoinRestriction :
    List α → Checked α (Option (Restriction (Origin α)) × List α)
  | [] => .ok (none, [])
  | a :: rest =>
    match leaf? view .onKw a, leaf? view .usingKw a with
    | some keyword, _ =>
      match rest with
      | e :: after =>
        if isOperand view e then .ok (some ⟨keyword, .sibling e⟩, after)
        else missingAfter view a .expression
      | [] => missingAfter view a .expression
    | none, some keyword =>
      match rest with
      | e :: after =>
        if isNode view .bracket e then .ok (some ⟨keyword, .sibling e⟩, after)
        else missingAfter view a .columnList
      | [] => missingAfter view a .columnList
    | none, none => .ok (none, a :: rest)

/-- Folds a join. -/
def applyJoin (focus : Focus α) : Checked α (Option (Fold α)) :=
  if focus.left.head?.any fun a => (leafOf? view TokenKind.isJoinModifier a).isSome then decline
  else
    match takeModifiers view (focus.here :: focus.right) with
    | (_, []) => decline
    | (modifiers, a :: rest) =>
      match leaf? view .joinKw a with
      | none => decline
      | some word => do
        match ← takeSource? view true rest with
        | none =>
          object a (.expected .table (some (.word "JOIN"))
            (rest.head?.map fun found => (view found).mention))
        | some (source, rest) =>
          let (aliasName, rest) ← takeAlias view true rest
          let (condition, after) ← takeJoinRestriction view rest
          fold focus.left (.join ⟨modifiers ++ [word], source, aliasName, condition⟩) after

end SqlFold.Rule
