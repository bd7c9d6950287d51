import SqlFold.Node.Parts
import SqlFold.Rule.Focus

/-!
# Brackets and function calls

* `Rule.bracket` folds a balanced span of brackets into one branch. Where it meets such a branch
  again it checks that the content is a list of expressions separated by commas. After a name the
  branch is an argument list: it may be empty and may start with `DISTINCT`.
* `Rule.call` folds a name and the branch after it.
-/

namespace SqlFold.Rule

variable {α : Type} (view : α → Node α)

/-- Splits the siblings at the bracket that closes `depth` inner brackets and one outer one. Answers
with what stands before it, its token and what stands after it. -/
def splitAtClosing? : (depth : Nat) → List α → Option (List α × Token × List α)
  | _, [] => none
  | depth, a :: rest =>
    match (view a).token? with
    | none => within depth a rest
    | some t =>
      if t.kind = .bracketOpen then within (depth + 1) a rest
      else if t.kind = .bracketClose then
        match depth with
        | 0 => some ([], t, rest)
        | depth + 1 => within depth a rest
      else within depth a rest
where
  /-- Goes on behind a sibling that belongs to the content. -/
  within (depth : Nat) (a : α) (rest : List α) : Option (List α × Token × List α) :=
    (splitAtClosing? depth rest).map fun (inner, closing, after) => (a :: inner, closing, after)

/-- Whether a sibling can be an item between brackets. -/
def isItem (a : α) : Bool := isOperand view a || isNode view .select a

/-- Checks that items and commas alternate and that an item comes last, where `previous` stands
before the siblings and `item` says whether an item is next. -/
def checkItems (item : Bool) (previous : α) : List α → Checked α Unit
  | [] => if item then missingAfter view previous .expression else .ok ()
  | a :: rest =>
    if item then
      if isItem view a then checkItems false a rest else misplaced view a .expression
    else
      if leafIs view .comma a then checkItems true a rest else misplaced view a .listEnd

/-- Checks the content of the branch `span`, which may be an argument list. -/
def checkContent (span : α) (content : List α) (arguments : Bool) :
    Checked α Unit :=
  let items :=
    match content with
    | a :: rest => if arguments && leafIs view .distinctKw a then rest else content
    | [] => []
  if arguments && content.isEmpty then .ok ()
  else if items.isEmpty then object span .emptyBrackets
  else checkItems view true span items

/-- Folds a balanced span of brackets, and checks the content of a span that is folded already. -/
def applyBracket (focus : Focus α) : Checked α (Option (Fold α)) :=
  match view focus.here with
  | .leaf opening =>
    if opening.kind = .bracketOpen then
      match splitAtClosing? view 0 focus.right with
      | some (inner, closing, after) =>
        fold focus.left (.bracket ⟨opening, closing, inner.map .sibling⟩) after
      | none => object focus.here .unclosedBracket
    else if opening.kind = .bracketClose then object focus.here .unopenedBracket
    else decline
  | .bracket span => do
    checkContent view focus.here span.children (focus.left.head?.any (leafIs view .symbol))
    decline
  | _ => decline

/-- Folds a name with its argument list. -/
def applyCall (focus : Focus α) : Checked α (Option (Fold α)) :=
  match leaf? view .symbol focus.here, focus.right with
  | some name, arguments :: after =>
    if isNode view .bracket arguments && !focus.left.head?.any (leafIs view .dot) then
      let distinct := (view arguments).children.head?.any (leafIs view .distinctKw)
      fold focus.left (.call ⟨name, distinct, .sibling arguments⟩) after
    else decline
  | _, _ => decline

end SqlFold.Rule
