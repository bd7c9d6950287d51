import SqlFold.Folding.Event
import SqlFold.Forest.Fingerprint
import SqlFold.Rule.Apply
import Std.Data.TreeMap.Basic

/-!
# Foldings

A `Folding` applies a list of rules to a branch until none changes it any more:

* each rule runs to its own fixpoint before the next one starts;
* a **sweep** calls the rule for the children of the branch from left to right and ends at the first
  call that changes the branch, because the places of the children are new then;
* a child that is itself a branch is stabilized with the whole list of rules as soon as a sweep
  reaches it, and left alone afterwards as long as its fingerprint stays what it was then;
* a rule may take no more than `sweepLimit` sweeps over a branch.

`Folding.run` gives the store that is left and the fixpoints that were reached, whether the run
succeeded or not. `Folding.trace` gives the single calls of rules as well.
-/

namespace SqlFold

/-- Rules in the order in which they run, and the limit on the sweeps of one rule over a branch. -/
structure Folding where
  rules : List Rule
  sweepLimit : Nat

namespace Folding

/-- The limit on sweeps where none is set. -/
def standardLimit : Nat := 10000

/-- The folding with all rules and the given limit. -/
def standard (sweepLimit : Nat) : Folding := ⟨Rule.standard, sweepLimit⟩

/-- What a run works on. -/
structure Work where
  forest : Forest
  /-- The fingerprints that branches had when they were stabilized last, by their numbers. -/
  stable : Std.TreeMap Nat Fingerprint
  /-- The events so far. -/
  events : Array Event
  /-- Whether single calls are among the events. -/
  notesCalls : Bool

/-- A step of a run. A failing step keeps the work done before it failed. -/
abbrev Step (α : Type) : Type := EStateM Error Work α

/-- Changes the store. -/
def edit {α : Type} (e : Edit α) : Step α := fun
  | ⟨forest, stable, events, notesCalls⟩ =>
    match e forest with
    | .ok a forest => .ok a ⟨forest, stable, events, notesCalls⟩
    | .error v forest => .error (.violation v) ⟨forest, stable, events, notesCalls⟩

/-- Reads the store. -/
def forest : Step Forest := return (← get).forest

/-- The work with one more event. -/
def Work.noting (w : Work) (event : Event) : Work := { w with events := w.events.push event }

/-! ## One call -/

/-- The reference of a sub-node of a folded node, where new tables get a record of their own. -/
def place : Origin NodeRef → Edit NodeRef
  | .sibling r => return r
  | .newTable name => Forest.insert (.table name)

/-- Puts a folded node into the branch, in the place of the siblings that it takes. -/
def applyFold (branch : NodeRef) (focus : Focus NodeRef) (fold : Fold NodeRef) : Edit Unit := do
  let new ← Forest.insert (← fold.node.mapM place)
  let size := focus.left.length + 1 + focus.right.length
  Forest.replace branch fold.left.length (size - fold.left.length - fold.right.length) new

/-- Calls a rule and tells whether it put a folded node into the branch. -/
def attempt (rule : Rule) (branch : NodeRef) (focus : Focus NodeRef) : Step Bool := do
  let f ← forest
  match rule.apply f.node focus with
  | .error objection => throw (f.locate objection.culprit objection.fault)
  | .ok none => return false
  | .ok (some fold) =>
    edit (applyFold branch focus fold)
    return true

/-- Calls a rule for the child at an offset of a branch with `size` children and tells whether the
rule put a folded node into the branch. The call is noted if calls are. -/
def attemptNoted (rule : Rule) (branch : NodeRef) (size offset : Nat) (focus : Focus NodeRef) :
    Step Bool := fun w =>
  if w.notesCalls then
    let call : RuleCall :=
      { rule, offset
        leaf := (w.forest.node focus.here).tokenKind?, kind := w.forest.kind focus.here
        branch := w.forest.kind branch, before := size, after := none }
    match attempt rule branch focus w with
    | .ok folded w =>
      let after := if folded then (w.forest.childList branch).length else size
      .ok folded (w.noting (.called { call with after }))
    | .error e w => .error e (w.noting (.called call))
  else attempt rule branch focus w

/-- Calls a rule for a child and tells whether the branch looks different afterwards. -/
def call (rule : Rule) (branch : NodeRef) (size offset : Nat) (focus : Focus NodeRef) :
    Step Bool := do
  let before ← edit (Forest.fingerprint branch)
  if ← attemptNoted rule branch size offset focus then
    let after ← edit (Forest.fingerprint branch)
    return after ≠ before
  else return false

/-! ## Sweeps -/

/-- Stabilizes a node that is a branch. -/
def stabilizeBranch (stabilize : NodeRef → Step Unit) (r : NodeRef) : Step Unit := do
  if ((← forest).node r).isBranch then stabilize r

/-- Stabilizes the child of a branch at an offset, if there is one and it is a branch. -/
def stabilizeChild (stabilize : NodeRef → Step Unit) (branch : NodeRef) (offset : Nat) :
    Step Unit := do
  match ((← forest).childList branch)[offset]? with
  | none => return
  | some child => stabilizeBranch stabilize child

/-- The rest of a sweep over a branch with `size` children: calls a rule for the children after the
first `offset`, which stand on the `left` and whose numbers are `seen`, for every child once. It
ends at the first call that changes the branch and tells whether there was one. After a call the
branch that stands at the offset is stabilized. -/
def sweepFrom (stabilize : NodeRef → Step Unit) (rule : Rule) (branch : NodeRef) (size : Nat)
    (seen : Array Bool) (offset : Nat) (left : List NodeRef) : List NodeRef → Step Bool
  | [] => return false
  | child :: right => do
    if seen.getD child.index false then
      sweepFrom stabilize rule branch size seen (offset + 1) (child :: left) right
    else if ← call rule branch size offset ⟨left, child, right⟩ then
      stabilizeChild stabilize branch offset
      return true
    else
      stabilizeBranch stabilize child
      let seen := seen.setIfInBounds child.index true
      sweepFrom stabilize rule branch size seen (offset + 1) (child :: left) right

/-- One sweep of a rule over a branch. Tells whether it changed the branch. -/
def sweep (stabilize : NodeRef → Step Unit) (rule : Rule) (branch : NodeRef) : Step Bool := do
  let f ← forest
  let children := f.childList branch
  sweepFrom stabilize rule branch children.length (.replicate f.size false) 0 [] children

/-- Sweeps of a rule over a branch until one changes nothing, where `spent` sweeps were made and
`left` more are allowed. -/
def fixpoint (stabilize : NodeRef → Step Unit) (rule : Rule) (branch : NodeRef) (spent : Nat) :
    (left : Nat) → Step Unit
  | 0 => throw (.violation (.sweepLimitExceeded rule spent))
  | left + 1 => do
    if ← sweep stabilize rule branch then fixpoint stabilize rule branch (spent + 1) left
    else
      let children := ((← forest).childList branch).length
      modify (·.noting (.stabilized rule (spent + 1) children))

/-! ## Runs -/

variable (folding : Folding)

/-- Runs all rules on a branch, unless it looks as it did when it was stabilized last. Branches are
followed no more than `depth` levels below one another. -/
def stabilize : (depth : Nat) → NodeRef → Step Unit
  | 0, _ => return
  | depth + 1, branch => do
    let current ← edit (Forest.fingerprint branch)
    if (← get).stable[branch.index]? = some current then return
    else
      folding.rules.forM fun rule => fixpoint (stabilize depth) rule branch 0 folding.sweepLimit
      let final ← edit (Forest.fingerprint branch)
      modify fun w => { w with stable := w.stable.insert branch.index final }

/-- What a run leaves behind. -/
structure Run where
  result : Except Error Unit
  forest : Forest
  events : List Event

/-- Stabilizes a branch. The store before the run bounds how deep branches can lie below one
another: every new one takes two entries out of a list of children. -/
def runWith (notesCalls : Bool) (branch : NodeRef) (f : Forest) : Run :=
  match folding.stabilize (f.size + f.linkCount) branch ⟨f, ∅, #[], notesCalls⟩ with
  | .ok () w => ⟨.ok (), w.forest, w.events.toList⟩
  | .error e w => ⟨.error e, w.forest, w.events.toList⟩

/-- Stabilizes a branch and notes the fixpoints. -/
def run (branch : NodeRef) (f : Forest) : Run := folding.runWith false branch f

/-- Stabilizes a branch and notes the calls and the fixpoints. -/
def trace (branch : NodeRef) (f : Forest) : Run := folding.runWith true branch f

end Folding

end SqlFold
