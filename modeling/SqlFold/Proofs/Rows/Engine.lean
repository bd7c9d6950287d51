import SqlFold.Folding.Basic
import SqlFold.Proofs.Store.Bare

/-!
# Runs over rows of trees

A `Row` is what a branch lists, as trees without references. `Row.settle` is a run over a row. It
does to trees what `Folding.stabilize` does to the nodes of a store, but it numbers nothing and
remembers nothing:

* a tree that a fold has just put into the row is settled inside, if it is a branch;
* a branch that a sweep meets later is settled inside once more if `again` says so, and passed over
  otherwise.

A failing step keeps the row as it was when it failed.
-/

namespace SqlFold

/-- The trees that a branch lists. -/
abbrev Row : Type := List Bare

/-- Why a run over a row fails. -/
inductive Failure where
  /-- A rule objects to a tree. -/
  | objected (objection : Objection Bare)
  /-- A rule does not come to rest within the allowed number of sweeps. -/
  | exhausted (rule : Rule) (sweeps : Nat)

/-- A failure as an error, where the tokens come from the given text. -/
def Failure.error (source : String) : Failure → Error
  | objected o => .parsing o.fault ⟨source, o.culprit.position⟩
  | exhausted rule sweeps => .violation (.sweepLimitExceeded rule sweeps)

/-- The tree with other children, if it is a branch. -/
def Tree.withRow {ι : Type} (t : Tree ι) (row : List (Tree ι)) : Tree ι :=
  .mk t.tag (t.node.withBranch row)

/-- The tree that a fold makes. -/
def Fold.tree (fold : Fold Bare) : Bare := .mk () (fold.node.map (Origin.bare id))

/-- The trees of a row after a fold. -/
def Fold.row (fold : Fold Bare) : Row := fold.left.reverse ++ fold.tree :: fold.right

namespace Row

/-- The leaves of tokens. -/
def leaves (ts : List Token) : Row := ts.map fun t => .mk () (.leaf t)

/-- A step of a run over a row. -/
abbrev Step (α : Type) : Type := EStateM Failure Row α

/-- Runs over the trees inside a tree, if it is a branch. -/
def inside (settle : Step Unit) : EStateM Failure Bare Unit := fun t =>
  match t.node.branch? with
  | none => .ok () t
  | some row =>
    match settle row with
    | .ok () row => .ok () (t.withRow row)
    | .error e row => .error e (t.withRow row)

/-- Changes the tree at an offset, if there is one. -/
def changeAt (offset : Nat) (change : EStateM Failure Bare Unit) : Step Unit := fun row =>
  match row[offset]? with
  | none => .ok () row
  | some t =>
    match change t with
    | .ok () t => .ok () (row.set offset t)
    | .error e t => .error e (row.set offset t)

/-- What is done inside the trees that a sweep passes. -/
structure Visits where
  /-- Done to a tree that a fold has put into the row. -/
  fresh : EStateM Failure Bare Unit
  /-- Done to a tree that stood there before. -/
  passed : EStateM Failure Bare Unit

/-- What is done to the tree at the given offset after a fold. -/
def Visits.after (visits : Visits) (offset : Nat) (fold : Fold Bare) :
    EStateM Failure Bare Unit :=
  if fold.left.length = offset then visits.fresh else visits.passed

/-- The rest of a sweep, behind the trees on the `left`, nearest first. It ends at the first fold
and tells whether there was one. -/
def sweepFrom (visits : Visits) (rule : Rule) (left : Row) :
    (right : Row) → EStateM.Result Failure Row Bool
  | [] => .ok false left.reverse
  | here :: right =>
    match rule.apply Tree.node ⟨left, here, right⟩ with
    | .error o => .error (.objected o) (left.reverse ++ here :: right)
    | .ok (some fold) =>
      match changeAt left.length (visits.after left.length fold) fold.row with
      | .ok () row => .ok true row
      | .error e row => .error e row
    | .ok none =>
      match visits.passed here with
      | .ok () t => sweepFrom visits rule (t :: left) right
      | .error e t => .error e (left.reverse ++ t :: right)

/-- One sweep of a rule over a row. Tells whether it changed the row by a fold. -/
def sweep (visits : Visits) (rule : Rule) : Step Bool := sweepFrom visits rule []

/-- Sweeps of a rule until one makes no fold, where `spent` sweeps were made and `left` more are
allowed. -/
def fixpoint (visits : Visits) (rule : Rule) (spent : Nat) : (left : Nat) → Step Unit
  | 0 => throw (.exhausted rule spent)
  | left + 1 => do
    if ← sweep visits rule then fixpoint visits rule (spent + 1) left else return

/-- Runs the rules of a folding, one after the other. -/
def runRules (visits : Visits) (folding : Folding) : Step Unit :=
  folding.rules.forM fun rule => fixpoint visits rule 0 folding.sweepLimit

/-- What is done inside trees by a run that settles rows by `settle`. -/
def visitsBy (again : Bool) (settle : Step Unit) : Visits where
  fresh := inside settle
  passed := if again then inside settle else return

/-- Runs all rules over a row. Branches are followed no more than `depth` levels below one another.
-/
def settle (folding : Folding) (again : Bool) : (depth : Nat) → Step Unit
  | 0 => return
  | depth + 1 => runRules (visitsBy again (settle folding again depth)) folding

end Row

end SqlFold
