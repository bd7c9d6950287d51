import SqlFold.Forest.Basic
import SqlFold.Token.Script

/-!
# Editing the store

An `Edit` changes a forest and may fail; a failing edit keeps what it changed before it failed.

* `pushLeaf` adds a leaf to the root while the store is in the lexing stage;
* `insert` puts a node into a new record and makes it the parent of its sub-nodes;
* `replace` splices one node into a branch in the place of a run of children;
* `substitute` puts one node in the place of another, wherever its parent lists it.

A splice forgets the fingerprints of the branch and of everything above it.
-/

namespace SqlFold

/-- A change of a forest that may fail. -/
abbrev Edit (α : Type) : Type := EStateM Violation Forest α

namespace Forest

/-- The store with another parent for a node. -/
def withParent (f : Forest) (r : NodeRef) (parent : Option NodeRef) : Forest :=
  { f with records := f.records.modify r.index ({ · with parent }) }

/-- The store with another node in a record. -/
def withNode (f : Forest) (r : NodeRef) (node : Node NodeRef) : Forest :=
  { f with records := f.records.modify r.index ({ · with node }) }

/-- The store with another remembered fingerprint for a node. -/
def withCache (f : Forest) (r : NodeRef) (cache : Option Fingerprint) : Forest :=
  { f with records := f.records.modify r.index ({ · with cache }) }

/-- Forgets the fingerprints of a node and of everything above it. -/
def forget (f : Forest) (r : NodeRef) : Forest :=
  (r :: f.ancestors r).foldl (·.withCache · none) f

/-- The store with a node in a new record, as the parent of its sub-nodes. -/
def inserted (f : Forest) (node : Node NodeRef) : Forest :=
  let r : NodeRef := ⟨f.size⟩
  let f := node.children.foldl (·.withParent · (some r)) f
  { f with records := f.records.push ⟨node, none, none⟩ }

/-- Puts a node into a new record and makes it the parent of its sub-nodes. -/
def insert (node : Node NodeRef) : Edit NodeRef :=
  modifyGet fun f => (⟨f.size⟩, f.inserted node)

/-- The store with one more leaf under the root. -/
def withLeaf (f : Forest) (token : Token) : Forest :=
  let r : NodeRef := ⟨f.size⟩
  let f := (f.inserted (.leaf token)).withParent r (some root)
  (f.withNode root ((f.node root).withBranch (f.childList root ++ [r]))).forget root

/-- Adds a leaf to the root. -/
def pushLeaf (token : Token) : Edit NodeRef := do
  let f ← get
  if f.stage = .lexing then
    set (f.withLeaf token)
    return ⟨f.size⟩
  else throw (.wrongStage .pushLeaf f.stage)

/-- Opens the parsing stage. -/
def finishLexing (f : Forest) : Forest := { f with stage := .parsing }

/-- The store with one leaf per significant token of a script, open for parsing. -/
def ofScript (script : Script) : Forest :=
  (script.significant.foldl withLeaf (empty script.source)).finishLexing

/-- Takes the link to `branch` away from a node. -/
def detached (f : Forest) (branch r : NodeRef) : Forest :=
  if f.parent? r = some branch then f.withParent r none else f

/-- The store with `new` in the place of `length` of the children of a branch. -/
def spliced (f : Forest) (branch : NodeRef) (children : List NodeRef) (offset length : Nat)
    (new : NodeRef) : Forest :=
  let removed := (children.drop offset).take length
  let kept := children.take offset ++ new :: children.drop (offset + length)
  let f := f.withNode branch ((f.node branch).withBranch kept)
  let f := removed.foldl (·.detached branch ·) f
  (f.withParent new (some branch)).forget branch

/-- Replaces `length` children of a branch by one node. The range may start right after the last
child and may reach one past it. -/
def replace (branch : NodeRef) (offset length : Nat) (new : NodeRef) : Edit Unit := do
  let f ← get
  if f.stage = .parsing then
    match (f.node branch).branch? with
    | none => throw (.notABranch (f.kind branch))
    | some children =>
      if offset ≤ children.length ∧ offset + length ≤ children.length + 1 then
        set (f.spliced branch children offset length new)
      else throw (.outOfRange offset length children.length)
  else throw (.wrongStage .replace f.stage)

/-- The store with `new` in every place where the composite node `parent` lists `old`. -/
def substituted (f : Forest) (parent old new : NodeRef) : Forest :=
  let node := (f.node parent).map fun r => if r = old then new else r
  (((f.withNode parent node).withParent old none).withParent new (some parent)).forget parent

/-- Puts `new` in the place of `old` in the node that lists it. -/
def substitute (old new : NodeRef) : Edit Unit := do
  let f ← get
  match f.parent? old with
  | none => throw (.detached (f.kind old))
  | some parent =>
    match (f.childList parent).idxOf? old with
    | some offset => replace parent offset 1 new
    | none =>
      if f.stage = .parsing then
        if old ∈ f.children parent then set (f.substituted parent old new)
        else throw (.detached (f.kind old))
      else throw (.wrongStage .substitute f.stage)

end Forest

end SqlFold
