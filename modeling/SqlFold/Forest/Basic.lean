import SqlFold.Error
import SqlFold.Tree.Fingerprint

/-!
# The store of nodes

A `Forest` holds nodes in numbered records. A node names its sub-nodes by `NodeRef`, and every
record has a link to the node that lists it. Record zero is the root branch. Nodes that were spliced
out of a branch stay in their records without such a link.

* `Forest.node` and `Forest.parent?` read a record;
* `Forest.ancestors` follows the links upwards;
* `Forest.tree` reads the tree under a node, tagged with the references of its nodes;
* `Forest.position` is the place of a node, found without reading the tree;
* `Forest.statements` are the children of the root that are no separators.

A record also remembers the fingerprint of its node, once it was asked for.
-/

namespace SqlFold

open Text

/-- The number of a record. -/
structure NodeRef where
  index : Nat
  deriving DecidableEq, Hashable, Inhabited

/-- A node in its place. -/
structure Record where
  node : Node NodeRef
  /-- The node that lists this one. -/
  parent : Option NodeRef
  /-- The fingerprint that was computed last, unless the node has changed since. -/
  cache : Option Fingerprint

/-- The records, the text that the tokens come from and the stage of the store. -/
structure Forest where
  records : Array Record
  source : String
  stage : Stage

namespace Forest

/-- The reference of the root. -/
def root : NodeRef := ⟨0⟩

/-- The store with an empty root, which waits for tokens. -/
def empty (source : String) : Forest := ⟨#[⟨.root [], none, none⟩], source, .lexing⟩

variable (f : Forest)

/-- The number of records. -/
def size : Nat := f.records.size

/-- The number of places where a node lists a sub-node. -/
def linkCount : Nat := f.records.foldl (fun n r => n + r.node.children.length) 0

/-- The record of a reference. -/
def record? (r : NodeRef) : Option Record := f.records[r.index]?

/-- The node of a reference; an empty root where there is none. -/
def node (r : NodeRef) : Node NodeRef := ((f.record? r).map Record.node).getD (.root [])

/-- The kind of a node. -/
def kind (r : NodeRef) : NodeKind := (f.node r).kind

/-- The node that lists a node. -/
def parent? (r : NodeRef) : Option NodeRef := (f.record? r).bind Record.parent

/-- The fingerprint that a record remembers. -/
def cache? (r : NodeRef) : Option Fingerprint := (f.record? r).bind Record.cache

/-- The sub-nodes of a node. -/
def children (r : NodeRef) : List NodeRef := (f.node r).children

/-- The children of a branch, and none for another node. -/
def childList (r : NodeRef) : List NodeRef := (f.node r).branch?.getD []

/-- The first `n` nodes on the way up from a node. -/
def ancestorsWithin : Nat → NodeRef → List NodeRef
  | 0, _ => []
  | n + 1, r =>
    match f.parent? r with
    | none => []
    | some p => p :: ancestorsWithin n p

/-- The nodes on the way up from a node, nearest first. -/
def ancestors (r : NodeRef) : List NodeRef := f.ancestorsWithin f.size r

/-- The uppermost `n` levels of the tree under a node. -/
def treeWithin : Nat → NodeRef → Tree NodeRef
  | 0, r => .mk r (.root [])
  | n + 1, r => .mk r ((f.node r).map (treeWithin n))

/-- The tree under a node, which has no more levels than there are records. -/
def tree (r : NodeRef) : Tree NodeRef := f.treeWithin f.size r

/-- The first token in the uppermost `n` levels under a node. -/
def leadingTokenWithin : Nat → NodeRef → Option Token
  | 0, _ => none
  | n + 1, r => (f.node r).leadingToken? (leadingTokenWithin n)

/-- The first token under a node is the first token of the tree under it. -/
theorem leadingTokenWithin_eq (n : Nat) (r : NodeRef) :
    f.leadingTokenWithin n r = (f.treeWithin n r).leadingToken? := by
  induction n generalizing r with
  | zero => rfl
  | succ n ih =>
    rw [leadingTokenWithin, treeWithin, Tree.leadingToken?_mk, Node.leadingToken?_map]
    congr 1
    exact funext ih

/-- The place of the first token under a node, and the start of the text where there is none. -/
def position (r : NodeRef) : Position :=
  ((f.leadingTokenWithin f.size r).map (·.position)).getD .start

/-- The place of a node is that of the tree under it. -/
theorem position_eq (r : NodeRef) : f.position r = (f.tree r).position := by
  rw [position, leadingTokenWithin_eq]
  rfl

/-- A fault at a node as an error. -/
def locate (r : NodeRef) (fault : Fault) : Error := .parsing fault ⟨f.source, f.position r⟩

/-- The statements: the children of the root without the semicolons. -/
def statements : List NodeRef :=
  (f.childList root).filter fun r => (f.node r).tokenKind? != some .semicolon

end Forest

end SqlFold
