import SqlFold.Digest
import SqlFold.Tree.Basic

/-!
# Fingerprints

The fingerprint of a node is made from its kind, the kind and lexeme of every token, the presence of
every optional part and the fingerprints of the sub-nodes, and from nothing else: positions do not
enter it, so equal statements have equal fingerprints wherever they stand.

`Fingerprint.layer` is the fingerprint of one layer, `Tree.fingerprint` that of a tree.

Nodes may share sub-nodes, and so do their fingerprints, which then are far larger on paper than in
memory. Fingerprints are compared in a time that grows with their size in memory: those with
different digests differ, those that are one object are equal, and for all others equal parts are
first made one object.
-/

namespace SqlFold

/-- A part of a node that is no sub-node, without its place. -/
inductive Detail where
  | token (kind : TokenKind) (lexeme : String)
  | absent
  | mark (flag : Bool)
  deriving DecidableEq

/-- The digest of a part. -/
def Detail.digest : Detail → UInt64
  | token kind lexeme => Digest.mix (Digest.ofString lexeme) kind.ctorIdx.toUInt64
  | absent => 1
  | mark flag => if flag then 2 else 3

/-- The parts of a node, one after the other. -/
inductive Sketch where
  | stop
  | detail (part : Detail) (rest : Sketch)
  | child (kind : NodeKind) (inner rest : Sketch)
with
  /-- The digest of the parts. -/
  @[computed_field] digest : Sketch → UInt64
    | .stop => 0
    | .detail part rest => Digest.mix part.digest rest.digest
    | .child kind inner rest =>
      Digest.mix (Digest.mix inner.digest kind.ctorIdx.toUInt64) rest.digest

namespace Sketch

/-- Compares part by part and does not look into what is one object on both sides. -/
def compareParts : (a b : Sketch) → Decidable (a = b)
  | stop, stop => isTrue rfl
  | detail p r, detail p' r' =>
    if parts : p = p' then
      match withPtrEqDecEq r r' fun _ => compareParts r r' with
      | isTrue rests => isTrue (by rw [parts, rests])
      | isFalse rests => isFalse fun h => rests (detail.inj h).2
    else isFalse fun h => parts (detail.inj h).1
  | child k i r, child k' i' r' =>
    if kinds : k = k' then
      match withPtrEqDecEq i i' fun _ => compareParts i i' with
      | isTrue inners =>
        match withPtrEqDecEq r r' fun _ => compareParts r r' with
        | isTrue rests => isTrue (by rw [kinds, inners, rests])
        | isFalse rests => isFalse fun h => rests (child.inj h).2.2
      | isFalse inners => isFalse fun h => inners (child.inj h).2.1
    else isFalse fun h => kinds (child.inj h).1
  | stop, detail .. | stop, child .. | detail .., stop | detail .., child .. | child .., stop
  | child .., detail .. => isFalse nofun

/-- Compares digests first and makes equal parts one object before parts are compared. -/
def compare (a b : Sketch) : Decidable (a = b) :=
  withPtrEqDecEq a b fun _ =>
    if digests : a.digest = b.digest then
      let shared := ShareCommon.shareCommon' (a, b)
      compareParts shared.1 shared.2
    else isFalse fun h => digests (congrArg digest h)

instance : DecidableEq Sketch := compare

end Sketch

/-- What two nodes share exactly when they look alike. -/
structure Fingerprint where
  kind : NodeKind
  parts : Sketch
  deriving DecidableEq

namespace Fingerprint

/-- The sketch of a list of parts whose sub-nodes are given by their fingerprints. -/
def sketch : List (Part Fingerprint) → Sketch
  | [] => .stop
  | .token t :: rest => .detail (.token t.kind t.lexeme) (sketch rest)
  | .child c :: rest => .child c.kind c.parts (sketch rest)
  | .absent :: rest => .detail .absent (sketch rest)
  | .mark flag :: rest => .detail (.mark flag) (sketch rest)

/-- The fingerprint of a layer whose sub-nodes are given by their fingerprints. -/
def layer (n : Node Fingerprint) : Fingerprint := ⟨n.kind, sketch n.parts⟩

end Fingerprint

variable {ι : Type}

/-- The fingerprint of a tree. -/
def Tree.fingerprint : Tree ι → Fingerprint :=
  fold fun _ n => Fingerprint.layer (n.map Prod.snd)

/-- The fingerprint of a tree is that of its layer. -/
theorem Tree.fingerprint_mk (tag : ι) (n : Node (Tree ι)) :
    (Tree.mk tag n).fingerprint = Fingerprint.layer (n.map Tree.fingerprint) := by
  simp [Tree.fingerprint, fold_mk, Node.map_map, Function.comp_def]

end SqlFold
