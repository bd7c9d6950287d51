import SqlFold.Tree.Fingerprint

/-!
# Hashes

The hash of a node is a number of 64 bits. It is what a function `H` makes of a message: the name of
the kind of the node, then its parts, each with a letter that says what it is. A token enters with
the name of its kind, a zero, the length of its lexeme and the lexeme; a sub-node enters with its
hash. Numbers are written in eight bytes, the lowest first.

`Fingerprint.hash` is the hash of what has a fingerprint, and `Fingerprint.hash_layer` says how it is
made from the hashes of the sub-nodes.
-/

namespace SqlFold

/-- The bytes of a text. -/
def Text.bytes (s : String) : List UInt8 := s.toUTF8.data.toList

/-- The lowest `w` bytes of a number, from the lowest up. -/
def littleEndian : Nat → Nat → List UInt8
  | 0, _ => []
  | w + 1, n => UInt8.ofNat n :: littleEndian w (n / 256)

/-- The bytes of a part that is no sub-node. -/
def Detail.bytes : Detail → List UInt8
  | token kind lexeme =>
    'T'.toUInt8 :: Text.bytes kind.name
      ++ 0 :: littleEndian 8 lexeme.utf8ByteSize ++ Text.bytes lexeme
  | absent => ['-'.toUInt8]
  | mark flag => ['|'.toUInt8, if flag then 1 else 0]

/-- The bytes of a sub-node with the given hash. -/
def childBytes (hash : UInt64) : List UInt8 := 'N'.toUInt8 :: littleEndian 8 hash.toNat

/-- The bytes of a part of a layer whose sub-nodes are given by their hashes. -/
def Part.bytes : Part UInt64 → List UInt8
  | .token t => (Detail.token t.kind t.lexeme).bytes
  | .child hash => childBytes hash
  | .absent => Detail.absent.bytes
  | .mark flag => (Detail.mark flag).bytes

section

variable (H : List UInt8 → UInt64)

/-- The bytes of the parts, one after the other. -/
def Sketch.bytes : Sketch → List UInt8
  | stop => []
  | detail part rest => part.bytes ++ rest.bytes
  | child kind inner rest => childBytes (H (Text.bytes kind.name ++ inner.bytes)) ++ rest.bytes

namespace Fingerprint

/-- The message of a node. -/
def message (p : Fingerprint) : List UInt8 := Text.bytes p.kind.name ++ p.parts.bytes H

/-- The hash of a node. -/
def hash (p : Fingerprint) : UInt64 := H (p.message H)

/-- The parts are written in order, the sub-nodes with their hashes. -/
theorem bytes_sketch (ps : List (Part Fingerprint)) :
    (sketch ps).bytes H = (ps.map (Part.map (hash H))).flatMap Part.bytes := by
  induction ps with
  | nil => rfl
  | cons p ps ih => cases p <;> exact congrArg (_ ++ ·) ih

/-- The hash of a layer is made from the name of its kind and from its parts. -/
theorem hash_layer (n : Node Fingerprint) :
    (layer n).hash H = H (Text.bytes n.kind.name ++ (n.map (hash H)).parts.flatMap Part.bytes) := by
  rw [hash, message, layer, bytes_sketch, Node.parts_map]

end Fingerprint

end

end SqlFold
