import SqlFold.Forest.Edit
import SqlFold.Tree.Hash

/-!
# Remembered fingerprints

`Forest.fingerprint` computes the fingerprint of a node and remembers it in the record, as it does
for every node below whose fingerprint it needs. A remembered fingerprint is given again until a
splice below forgets it. `Forest.hash` is the number of 64 bits that `H` makes of it.
-/

namespace SqlFold.Forest

/-- The fingerprint of a node, no more than `n` levels deep. -/
def fingerprintWithin : Nat → NodeRef → Edit Fingerprint
  | 0, r => return (Tree.mk r (.root [])).fingerprint
  | n + 1, r => do
    let f ← get
    match f.cache? r with
    | some known => return known
    | none =>
      let layer ← (f.node r).mapM (fingerprintWithin n)
      let computed := Fingerprint.layer layer
      modify (·.withCache r (some computed))
      return computed

/-- The fingerprint of a node, remembered for the next time. -/
def fingerprint (r : NodeRef) : Edit Fingerprint := do
  fingerprintWithin (← get).size r

/-- The hash of a node, which changes the store as asking for its fingerprint does. -/
def hash (H : List UInt8 → UInt64) (r : NodeRef) : Edit UInt64 := do
  return (← fingerprint r).hash H

end SqlFold.Forest
