/-!
# Digests

A digest is a number of 64 bits that is computed from a value. Different values have different
digests as a rule but not always, so a digest can only tell that two values differ.

`Digest.mix` joins two digests in order, `Digest.ofString` digests a text.
-/

namespace SqlFold.Digest

/-- The digest of a pair, from the digests of its parts. -/
def mix (a b : UInt64) : UInt64 :=
  let product := (a + 0x9E3779B97F4A7C15 ^^^ b) * 0xBF58476D1CE4E5B9
  product ^^^ (product >>> 31)

/-- The digest of a text. -/
def ofString (s : String) : UInt64 := s.toList.foldl (fun digest c => mix digest c.val.toUInt64) 0

end SqlFold.Digest
