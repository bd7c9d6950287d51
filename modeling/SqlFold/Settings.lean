import SqlFold.Directory
import SqlFold.Dialect

/-!
# Settings

`Settings` add words to the vocabulary of SQL and set the limit on sweeps. `Settings.dialect` is the
dialect that they describe.
-/

namespace SqlFold

/-- What can be set about a dialect. -/
structure Settings where
  /-- Further words and operators, which are added in the order of their texts. -/
  keywords : Directory TokenKind
  /-- The limit on the sweeps of one rule over one branch. -/
  sweepLimit : Nat

namespace Settings

/-- No further words and the standard limit. -/
def standard : Settings := ⟨.empty, Folding.standardLimit⟩

/-- The vocabulary of SQL with the further words. -/
def vocabulary (s : Settings) : Vocabulary := Vocabulary.standard.withEntries s.keywords.entries

theorem vocabulary_eq (s : Settings) :
    s.vocabulary = (⟨Vocabulary.standardEntries⟩ : Vocabulary).withEntries s.keywords.entries := by
  rw [vocabulary, Vocabulary.standard_eq]

/-- The dialect with these settings and all rules. -/
def dialect (s : Settings) : Dialect := ⟨s.vocabulary, .standard s.sweepLimit⟩

end Settings

end SqlFold
