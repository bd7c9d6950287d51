import Mathlib
import SqlFold.Token.Scan

/-!
# Where the entries of a vocabulary match

An entry matches at the front of a text if the text starts with it up to case, and for a word also if no word
goes on around it (`Vocabulary.matchLength?_eq_some`). The longest entry is found among those that match
(`Vocabulary.longest?_eq_some`), and only what matches counts (`Vocabulary.longest?_congr`).

Every entry of `standard` is a word of letters, or made of other characters, of which few stand behind the first
(`Vocabulary.standard_shaped`). So in a text that goes on with a blank, a comma or a closing bracket the same is
found as in the text that it was found in first.
-/

namespace SqlFold

open Text

namespace Text

/-! ## Characters -/

-- What is claimed of the characters in a list is decided for these, not for all characters there are.
instance (priority := high) decidableForallMem {p : Char → Prop} [DecidablePred p] (cs : List Char) :
    Decidable (∀ c ∈ cs, p c) :=
  List.decidableBAll p cs

instance (priority := high) decidableForallMem? {p : Char → Prop} [DecidablePred p] (c? : Option Char) :
    Decidable (∀ c ∈ c?, p c) :=
  Option.decidableForallMem c?

/-- What is so for the first 128 characters, one by one, is so for all of ASCII. -/
theorem ascii_induction {p : Char → Prop} (each : ∀ n : Fin 128, p (Char.ofNat n)) {c : Char} (ascii : c.toNat < 128) : p c := by
  have := each ⟨c.toNat, ascii⟩
  rwa [show Char.ofNat c.toNat = c from Char.ofNat_toNat c] at this

theorem ascii_of_isWordChar {c : Char} (word : isWordChar c = true) : c.toNat < 128 := by
  simp only [isWordChar, Char.isAlphanum, Char.isAlpha, Char.isUpper, Char.isLower, Char.isDigit, Bool.or_eq_true,
    Bool.and_eq_true, decide_eq_true_eq, beq_iff_eq, UInt32.le_iff_toNat_le, ge_iff_le] at word
  rcases word with ((⟨_, le⟩ | ⟨_, le⟩) | ⟨_, le⟩) | rfl
  · exact Nat.lt_of_le_of_lt le (by decide)
  · exact Nat.lt_of_le_of_lt le (by decide)
  · exact Nat.lt_of_le_of_lt le (by decide)
  · decide

theorem toUpper_of_not_ascii {c : Char} (other : ¬c.toNat < 128) : c.toUpper = c := by
  rw [Char.toUpper, dif_neg]
  rintro ⟨_, le⟩
  exact other (Nat.lt_of_le_of_lt (UInt32.le_iff_toNat_le.mp le) (by decide))

/-- Folding keeps the class of a character. -/
theorem isLetter_toUpper (c : Char) : isLetter c.toUpper = isLetter c := by
  by_cases ascii : c.toNat < 128
  · exact ascii_induction (p := fun c => isLetter c.toUpper = isLetter c) (by decide) ascii
  · rw [toUpper_of_not_ascii ascii]

theorem isWordChar_toUpper (c : Char) : isWordChar c.toUpper = isWordChar c := by
  by_cases ascii : c.toNat < 128
  · exact ascii_induction (p := fun c => isWordChar c.toUpper = isWordChar c) (by decide) ascii
  · rw [toUpper_of_not_ascii ascii]

/-- Folding changes letters only. -/
theorem toUpper_of_not_isLetter {c : Char} (other : isLetter c = false) : c.toUpper = c := by
  by_cases ascii : c.toNat < 128
  · exact ascii_induction (p := fun c => isLetter c = false → c.toUpper = c) (by decide) ascii other
  · exact toUpper_of_not_ascii ascii

theorem isWordChar_of_isLetter {c : Char} (letter : isLetter c = true) : isWordChar c = true := by
  rw [isLetter] at letter
  rw [isWordChar, Char.isAlphanum, letter]
  rfl

end Text

namespace Vocabulary

variable {vocabulary : Vocabulary} {before before' : Option Char} {text text' rest word cs : List Char} {n : Nat} {kind : TokenKind}

/-! ## Matches -/

/-- A text begins with a word up to case. -/
theorem afterWord?_eq_some : afterWord? word text = some rest ↔ ∃ cs, text = cs ++ rest ∧ cs.map Char.toUpper = word := by
  induction word generalizing text with
  | nil =>
    rw [afterWord?]
    constructor
    · rintro ⟨⟩
      exact ⟨[], rfl, rfl⟩
    · rintro ⟨cs, rfl, none⟩
      rw [List.map_eq_nil_iff.mp none, List.nil_append]
  | cons w word ih =>
    cases text with
    | nil =>
      rw [afterWord?]
      refine ⟨nofun, ?_⟩
      rintro ⟨cs, none, some⟩
      rw [(List.append_eq_nil_iff.mp none.symm).1] at some
      cases some
    | cons c text =>
      rw [afterWord?]
      constructor
      · intro found
        split at found
        · next same =>
          obtain ⟨cs, rfl, rfl⟩ := ih.mp found
          exact ⟨c :: cs, rfl, by rw [List.map_cons, same]⟩
        · cases found
      · rintro ⟨_ | ⟨d, cs⟩, split, folds⟩
        · cases folds
        · obtain ⟨rfl, rfl⟩ := List.cons.inj split
          obtain ⟨same, rfl⟩ := List.cons.inj folds
          rw [if_pos same]
          exact ih.mpr ⟨cs, rfl, rfl⟩

/-- Where an entry matches: the text begins with it up to case, and a word is not part of a longer one. -/
theorem matchLength?_eq_some : matchLength? before text word = some n ↔
    ∃ cs rest, text = cs ++ rest ∧ cs.map Char.toUpper = word ∧ cs.length = n ∧
      (word.head?.any isLetter = true → boundary before rest.head? = true) := by
  rw [matchLength?]
  constructor
  · intro found
    cases after : afterWord? word text with
    | none => rw [after] at found; cases found
    | some rest =>
      rw [after] at found
      obtain ⟨cs, split, rfl⟩ := afterWord?_eq_some.mp after
      dsimp only at found
      split at found
      · next ends =>
        cases found
        refine ⟨cs, rest, split, rfl, (List.length_map ..).symm, fun letter => ?_⟩
        rwa [letter, Bool.not_true, Bool.false_or] at ends
      · cases found
  · rintro ⟨cs, rest, split, rfl, rfl, ends⟩
    rw [afterWord?_eq_some.mpr ⟨cs, split, rfl⟩]
    dsimp only
    rw [List.length_map, if_pos]
    cases letter : (cs.map Char.toUpper).head?.any isLetter with
    | false => rfl
    | true => exact ends letter

theorem longer_eq_none {m m' : Option (Nat × TokenKind)} : longer m m' = none ↔ m = none ∧ m' = none := by
  unfold longer
  split
  · exact ⟨fun none => ⟨rfl, none⟩, And.right⟩
  · exact ⟨fun none => ⟨none, rfl⟩, And.left⟩
  · next m m' =>
    refine ⟨fun none => ?_, fun none => nomatch none.1⟩
    split at none <;> cases none

/-- The longer of two matches is one of them, and neither is longer. -/
theorem longer_eq_some {a b : Option (Nat × TokenKind)} {m : Nat × TokenKind} (found : longer a b = some m) :
    (a = some m ∨ b = some m) ∧ ∀ k, a = some k ∨ b = some k → k.1 ≤ m.1 := by
  unfold longer at found
  split at found
  · subst found
    exact ⟨.inr rfl, by rintro k (none | same); cases none; cases same; exact Nat.le_refl _⟩
  · subst found
    exact ⟨.inl rfl, by rintro k (same | none); cases same; exact Nat.le_refl _; cases none⟩
  · split at found
    · next le =>
      cases found
      exact ⟨.inr rfl, by rintro k (same | same) <;> cases same; exact le; exact Nat.le_refl _⟩
    · next more =>
      cases found
      exact ⟨.inl rfl, by rintro k (same | same) <;> cases same; exact Nat.le_refl _; exact Nat.le_of_not_le more⟩

/-- The longest of several matches is one of them, and none of them is longer. -/
theorem foldl_longer {ms : List (Option (Nat × TokenKind))} {first : Option (Nat × TokenKind)} {m : Nat × TokenKind}
    (found : ms.foldl longer first = some m) :
    (first = some m ∨ some m ∈ ms) ∧ ∀ k, first = some k ∨ some k ∈ ms → k.1 ≤ m.1 := by
  induction ms generalizing first with
  | nil => exact ⟨.inl found, by rintro k (same | none); cases same.symm.trans found; exact Nat.le_refl _; cases none⟩
  | cons a ms ih =>
    obtain ⟨among, longest⟩ := ih found
    constructor
    · rcases among with here | later
      · exact (longer_eq_some here).1.imp_right fun same => List.mem_cons.mpr (.inl same.symm)
      · exact .inr (List.mem_cons_of_mem _ later)
    · intro k listed
      rw [List.mem_cons, ← or_assoc, eq_comm (b := a)] at listed
      rcases listed with here | later
      · cases best : longer first a with
        | none =>
          obtain ⟨rfl, rfl⟩ := longer_eq_none.mp best
          rcases here with none | none <;> cases none
        | some b => exact Nat.le_trans ((longer_eq_some best).2 k here) (longest b (.inl best))
      · exact longest k (.inr later)

theorem foldl_longer_eq_none {ms : List (Option (Nat × TokenKind))} {first : Option (Nat × TokenKind)} :
    ms.foldl longer first = none ↔ first = none ∧ ∀ m ∈ ms, m = none := by
  induction ms generalizing first with
  | nil => simp
  | cons m ms ih => rw [List.foldl_cons, ih, longer_eq_none, List.forall_mem_cons, and_assoc]

/-- The longest match is one of an entry, and no entry matches more. -/
theorem longest?_eq_some (found : vocabulary.longest? before text = some (n, kind)) :
    (∃ e ∈ vocabulary.entries, matchLength? before text e.1.toList = some n ∧ e.2 = kind) ∧
      ∀ e ∈ vocabulary.entries, ∀ m, matchLength? before text e.1.toList = some m → m ≤ n := by
  obtain ⟨among, longest⟩ := foldl_longer found
  constructor
  · obtain ⟨⟨w, k⟩, mem, matched⟩ := List.mem_map.mp (among.resolve_left nofun)
    obtain ⟨m, here, same⟩ := Option.map_eq_some_iff.mp matched
    obtain ⟨rfl, rfl⟩ := Prod.mk.inj same
    exact ⟨(w, k), mem, here, rfl⟩
  · intro e mem m matched
    refine longest (m, e.2) (.inr (List.mem_map.mpr ⟨e, mem, ?_⟩))
    exact Option.map_eq_some_iff.mpr ⟨m, matched, rfl⟩

/-- There is no longest match where no entry matches. -/
theorem longest?_eq_none :
    vocabulary.longest? before text = none ↔ ∀ e ∈ vocabulary.entries, matchLength? before text e.1.toList = none := by
  rw [longest?, foldl_longer_eq_none]
  constructor
  · rintro ⟨_, all⟩ e mem
    exact Option.map_eq_none_iff.mp (all _ (List.mem_map.mpr ⟨e, mem, rfl⟩))
  · refine fun all => ⟨rfl, fun m listed => ?_⟩
    obtain ⟨e, mem, rfl⟩ := List.mem_map.mp listed
    exact Option.map_eq_none_iff.mpr (all e mem)

/-- There is no match at a character that no entry begins with. -/
theorem longest?_of_head {c : Char} (heads : ∀ e ∈ vocabulary.entries, e.1 ≠ "" ∧ e.1.toList.head? ≠ some c.toUpper) :
    vocabulary.longest? before (c :: text) = none := by
  rw [longest?_eq_none]
  intro e mem
  obtain ⟨nonempty, other⟩ := heads e mem
  rw [Option.eq_none_iff_forall_ne_some]
  intro n matched
  obtain ⟨ds, after, split, folds, _⟩ := matchLength?_eq_some.mp matched
  cases ds with
  | nil => exact nonempty (String.toList_inj.mp folds.symm)
  | cons d ds =>
    obtain ⟨rfl, _⟩ := List.cons.inj split
    apply other
    rw [← folds, List.map_cons, List.head?_cons]

/-- The longest match depends on the matches of the entries only. -/
theorem longest?_congr
    (same : ∀ e ∈ vocabulary.entries, matchLength? before text e.1.toList = matchLength? before' text' e.1.toList) :
    vocabulary.longest? before text = vocabulary.longest? before' text' := by
  rw [longest?, longest?]
  congr 1
  exact List.map_congr_left fun ⟨w, k⟩ mem => congrArg (Option.map (·, k)) (same (w, k) mem)

/-! ## Shapes of entries -/

/-- The characters that stand behind the first one of an operator. -/
def operatorTail : List Char := ['=', '>', '|']

/-- The characters that operators of more than one character start with. -/
def operatorHeads : List Char := ['!', '<', '>', '|']

/-- How the entries of `standard` look: words of letters, operators and marks. -/
def Shaped (word : List Char) : Prop :=
  word ≠ [] ∧ ((∀ c ∈ word, isLetter c = true) ∨
    (∀ c ∈ word, isWordChar c = false) ∧ (∀ c ∈ word.tail, c ∈ operatorTail ∧ ∀ d ∈ word.head?, d ∈ operatorHeads))

instance (word : List Char) : Decidable (Shaped word) := inferInstanceAs (Decidable (_ ∧ _))

theorem standard_shaped : ∀ e ∈ standard.entries, Shaped e.1.toList := by
  rw [standard_entries]
  decide

theorem isWordChar_of_map_toUpper {cs word : List Char} (folds : cs.map Char.toUpper = word)
    (letters : ∀ c ∈ word, isLetter c = true) : ∀ c ∈ cs, isWordChar c = true := by
  subst folds
  rw [List.forall_mem_map] at letters
  exact fun c mem => isWordChar_of_isLetter ((isLetter_toUpper c).symm.trans (letters c mem))

/-- An entry matches a word of a text only as a whole. -/
theorem matchLength?_word (shaped : Shaped word) (some : cs ≠ []) (inside : ∀ c ∈ cs, isWordChar c = true)
    (first : before.any isWordChar = false) (last : rest.head?.any isWordChar = false) :
    matchLength? before (cs ++ rest) word = if cs.map Char.toUpper = word then .some cs.length else none := by
  obtain ⟨nonempty, letters | ⟨other, _⟩⟩ := shaped
  · ext n
    rw [matchLength?_eq_some]
    constructor
    · rintro ⟨ds, after, split, folds, rfl, ends⟩
      have inside' := isWordChar_of_map_toUpper folds letters
      have ends : after.head?.any isWordChar = false := by
        have letter : word.head?.any isLetter = true := by
          cases word with
          | nil => exact absurd rfl nonempty
          | cons w word => exact letters w List.mem_cons_self
        have := ends letter
        rw [boundary, Bool.and_eq_true, Bool.not_eq_true', Bool.not_eq_true'] at this
        exact this.2
      have stops {as bs cs : List Char} (split : as = bs ++ cs) (inside : ∀ c ∈ bs, isWordChar c = true)
          (ends : as.head?.any isWordChar = false) : bs = [] := by
        cases bs with
        | nil => rfl
        | cons b bs =>
          rw [split] at ends
          exact Bool.noConfusion ((inside b List.mem_cons_self).symm.trans ends)
      obtain rfl : ds = cs := by
        rcases List.append_eq_append_iff.mp split with ⟨as, rfl, here⟩ | ⟨as, rfl, here⟩
        · rw [stops here (fun c mem => inside' c (List.mem_append_right _ mem)) last, List.append_nil]
        · rw [stops here (fun c mem => inside c (List.mem_append_right _ mem)) ends, List.append_nil]
      rw [if_pos folds]
    · intro found
      split at found
      · next folds =>
        cases found
        exact ⟨cs, rest, rfl, folds, rfl, fun _ => by rw [boundary, first, last]; rfl⟩
      · cases found
  · -- The first character of a word begins no operator.
    have head {ds after : List Char} (split : cs ++ rest = ds ++ after) (folds : ds.map Char.toUpper = word) : False := by
      cases cs with
      | nil => exact some rfl
      | cons c cs =>
        cases ds with
        | nil => exact nonempty folds.symm
        | cons d ds =>
          obtain ⟨rfl, _⟩ := List.cons.inj split
          have same := other c.toUpper (by rw [← folds]; exact List.mem_cons_self)
          rw [isWordChar_toUpper, inside c List.mem_cons_self] at same
          cases same
    rw [if_neg fun folds => head rfl folds, Option.eq_none_iff_forall_ne_some]
    intro n matched
    obtain ⟨ds, after, split, folds, _⟩ := matchLength?_eq_some.mp matched
    exact head split folds

/-- At an operator the entries match that it begins with, if none of the longer ones does. -/
theorem matchLength?_operator {c : Char} (shaped : Shaped word) (other : isWordChar c = false)
    (longest : ∀ n, matchLength? before (c :: cs ++ rest) word = some n → n ≤ (c :: cs).length) :
    matchLength? before (c :: cs ++ rest) word =
      if word <+: (c :: cs).map Char.toUpper then some word.length else none := by
  have noLetter : isLetter c.toUpper = false := by
    rw [isLetter_toUpper]
    exact Bool.eq_false_iff.mpr fun letter => Bool.noConfusion ((isWordChar_of_isLetter letter).symm.trans other)
  ext n
  constructor
  · intro matched
    have short := longest n matched
    obtain ⟨ds, after, split, rfl, rfl, _⟩ := matchLength?_eq_some.mp matched
    have front : ds <+: c :: cs := List.prefix_of_prefix_length_le ⟨after, split.symm⟩ (List.prefix_append _ _) short
    rw [if_pos (front.map _), List.length_map]
  · intro found
    split at found
    · next front =>
      cases found
      obtain ⟨more, split⟩ := front
      obtain ⟨ds, es, whole, rfl, rfl⟩ := List.map_eq_append_iff.mp split.symm
      refine matchLength?_eq_some.mpr ⟨ds, es ++ rest, by rw [whole, List.append_assoc], rfl, (List.length_map ..).symm, ?_⟩
      intro letter
      cases ds with
      | nil => cases letter
      | cons d ds =>
        obtain ⟨rfl, _⟩ := List.cons.inj whole
        exact Bool.noConfusion (letter.symm.trans noLetter)
    · cases found

/-- No entry reaches from an operator into what is behind it, unless they look like parts of a longer operator. -/
theorem length_le_of_matches {c : Char} (shaped : Shaped word) (other : isWordChar c = false)
    (apart : c ∉ operatorHeads ∨ ∀ d ∈ rest.head?, d ∉ operatorTail)
    (matched : matchLength? before (c :: cs ++ rest) word = some n) : n ≤ (c :: cs).length := by
  obtain ⟨ds, after, split, rfl, rfl, _⟩ := matchLength?_eq_some.mp matched
  refine Nat.le_of_not_lt fun more => ?_
  rcases List.append_eq_append_iff.mp split with ⟨as, rfl, rfl⟩ | ⟨as, whole, _⟩
  · cases as with
    | nil => simp at more
    | cons a as =>
      rw [List.cons_append, List.map_cons, List.map_append, List.map_cons] at shaped
      obtain ⟨_, letters | ⟨others, tail⟩⟩ := shaped
      · have letter := letters c.toUpper List.mem_cons_self
        rw [isLetter_toUpper] at letter
        exact Bool.noConfusion ((isWordChar_of_isLetter letter).symm.trans other)
      · have same {d : Char} (notWord : isWordChar d = false) : d.toUpper = d := by
          refine toUpper_of_not_isLetter (Bool.eq_false_iff.mpr fun letter => ?_)
          exact Bool.noConfusion ((isWordChar_of_isLetter letter).symm.trans notWord)
        have inside := others a.toUpper (by simp)
        rw [isWordChar_toUpper] at inside
        obtain ⟨behind, heads⟩ := tail a.toUpper (by simp)
        rw [same inside] at behind
        have head := heads c.toUpper rfl
        rw [same other] at head
        rcases apart with noHead | noTail
        · exact noHead head
        · exact noTail a rfl behind
  · rw [whole, List.length_append] at more
    omega

/-- The characters that no entry of `standard` begins with, apart from digits. -/
def foreignHeads : List Char := ['\x27', '"', '\x60', '?', ':']

/-- No entry of `standard` begins with a digit, a quote, a question mark or a colon. -/
theorem standard_heads : ∀ e ∈ standard.entries, ∀ c ∈ e.1.toList.head?, c.isDigit = false ∧ c ∉ foreignHeads := by
  rw [standard_entries]
  decide

/-- So there is no entry where such a character stands. -/
theorem standard_longest?_of_head {c : Char} (head : c.isDigit = true ∨ c ∈ foreignHeads) :
    standard.longest? before (c :: text) = none := by
  have same : c.toUpper = c := by
    rcases head with digit | foreign
    · refine toUpper_of_not_isLetter ?_
      have word : isWordChar c = true := by simp [isWordChar, Char.isAlphanum, digit]
      exact ascii_induction (p := fun c => c.isDigit = true → isLetter c = false) (by decide) (ascii_of_isWordChar word) digit
    · revert c
      decide
  refine longest?_of_head fun e mem => ⟨fun empty => ?_, fun first => ?_⟩
  · exact (standard_shaped e mem).1 (congrArg String.toList empty)
  · obtain ⟨noDigit, noForeign⟩ := standard_heads e mem c (by rw [first, same]; rfl)
    rcases head with digit | foreign
    · exact Bool.noConfusion (digit.symm.trans noDigit)
    · exact noForeign foreign

/-! ## The same entry in another place -/

/-- The same entry is found at a word, wherever it stands apart from other words. -/
theorem standard_longest?_word {rest' : List Char} (some : cs ≠ []) (inside : ∀ c ∈ cs, isWordChar c = true)
    (first : before.any isWordChar = false) (last : rest.head?.any isWordChar = false)
    (first' : before'.any isWordChar = false) (last' : rest'.head?.any isWordChar = false) :
    standard.longest? before (cs ++ rest) = standard.longest? before' (cs ++ rest') :=
  longest?_congr fun e mem => by
    rw [matchLength?_word (standard_shaped e mem) some inside first last,
      matchLength?_word (standard_shaped e mem) some inside first' last']

/-- An operator is found again, wherever it is not part of a longer one. -/
theorem standard_longest?_operator {rest' : List Char} {c : Char} (other : isWordChar c = false)
    (found : standard.longest? before (c :: cs ++ rest) = some ((c :: cs).length, kind))
    (apart : c ∉ operatorHeads ∨ ∀ d ∈ rest'.head?, d ∉ operatorTail) :
    standard.longest? before' (c :: cs ++ rest') = some ((c :: cs).length, kind) := by
  rw [← found]
  refine longest?_congr fun e mem => ?_
  have shaped := standard_shaped e mem
  rw [matchLength?_operator shaped other fun n => (longest?_eq_some found).2 e mem n,
    matchLength?_operator shaped other fun n => length_le_of_matches shaped other apart]

end Vocabulary

end SqlFold
