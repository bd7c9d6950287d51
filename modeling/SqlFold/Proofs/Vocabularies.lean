import SqlFold.Directory
import SqlFold.Proofs.Lexing.Words

/-!
# Matching is looking up

A vocabulary that was put together by insertions has one entry for each word, in upper case (`Vocabulary.Folded`). So
where several of its entries match, each does so with a different part of the text, and this part is looked up under
its own name. The longest match is the longest part that is found this way (`Vocabulary.longestAt?_lookup`), in whatever
order the entries are stored or were inserted.
-/

namespace SqlFold

open Text

namespace Text

theorem toUpper_toUpper (c : Char) : c.toUpper.toUpper = c.toUpper := by
  by_cases ascii : c.toNat < 128
  · exact ascii_induction (p := fun c => c.toUpper.toUpper = c.toUpper) (by decide) ascii
  · rw [toUpper_of_not_ascii ascii, toUpper_of_not_ascii ascii]

theorem toList_upperWord (word : String) : (upperWord word).toList = word.toList.map Char.toUpper :=
  String.toList_map

/-- Folding twice is folding once. -/
theorem upperWord_upperWord (word : String) : upperWord (upperWord word) = upperWord word := by
  rw [← String.toList_inj, toList_upperWord, toList_upperWord, List.map_map]
  exact List.map_congr_left fun c _ => toUpper_toUpper c

theorem upperWord_eq_empty {word : String} : upperWord word = "" ↔ word = "" := by
  rw [← String.toList_inj, ← String.toList_inj, toList_upperWord]
  exact List.map_eq_nil_iff

/-- Of two fronts of a text one of which takes no more bytes, it is the front of the other. -/
theorem prefix_of_utf8Len_le {cs ds rest rest' : List Char} (same : cs ++ rest = ds ++ rest')
    (le : String.utf8Len cs ≤ String.utf8Len ds) : cs <+: ds := by
  rcases List.append_eq_append_iff.mp same with ⟨as, rfl, _⟩ | ⟨as, rfl, _⟩
  · exact List.prefix_append cs as
  · rw [String.utf8Len_append] at le
    obtain rfl : as = [] := String.utf8Len_eq_zero.mp (by omega)
    rw [List.append_nil]

/-- Fronts of a text that take the same number of bytes are the same, and so is what is left. -/
theorem append_inj_of_utf8Len {cs ds rest rest' : List Char} (same : cs ++ rest = ds ++ rest')
    (size : String.utf8Len cs = String.utf8Len ds) : cs = ds ∧ rest = rest' := by
  obtain rfl : cs = ds :=
    (prefix_of_utf8Len_le same size.le).eq_of_length_le (prefix_of_utf8Len_le same.symm size.ge).length_le
  exact ⟨rfl, List.append_cancel_left same⟩

end Text

namespace Vocabulary

variable {vocabulary other : Vocabulary} {before : Option Char} {text : List Char} {n : Nat} {kind : TokenKind}

/-! ## Insertions -/

/-- What is inserted is the new entry or was there before. -/
theorem mem_insertEntry {word : String} {entries : List (String × TokenKind)} {e : String × TokenKind}
    (mem : e ∈ insertEntry word kind entries) : e = (word, kind) ∨ e ∈ entries := by
  induction entries with
  | nil => exact .inl (List.mem_singleton.mp mem)
  | cons first rest ih =>
    rw [insertEntry] at mem
    split at mem
    · exact (List.mem_cons.mp mem).imp_right (List.mem_cons_of_mem _)
    · rcases List.mem_cons.mp mem with rfl | mem
      · exact .inr List.mem_cons_self
      · exact (ih mem).imp_right (List.mem_cons_of_mem _)

/-- The entries of an extended vocabulary are old ones, or new words in upper case. -/
theorem mem_withEntries {extra : List (String × TokenKind)} {e : String × TokenKind}
    (mem : e ∈ (vocabulary.withEntries extra).entries) :
    e ∈ vocabulary.entries ∨ ∃ x ∈ extra, e = (upperWord x.1, x.2) := by
  induction extra generalizing vocabulary with
  | nil => exact .inl mem
  | cons x extra ih =>
    rcases ih mem with before | ⟨y, listed, rfl⟩
    · rcases mem_insertEntry before with rfl | before
      · exact .inr ⟨x, List.mem_cons_self, rfl⟩
      · exact .inl before
    · exact .inr ⟨y, List.mem_cons_of_mem x listed, rfl⟩

/-- After an insertion the word has the new kind, in every spelling, and all others have theirs. -/
theorem get?_insert (vocabulary : Vocabulary) (word sought : String) (kind : TokenKind) :
    (vocabulary.insert word kind).get? sought =
      if upperWord sought = upperWord word then some kind else vocabulary.get? sought := by
  rw [get?, get?, insert]
  generalize upperWord sought = sought, upperWord word = word
  induction vocabulary.entries with
  | nil => rw [insertEntry, Directory.lookup_entry]
  | cons entry rest ih =>
    obtain ⟨key, found⟩ := entry
    rw [insertEntry]
    split
    · next same =>
      obtain rfl : key = word := same
      rw [Directory.lookup_entry, Directory.lookup_entry]
      split <;> rfl
    · next different =>
      rw [Directory.lookup_entry, ih, Directory.lookup_entry]
      by_cases here : sought = key
      · rw [if_pos here, if_neg fun same => different (here.symm.trans same), if_pos here]
      · rw [if_neg here, if_neg here]

/-- The kind that a word is given by the last insertion of one that is equal up to case. -/
def lastKind? (inserts : List (String × TokenKind)) (word : String) : Option TokenKind :=
  (inserts.reverse.find? fun e => upperWord word = upperWord e.1).map Prod.snd

/-- Of several insertions of a word the last one counts. -/
theorem get?_withEntries (vocabulary : Vocabulary) (inserts : List (String × TokenKind)) (word : String) :
    (vocabulary.withEntries inserts).get? word = (lastKind? inserts word).or (vocabulary.get? word) := by
  induction inserts generalizing vocabulary with
  | nil => rfl
  | cons e inserts ih =>
    rw [withEntries, List.foldl_cons, ← withEntries, ih, get?_insert, lastKind?, lastKind?, List.reverse_cons,
      List.find?_append, Option.map_or, Option.or_assoc]
    congr 1
    rw [List.find?_singleton]
    by_cases same : upperWord word = upperWord e.1
    · simp [same]
    · simp [same]

/-! ## One entry for each word -/

/-- One entry for each word, and every word in upper case. -/
structure Folded (vocabulary : Vocabulary) : Prop where
  upper : ∀ e ∈ vocabulary.entries, upperWord e.1 = e.1
  nodup : (vocabulary.entries.map Prod.fst).Nodup

theorem folded_empty : empty.Folded := ⟨nofun, .nil⟩

/-- An insertion keeps the words apart. -/
theorem nodup_insertEntry {word : String} {entries : List (String × TokenKind)} (nodup : (entries.map Prod.fst).Nodup) :
    ((insertEntry word kind entries).map Prod.fst).Nodup := by
  induction entries with
  | nil => exact List.nodup_singleton word
  | cons first rest ih =>
    obtain ⟨apart, nodup⟩ := List.nodup_cons.mp nodup
    rw [insertEntry]
    split
    · next same => exact List.nodup_cons.mpr ⟨same ▸ apart, nodup⟩
    · next different =>
      refine List.nodup_cons.mpr ⟨fun listed => ?_, ih nodup⟩
      obtain ⟨e, mem, same⟩ := List.mem_map.mp listed
      rcases mem_insertEntry mem with rfl | mem
      · exact different same.symm
      · exact apart (same ▸ List.mem_map_of_mem mem)

theorem Folded.insert (folded : vocabulary.Folded) (word : String) (kind : TokenKind) :
    (vocabulary.insert word kind).Folded where
  upper e mem := by
    rcases mem_insertEntry mem with rfl | mem
    · exact upperWord_upperWord word
    · exact folded.upper e mem
  nodup := nodup_insertEntry folded.nodup

theorem Folded.withEntries (folded : vocabulary.Folded) (inserts : List (String × TokenKind)) :
    (vocabulary.withEntries inserts).Folded := by
  induction inserts generalizing vocabulary with
  | nil => exact folded
  | cons e inserts ih => exact ih (folded.insert e.1 e.2)

theorem Folded.perm (folded : vocabulary.Folded) (perm : other.entries.Perm vocabulary.entries) : other.Folded where
  upper e mem := folded.upper e (perm.mem_iff.mp mem)
  nodup := (perm.map Prod.fst).nodup_iff.mpr folded.nodup

/-- The kind of a word is that of its entry. -/
theorem Folded.get?_eq_some (folded : vocabulary.Folded) {word : String} :
    vocabulary.get? word = some kind ↔ (upperWord word, kind) ∈ vocabulary.entries :=
  ⟨Directory.mem_of_lookup, Directory.lookup_of_mem folded.nodup⟩

/-- Entries in another order give the words the same kinds. -/
theorem Folded.get?_perm (folded : vocabulary.Folded) (perm : other.entries.Perm vocabulary.entries) (word : String) :
    other.get? word = vocabulary.get? word := by
  ext kind
  rw [(folded.perm perm).get?_eq_some, folded.get?_eq_some, perm.mem_iff]

/-! ## The longest part of a text that is looked up -/

/-- The characters `cs` are a word of the vocabulary, which no word character touches if it starts with a letter. -/
structure Stands (vocabulary : Vocabulary) (before : Option Char) (cs rest : List Char) (kind : TokenKind) : Prop where
  known : vocabulary.get? (String.ofList cs) = some kind
  apart : cs.head?.any isLetter = true → before.any isWordChar = false ∧ rest.head?.any isWordChar = false

/-- An entry matches at the front of a text if and only if a word stands there that is looked up. -/
theorem Folded.matches_iff (folded : vocabulary.Folded) :
    (∃ e ∈ vocabulary.entries, matchLength? before text e.1.toList = some n ∧ e.2 = kind) ↔
      ∃ cs rest, text = cs ++ rest ∧ cs.length = n ∧ vocabulary.Stands before cs rest kind := by
  have folds (cs : List Char) : (upperWord (String.ofList cs)).toList = cs.map Char.toUpper := by
    rw [toList_upperWord, String.toList_ofList]
  have head (cs : List Char) : (cs.map Char.toUpper).head?.any isLetter = cs.head?.any isLetter := by
    cases cs with
    | nil => rfl
    | cons c cs => exact isLetter_toUpper c
  have bounds (rest : List Char) :
      boundary before rest.head? = true ↔ before.any isWordChar = false ∧ rest.head?.any isWordChar = false := by
    rw [boundary, Bool.and_eq_true, Bool.not_eq_true', Bool.not_eq_true']
  constructor
  · rintro ⟨⟨word, kind⟩, mem, matched, rfl⟩
    obtain ⟨cs, rest, split, spelled, size, ends⟩ := matchLength?_eq_some.mp matched
    have same : upperWord (String.ofList cs) = word := String.toList_inj.mp ((folds cs).trans spelled)
    refine ⟨cs, rest, split, size, folded.get?_eq_some.mpr (same ▸ mem), fun letter => (bounds rest).mp (ends ?_)⟩
    rw [← spelled, head]
    exact letter
  · rintro ⟨cs, rest, split, size, known, apart⟩
    have ends : (upperWord (String.ofList cs)).toList.head?.any isLetter = true →
        boundary before rest.head? = true := by
      rw [folds, head]
      exact fun letter => (bounds rest).mpr (apart letter)
    exact ⟨_, folded.get?_eq_some.mp known,
      matchLength?_eq_some.mpr ⟨cs, rest, split, (folds cs).symm, size, ends⟩, rfl⟩

/-- Only one word of a given length stands at the front of a text. -/
theorem Stands.unique {cs ds rest rest' : List Char} {kind' : TokenKind} (stands : vocabulary.Stands before cs rest kind)
    (stands' : vocabulary.Stands before ds rest' kind') (same : cs ++ rest = ds ++ rest')
    (size : cs.length = ds.length) : kind = kind' := by
  obtain ⟨rfl, _⟩ := List.append_inj same size
  exact Option.some.inj (stands.known.symm.trans stands'.known)

/-- The longest match is the longest word that stands at the front of a text. -/
theorem Folded.longest?_eq_some (folded : vocabulary.Folded) :
    vocabulary.longest? before text = some (n, kind) ↔
      (∃ cs rest, text = cs ++ rest ∧ cs.length = n ∧ vocabulary.Stands before cs rest kind) ∧
        ∀ cs rest other, text = cs ++ rest → vocabulary.Stands before cs rest other → cs.length ≤ n := by
  have longest {m : Nat} {k : TokenKind} (found : vocabulary.longest? before text = some (m, k)) :
      (∃ cs rest, text = cs ++ rest ∧ cs.length = m ∧ vocabulary.Stands before cs rest k) ∧
        ∀ cs rest other, text = cs ++ rest → vocabulary.Stands before cs rest other → cs.length ≤ m := by
    obtain ⟨matched, most⟩ := Vocabulary.longest?_eq_some found
    refine ⟨folded.matches_iff.mp matched, fun cs rest other split stands => ?_⟩
    obtain ⟨e, mem, matched, _⟩ := folded.matches_iff.mpr ⟨cs, rest, split, rfl, stands⟩
    exact most e mem _ matched
  refine ⟨longest, ?_⟩
  rintro ⟨⟨cs, rest, split, rfl, stands⟩, most⟩
  cases found : vocabulary.longest? before text with
  | none =>
    obtain ⟨e, mem, matched, _⟩ := folded.matches_iff.mpr ⟨cs, rest, split, rfl, stands⟩
    cases (longest?_eq_none.mp found e mem).symm.trans matched
  | some m =>
    obtain ⟨⟨ds, rest', split', size, stands'⟩, most'⟩ := longest found
    -- Neither word is longer than the other, so they are the same characters and have one kind.
    have same : ds.length = cs.length :=
      Nat.le_antisymm (most ds rest' m.2 split' stands') (size ▸ most' cs rest kind split stands)
    obtain rfl : m.2 = kind := stands'.unique stands (split'.symm.trans split) same
    rw [← same, size]

/-! ## Byte offsets -/

/-- Splitting at a byte offset cuts off a front of as many bytes. -/
theorem splitAtByte?_eq_some {offset : Nat} {before' : Option Char} {rest : List Char} :
    splitAtByte? before offset text = some (before', rest) ↔
      ∃ front, text = front ++ rest ∧ String.utf8Len front = offset ∧ before' = front.getLast?.or before := by
  -- Along the cut, what was right before the text is replaced by the last character of the front.
  fun_induction splitAtByte? before offset text with
  | case1 before text =>
    constructor
    · rintro ⟨⟩
      exact ⟨[], rfl, rfl, rfl⟩
    · rintro ⟨front, rfl, none, rfl⟩
      rw [String.utf8Len_eq_zero.mp none]
      rfl
  | case2 before offset =>
    refine ⟨nofun, ?_⟩
    rintro ⟨front, none, size, _⟩
    rw [(List.append_eq_nil_iff.mp none.symm).1] at size
    cases size
  | case3 before offset c text fits ih =>
    rw [ih]
    constructor
    · rintro ⟨front, rfl, size, rfl⟩
      refine ⟨c :: front, rfl, by rw [String.utf8Len_cons, size, Nat.sub_add_cancel fits], ?_⟩
      rw [List.getLast?_cons, Option.some_or]
      cases front.getLast? <;> rfl
    · rintro ⟨_ | ⟨d, front⟩, split, size, rfl⟩
      · cases size
      · obtain ⟨rfl, rfl⟩ := List.cons.inj split
        rw [String.utf8Len_cons] at size
        refine ⟨front, rfl, Nat.eq_sub_of_add_eq size, ?_⟩
        rw [List.getLast?_cons, Option.some_or]
        cases front.getLast? <;> rfl
  | case4 before offset c text short =>
    refine ⟨nofun, ?_⟩
    rintro ⟨_ | ⟨d, front⟩, split, size, _⟩
    · cases size
    · obtain ⟨rfl, _⟩ := List.cons.inj split
      rw [String.utf8Len_cons] at size
      omega

/-- The `length` bytes behind the byte offset `offset` of a text are a word of the vocabulary, up to case: they begin
and end between characters, and where a letter is the first of them, no word character is right before or behind. -/
def Fits (vocabulary : Vocabulary) (text : String) (offset length : Nat) (kind : TokenKind) : Prop :=
  ∃ front word behind : String, text = front ++ word ++ behind ∧ front.utf8ByteSize = offset ∧
    word.utf8ByteSize = length ∧ vocabulary.get? word = some kind ∧
      (word.toList.head?.any isLetter = true →
        front.toList.getLast?.any isWordChar = false ∧ behind.toList.head?.any isWordChar = false)

section Bytes

variable {text : String} {offset length : Nat}

/-- The same words fit where the same kinds are looked up. -/
theorem Fits.congr (same : ∀ word, other.get? word = vocabulary.get? word) :
    other.Fits text offset length kind ↔ vocabulary.Fits text offset length kind := by
  simp only [Fits, same]

/-- A word fits at an offset if it stands behind the front that takes as many bytes. -/
theorem fits_iff : vocabulary.Fits text offset length kind ↔
    ∃ front cs rest, text.toList = front ++ (cs ++ rest) ∧ String.utf8Len front = offset ∧
      String.utf8Len cs = length ∧ vocabulary.Stands front.getLast? cs rest kind := by
  constructor
  · rintro ⟨front, word, behind, rfl, rfl, rfl, known, apart⟩
    refine ⟨front.toList, word.toList, behind.toList, ?_, String.utf8Len_toList front, String.utf8Len_toList word, ?_⟩
    · rw [String.toList_append, String.toList_append, List.append_assoc]
    · exact ⟨by rwa [String.ofList_toList], apart⟩
  · rintro ⟨front, cs, rest, split, rfl, rfl, known, apart⟩
    refine ⟨.ofList front, .ofList cs, .ofList rest, ?_, String.utf8ByteSize_ofList front,
      String.utf8ByteSize_ofList cs, known, ?_⟩
    · rw [← String.toList_inj, split]
      simp only [String.toList_append, String.toList_ofList, List.append_assoc]
    · simp only [String.toList_ofList]
      exact apart

/-- The longest match at a byte offset, in terms of characters. -/
theorem longestAt?_eq_some : vocabulary.longestAt? text offset = some (length, kind) ↔
    ∃ front cs rest, text.toList = front ++ (cs ++ rest) ∧ String.utf8Len front = offset ∧
      String.utf8Len cs = length ∧ vocabulary.longest? front.getLast? (cs ++ rest) = some (cs.length, kind) := by
  simp only [longestAt?, Option.bind_eq_bind, Option.bind_eq_some_iff, Prod.exists, splitAtByte?_eq_some,
    Option.or_none, Option.pure_def, Option.some.injEq, Prod.mk.injEq]
  constructor
  · rintro ⟨_, rest, ⟨front, split, size, rfl⟩, n, kind, found, rfl, rfl⟩
    obtain ⟨⟨e, _, matched, _⟩, _⟩ := Vocabulary.longest?_eq_some found
    obtain ⟨cs, rest, rfl, _, rfl, _⟩ := matchLength?_eq_some.mp matched
    exact ⟨front, cs, rest, split, size, by rw [List.take_left, String.utf8ByteSize_ofList], found⟩
  · rintro ⟨front, cs, rest, split, size, rfl, found⟩
    exact ⟨_, _, ⟨front, split, size, rfl⟩, _, _, found, by rw [List.take_left, String.utf8ByteSize_ofList], rfl⟩

/-- The longest match at a byte offset is the longest word that fits there. -/
theorem Folded.longestAt?_eq_some (folded : vocabulary.Folded) :
    vocabulary.longestAt? text offset = some (length, kind) ↔
      vocabulary.Fits text offset length kind ∧
        ∀ further other, vocabulary.Fits text offset further other → further ≤ length := by
  simp only [Vocabulary.longestAt?_eq_some, fits_iff]
  constructor
  · rintro ⟨front, cs, rest, split, rfl, rfl, found⟩
    obtain ⟨⟨cs', rest', split', size, stands⟩, most⟩ := folded.longest?_eq_some.mp found
    obtain ⟨rfl, rfl⟩ := List.append_inj split' size.symm
    refine ⟨⟨front, cs, rest, split, rfl, rfl, stands⟩, ?_⟩
    rintro _ other ⟨front', ds, back, again, size, rfl, stands'⟩
    obtain ⟨rfl, here⟩ := append_inj_of_utf8Len (split.symm.trans again) size.symm
    have le := most ds back other here stands'
    have shorter : ds <+: cs := List.prefix_of_prefix_length_le ⟨back, here.symm⟩ (List.prefix_append cs rest) le
    exact String.utf8Len_le_of_prefix shorter
  · rintro ⟨⟨front, cs, rest, split, rfl, rfl, stands⟩, most⟩
    refine ⟨front, cs, rest, split, rfl, rfl, folded.longest?_eq_some.mpr ⟨⟨cs, rest, rfl, rfl, stands⟩, ?_⟩⟩
    intro ds back other here stands'
    have le := most _ other ⟨front, ds, back, here ▸ split, rfl, rfl, stands'⟩
    exact (prefix_of_utf8Len_le here.symm le).length_le

/-- Nothing matches at a byte offset if and only if no word fits there. -/
theorem Folded.longestAt?_eq_none (folded : vocabulary.Folded) :
    vocabulary.longestAt? text offset = none ↔ ∀ length kind, ¬vocabulary.Fits text offset length kind := by
  constructor
  · intro none length kind fits
    obtain ⟨front, cs, rest, split, size, _, stands⟩ := fits_iff.mp fits
    obtain ⟨e, mem, matched, _⟩ := folded.matches_iff.mpr ⟨cs, rest, rfl, rfl, stands⟩
    cases found : vocabulary.longest? front.getLast? (cs ++ rest) with
    | none => cases (longest?_eq_none.mp found e mem).symm.trans matched
    | some m =>
      obtain ⟨n, kind⟩ := m
      obtain ⟨⟨ds, back, here, rfl, _⟩, _⟩ := folded.longest?_eq_some.mp found
      have some := Vocabulary.longestAt?_eq_some.mpr ⟨front, ds, back, here ▸ split, size, rfl, here ▸ found⟩
      cases none.symm.trans some
  · intro never
    cases found : vocabulary.longestAt? text offset with
    | none => rfl
    | some m => exact absurd (folded.longestAt?_eq_some.mp found).1 (never m.1 m.2)

/-- The longest match depends on the kinds of the words only. -/
theorem Folded.longestAt?_congr (folded : vocabulary.Folded) (folded' : other.Folded)
    (same : ∀ word, other.get? word = vocabulary.get? word) :
    other.longestAt? text offset = vocabulary.longestAt? text offset := by
  ext ⟨length, kind⟩
  rw [folded'.longestAt?_eq_some, folded.longestAt?_eq_some]
  simp only [Fits.congr same]

end Bytes

/-- Matching is looking up, at any place of any text, in a vocabulary that was put together by insertions.

* The longest match is the longest word that fits, with the kind that is looked up for it.
* Nothing matches if and only if no word fits; so it is where the offset lies inside a character or past the end.
* A word is looked up with the kind that it was given last, in whatever spelling.
* So insertions that give every word the same kind last find the same, and so do the same entries in another order. -/
theorem longestAt?_lookup (inserts : List (String × TokenKind)) (text : String) (offset : Nat) :
    (∀ length kind, (empty.withEntries inserts).longestAt? text offset = some (length, kind) ↔
      (empty.withEntries inserts).Fits text offset length kind ∧
        ∀ further other, (empty.withEntries inserts).Fits text offset further other → further ≤ length) ∧
    ((empty.withEntries inserts).longestAt? text offset = none ↔
      ∀ length kind, ¬(empty.withEntries inserts).Fits text offset length kind) ∧
    (∀ word, (empty.withEntries inserts).get? word = lastKind? inserts word) ∧
    (∀ inserts', (∀ word, lastKind? inserts' word = lastKind? inserts word) →
      (empty.withEntries inserts').longestAt? text offset = (empty.withEntries inserts).longestAt? text offset) ∧
    ∀ other : Vocabulary, other.entries.Perm (empty.withEntries inserts).entries →
      other.longestAt? text offset = (empty.withEntries inserts).longestAt? text offset := by
  have folded := folded_empty.withEntries inserts
  have last (inserts : List (String × TokenKind)) (word : String) :
      (empty.withEntries inserts).get? word = lastKind? inserts word :=
    (get?_withEntries empty inserts word).trans Option.or_none
  refine ⟨fun _ _ => folded.longestAt?_eq_some, folded.longestAt?_eq_none, last inserts, ?_, ?_⟩
  · intro inserts' same
    refine folded.longestAt?_congr (folded_empty.withEntries inserts') fun word => ?_
    rw [last, last, same]
  · intro other perm
    exact folded.longestAt?_congr (folded.perm perm) (folded.get?_perm perm)

end Vocabulary

end SqlFold
