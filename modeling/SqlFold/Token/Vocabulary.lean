import SqlFold.Text.Chars
import SqlFold.Token.Kind

/-!
# Vocabularies

A `Vocabulary` gives words and operators their kinds. Words are stored in upper case and compared
without regard to the case of ASCII letters.

`longest?` finds the longest entry at a place of a text. An entry that starts with a letter must
not touch a further word character on either side, so `JOINER` never begins with the keyword `JOIN`.
-/

namespace SqlFold

open Text

/-- Words and operators with their kinds, one entry for each word up to case. -/
structure Vocabulary where
  entries : List (String × TokenKind)
  deriving DecidableEq, Inhabited

namespace Vocabulary

/-- The vocabulary without entries. -/
def empty : Vocabulary := ⟨[]⟩

/-- Puts a folded word into a list of entries, in the place of an equal word. -/
def insertEntry (word : String) (kind : TokenKind) :
    List (String × TokenKind) → List (String × TokenKind)
  | [] => [(word, kind)]
  | entry :: rest =>
    if entry.1 = word then (word, kind) :: rest else entry :: insertEntry word kind rest

/-- Adds an entry, in the place of one whose word is equal up to case. -/
def insert (vocabulary : Vocabulary) (word : String) (kind : TokenKind) : Vocabulary :=
  ⟨insertEntry (upperWord word) kind vocabulary.entries⟩

/-- Adds entries in turn. -/
def withEntries (vocabulary : Vocabulary) (extra : List (String × TokenKind)) : Vocabulary :=
  extra.foldl (fun t (word, kind) => t.insert word kind) vocabulary

/-- The kind of a word. -/
def get? (vocabulary : Vocabulary) (word : String) : Option TokenKind :=
  vocabulary.entries.lookup (upperWord word)

/-- The number of entries. -/
def size (vocabulary : Vocabulary) : Nat := vocabulary.entries.length

/-- Whether there is no entry. -/
def isEmpty (vocabulary : Vocabulary) : Bool := vocabulary.entries.isEmpty

/-- Removes a folded word from the front of a text, whose letters may be in either case. -/
def afterWord? : List Char → List Char → Option (List Char)
  | [], text => some text
  | _ :: _, [] => none
  | w :: word, c :: text => if c.toUpper = w then afterWord? word text else none

/-- Whether a word may end where `before` and `after` are the characters around it. -/
def boundary (before after : Option Char) : Bool :=
  !before.any isWordChar && !after.any isWordChar

/-- The length of the match of one entry at the front of a text. -/
def matchLength? (before : Option Char) (text : List Char) (word : List Char) : Option Nat :=
  match afterWord? word text with
  | none => none
  | some rest =>
    if !word.head?.any isLetter || boundary before rest.head? then some word.length else none

/-- The longer of two matches. -/
def longer : Option (Nat × TokenKind) → Option (Nat × TokenKind) → Option (Nat × TokenKind)
  | none, m => m
  | m, none => m
  | some m, some n => if m.1 ≤ n.1 then some n else some m

/-- The length in characters and the kind of the longest entry at the front of `text`, where
`before` is the character right before it. -/
def longest? (vocabulary : Vocabulary) (before : Option Char) (text : List Char) :
    Option (Nat × TokenKind) :=
  (vocabulary.entries.map fun (word, kind) =>
    (matchLength? before text word.toList).map (·, kind)).foldl longer none

/-- Splits a text at a byte offset into the character before it and the rest; nothing if the offset
lies past the end or inside a character. -/
def splitAtByte? : Option Char → Nat → List Char → Option (Option Char × List Char)
  | before, 0, text => some (before, text)
  | _, _ + 1, [] => none
  | _, n + 1, c :: text =>
    if c.utf8Size ≤ n + 1 then splitAtByte? (some c) (n + 1 - c.utf8Size) text else none

/-- The length in bytes and the kind of the longest entry at the byte offset `offset` of a text. -/
def longestAt? (vocabulary : Vocabulary) (text : String) (offset : Nat) :
    Option (Nat × TokenKind) := do
  let (before, rest) ← splitAtByte? none offset text.toList
  let (length, kind) ← vocabulary.longest? before rest
  return (String.utf8ByteSize (String.ofList (rest.take length)), kind)

/-- The words and operators of SQL. -/
def standardEntries : List (String × TokenKind) :=
  [("SELECT", .selectKw), ("DISTINCT", .distinctKw), ("AS", .asKw), ("FROM", .fromKw),
    ("JOIN", .joinKw), ("INNER", .innerKw), ("LEFT", .leftKw), ("RIGHT", .rightKw),
    ("FULL", .fullKw), ("OUTER", .outerKw), ("CROSS", .crossKw), ("NATURAL", .naturalKw),
    ("ON", .onKw), ("USING", .usingKw), ("WHERE", .whereKw), ("AND", .andKw), ("OR", .orKw),
    ("NOT", .notKw), ("LIKE", .likeKw), ("IS", .isKw), ("IN", .inKw), ("NULL", .nullKw),
    ("ORDER", .orderKw), ("BY", .byKw), ("ASC", .ascKw), ("DESC", .descKw), ("GROUP", .groupKw),
    ("HAVING", .havingKw), ("SET", .setKw), ("UPDATE", .updateKw),
    ("=", .operator), ("!=", .operator), ("<>", .operator), ("<", .operator), ("<=", .operator),
    (">", .operator), (">=", .operator), ("<=>", .operator), ("+", .operator), ("-", .operator),
    ("*", .operator), ("/", .operator), ("%", .operator), ("||", .operator),
    ("(", .bracketOpen), (")", .bracketClose), (",", .comma), (";", .semicolon), (".", .dot)]

/-- The vocabulary of SQL. -/
def standard : Vocabulary := empty.withEntries standardEntries

/-- The words of the list are in upper case and differ from one another, so they are the entries as they stand. -/
theorem standard_eq : standard = ⟨standardEntries⟩ := by decide +kernel

theorem standard_entries : standard.entries = standardEntries := congrArg entries standard_eq

end Vocabulary

end SqlFold
