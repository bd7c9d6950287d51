import SqlFold.Text.Position

/-!
# Drawing a place inside its text

`drawing source p` shows every line of the source, the line of `p` between two marks and an arrow
above and below the text at the column of `p`:

* every other line is indented by three spaces;
* the marked line is padded to the width of the widest line, where widths are UTF-8 bytes and the
  left mark counts with its own five bytes;
* a position beyond the last line marks nothing, the arrows are drawn all the same.
-/

namespace SqlFold.Text

/-- The lines of a text: what stands between its newlines, so one more than there are newlines. -/
def splitLines : List Char → List (List Char)
  | [] => [[]]
  | c :: rest =>
    if c = '\n' then [] :: splitLines rest
    else
      match splitLines rest with
      | [] => [[c]]
      | line :: lines => (c :: line) :: lines

/-- The lines of a string. -/
def linesOf (source : String) : List String := (splitLines source.toList).map String.ofList

/-- `n` spaces. -/
def spaces (n : Nat) : String := String.ofList (List.replicate n ' ')

namespace Drawing

/-- What stands before an ordinary line. -/
def margin : String := "   "

/-- What stands before the marked line. -/
def leftMark : String := " → "

/-- What stands after the padding of the marked line. -/
def rightMark : String := " ← "

/-- The arrow above the text. -/
def arrowAbove : String := "↓"

/-- The arrow below the text. -/
def arrowBelow : String := "↑"

/-- The width in bytes of the widest indented line. -/
def width (lines : List String) : Nat :=
  (lines.map fun line => margin.utf8ByteSize + line.utf8ByteSize).foldl max 0

/-- The line with the marks around it, padded to `width` bytes before the right mark. -/
def marked (width : Nat) (line : String) : String :=
  let text := leftMark ++ line
  text ++ spaces (width - text.utf8ByteSize) ++ rightMark

/-- The rows of the drawing between its two arrows, the first of which shows line number `index`. -/
def rows (width line : Nat) : Nat → List String → List String
  | _, [] => []
  | index, text :: rest =>
    (if index = line then marked width text else margin ++ text) :: rows width line (index + 1) rest

end Drawing

/-- The text of `source` with the place `p` pointed at. -/
def drawing (source : String) (p : Position) : String :=
  let lines := linesOf source
  let pointer := spaces (Drawing.margin.length + p.column)
  "\n".intercalate <|
    ["", pointer ++ Drawing.arrowAbove]
      ++ Drawing.rows (Drawing.width lines) p.line 0 lines
      ++ [pointer ++ Drawing.arrowBelow, ""]

/-- There is always a first line. -/
theorem splitLines_ne_nil (cs : List Char) : splitLines cs ≠ [] := by
  cases cs with
  | nil => simp [splitLines]
  | cons c rest =>
    simp only [splitLines]
    split
    · simp
    · split <;> simp

end SqlFold.Text
