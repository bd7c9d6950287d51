/-!
# Positions in a text

A `Position` is a line and a column, both counted from zero. The column counts characters, not
bytes. `Position.advance` is the position right after a text that starts at the given one: every
newline opens a line, every other character takes one column.
-/

namespace SqlFold.Text

/-- A place in a text, counted from zero. -/
structure Position where
  /-- The number of newlines before the place. -/
  line : Nat
  /-- The number of characters between the last newline and the place. -/
  column : Nat
  deriving DecidableEq, Inhabited

namespace Position

/-- The start of a text. -/
def start : Position := ⟨0, 0⟩

/-- The position after one character. -/
def step (p : Position) (c : Char) : Position :=
  if c = '\n' then ⟨p.line + 1, 0⟩ else ⟨p.line, p.column + 1⟩

/-- The position after the characters `cs`, the first of which stands at `p`. -/
def advance (p : Position) (cs : List Char) : Position := cs.foldl step p

/-- The position written as `line,column`. -/
def text (p : Position) : String := s!"{p.line},{p.column}"

@[simp] theorem advance_nil (p : Position) : p.advance [] = p := rfl

@[simp] theorem advance_cons (p : Position) (c : Char) (cs : List Char) :
    p.advance (c :: cs) = (p.step c).advance cs := rfl

/-- Advancing over two texts in turn is advancing over their concatenation. -/
theorem advance_append (p : Position) (cs ds : List Char) :
    p.advance (cs ++ ds) = (p.advance cs).advance ds := List.foldl_append

end Position

end SqlFold.Text
