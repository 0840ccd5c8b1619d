import Bnf.Text.Bytes

/-!
# Lines of a text

Byte offsets are turned into lines and columns for people to read. A line ends with a carriage
return and a line feed together, with a carriage return alone, or with a line feed alone. Columns
count characters.

## Main definitions

- `Line` — where a line starts, and whether it has characters outside ASCII
- `LineMap` — a text with its lines
- `LineMap.position` — the line and column of an offset, from zero
- `Location` — the same from one, as it is shown in messages
-/

namespace Bnf

/-- A line of a text. -/
structure Line where
  /-- The byte offset at which the line starts. -/
  start : Nat
  /-- Whether the line holds a character outside ASCII. -/
  isWide : Bool
deriving DecidableEq

/-- The lines of the text that is left at `offset`, in a line that has been entered already. -/
def linesFrom (line : Line) (offset : Nat) : List Char → List Line
  | [] => [line]
  | '\r' :: '\n' :: cs => line :: linesFrom ⟨offset + 2, false⟩ (offset + 2) cs
  | c :: cs =>
    if c = '\n' ∨ c = '\r' then
      line :: linesFrom ⟨offset + 1, false⟩ (offset + 1) cs
    else
      linesFrom { line with isWide := line.isWide || 128 ≤ c.toNat } (offset + c.utf8Size) cs

/-- A text together with the places at which its lines start. -/
structure LineMap where
  chars : List Char
  lines : List Line

namespace LineMap

/-- The line map of a text. -/
def ofString (text : String) : LineMap :=
  ⟨text.toList, linesFrom ⟨0, false⟩ 0 text.toList⟩

/-- The number of bytes of the text. -/
def size (m : LineMap) : Nat :=
  byteLength m.chars

/-- The number of lines, one more than the line breaks. -/
def lineCount (m : LineMap) : Nat :=
  m.lines.length

/-- The number of the last line that starts at `offset` or before, counted from zero, and that
    line. The first line starts at zero, so there always is one. -/
def lineAt (m : LineMap) (offset : Nat) : Nat × Line :=
  let reached := m.lines.takeWhile (·.start ≤ offset)
  (reached.length - 1, reached.getLastD ⟨0, false⟩)

/-- The line and the column of an offset, both counted from zero. An offset past the end counts as
    the end, one inside a character as the start of that character. -/
def position (m : LineMap) (offset : Nat) : Nat × Nat :=
  let before := takeBytes offset m.chars
  let (number, line) := m.lineAt (byteLength before)
  (number, before.length - (takeBytes line.start m.chars).length)

end LineMap

/-- A place in a text as messages show it: line and column count from one. -/
structure Location where
  offset : Nat
  line : Nat
  column : Nat
deriving DecidableEq

namespace Location

/-- The location of a byte offset. An offset past the end of the text counts as the end. -/
def ofOffset (text : String) (offset : Nat) : Location :=
  let map := LineMap.ofString text
  let (line, column) := map.position offset
  ⟨min offset map.size, line + 1, column + 1⟩

/-- The text of a location, `line:column`. -/
def render (l : Location) : String :=
  s!"{l.line}:{l.column}"

end Location

end Bnf
