import EventUpload.Text.Width

/-!
# Tables

A table has a header and rows of cells. Every column is as wide as its widest cell; a cell of
several lines makes its row as high. Around the table is a border, below the header a double line,
and between columns nothing but blanks.
-/

set_option autoImplicit false

namespace EventUpload.Text

/-- A table; rows have as many cells as the header. -/
structure Table where
  header : List String
  rows : List (List String)
deriving BEq, DecidableEq, Repr

namespace Table

def lines (cell : String) : List String := cell.splitOn "\n"

/-- The width of a cell: that of its widest line. -/
def cellWidth (cell : String) : Nat := ((lines cell).map width).foldl max 0

def widen : List Nat → List String → List Nat
  | w :: ws, cell :: cells => max w (cellWidth cell) :: widen ws cells
  | ws, [] => ws
  | [], _ => []

def widths (t : Table) : List Nat := t.rows.foldl widen (t.header.map cellWidth)

/-- A text filled up with blanks. -/
def fill (columns : Nat) (s : String) : String :=
  s ++ String.ofList (List.replicate (columns - width s) ' ')

/-- One line of a row, given the line of every cell. -/
def rowLine (widths : List Nat) (parts : List String) : String :=
  "│" ++ String.intercalate " " ((widths.zip parts).map fun (w, s) => " " ++ fill w s ++ " ") ++ "│"

def rowLines (widths : List Nat) (cells : List String) : List String :=
  let cells := cells.map lines
  let height := (cells.map List.length).foldl max 0
  (List.range height).map fun i => rowLine widths (cells.map fun c => c.getD i "")

/-- A horizontal line between two corners. -/
def rule (left line right : Char) (widths : List Nat) : String :=
  let columns := widths.foldl (fun n w => n + w + 2) (widths.length - 1)
  String.ofList (left :: (List.replicate columns line ++ [right]))

def toLines (t : Table) : List String :=
  let ws := t.widths
  [rule '┌' '─' '┐' ws] ++ rowLines ws t.header ++ [rule '╞' '═' '╡' ws]
    ++ t.rows.flatMap (rowLines ws) ++ [rule '└' '─' '┘' ws]

def render (t : Table) : String := String.intercalate "\n" t.toLines

end Table

end EventUpload.Text
