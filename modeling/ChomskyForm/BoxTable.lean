/-!
# Tables drawn with box characters

`boxTable` draws a header and rows of cells. A column is as wide as its widest cell,
cells are flush left with a space on each side, and a rule separates the header. The
text does not end in a line break.
-/

namespace ChomskyForm

/-- The width of each column. -/
def columnWidths (rows : List (List String)) : List Nat :=
  rows.foldr (fun row widths => List.zipWithAll
    (fun cell width => max (cell.getD "").length (width.getD 0)) row widths) []

/-- A character repeated `n` times. -/
def repeated (c : Char) (n : Nat) : String := String.ofList (List.replicate n c)

/-- A line of cells. -/
def cellLine (widths : List Nat) (cells : List String) : String :=
  "│" ++ "│".intercalate (List.zipWith
    (fun width cell => " " ++ cell ++ repeated ' ' (width - cell.length + 1)) widths cells) ++ "│"

/-- A horizontal line with the given ends and crossings. -/
def ruleLine (widths : List Nat) (left cross right : String) : String :=
  left ++ cross.intercalate (widths.map fun width => repeated '─' (width + 2)) ++ right

/-- The table with this header and these rows. -/
def boxTable (header : List String) (rows : List (List String)) : String :=
  let widths := columnWidths (header :: rows)
  "\n".intercalate <|
    [ruleLine widths "╭" "┬" "╮", cellLine widths header, ruleLine widths "├" "┼" "┤"] ++
      rows.map (cellLine widths) ++ [ruleLine widths "╰" "┴" "╯"]

end ChomskyForm
