import ChomskyForm.NormalForm

/-!
# Recognition with a square table

Here the Cocke–Younger–Kasami table is a square with a row and a column for each letter.
The cell in row `i` and column `j` is for the part from the first letter `i` to the last
letter `j`. `NormalForm.fillTable` marks the cells of single letters, and then one diagonal
after the other : a part is split after each letter `k` in it, and a pair `A → B C` puts
`A` into its cell if `B` is in the cell of the left piece and `C` in that of the right one.

Cells are read and written by their position. `NormalForm.tabulate` has no answer if it is
ever asked for a cell that the table does not have.
-/

namespace ChomskyForm

/-- The rows of a table, each with its cells. -/
abbrev SquareTable := List (List (OrderedSet NonTerminal))

namespace SquareTable

/-- A table of empty cells. -/
def blank (n : Nat) : SquareTable := .replicate n (.replicate n .empty)

/-- The cell in row `i` and column `j`. -/
def cell? (t : SquareTable) (i j : Nat) : Option (OrderedSet NonTerminal) := do
  let row ← t[i]?
  row[j]?

/-- Put `A` into the cell in row `i` and column `j`. -/
def add? (t : SquareTable) (i j : Nat) (A : NonTerminal) : Option SquareTable := do
  let row ← t[i]?
  let cell ← row[j]?
  return t.set i (row.set j (cell.insert A))

/-- The ways to split the parts of `d + 2` of `n` letters : the first letter of the part,
the last letter of its left piece, and its last letter. -/
def splits (n d : Nat) : List (Nat × Nat × Nat) :=
  (List.range (n - d - 1)).flatMap fun i => (List.range' i (d + 1)).map fun k => (i, k, i + d + 1)

end SquareTable

namespace NormalForm

variable (c : NormalForm)

/-- Every production on its own, without the empty one. -/
def pairings : List (NonTerminal × NormalWord) :=
  c.productions.entries.flatMap fun e => e.2.toList.map (e.1, ·)

/-- Mark each letter that is the right-hand side. -/
def markLetter (u : Sentence) (t : SquareTable) : NonTerminal × NormalWord → Option SquareTable
  | (A, .terminal a) =>
    u.zipIdx.foldlM (fun t b => if b.1 = a.text then t.add? b.2 b.2 A else return t) t
  | (_, .pair _ _) => return t

/-- Mark the part from `i` to `j` if the right-hand side derives it split after `k`. -/
def markSplit (i k j : Nat) (t : SquareTable) : NonTerminal × NormalWord → Option SquareTable
  | (_, .terminal _) => return t
  | (A, .pair B C) => do
    if B ∈ (← t.cell? i k) then
      if C ∈ (← t.cell? (k + 1) j) then t.add? i j A else return t
    else return t

/-- Mark the parts of `d + 2` of `n` letters. -/
def markDiagonal (n : Nat) (t : SquareTable) (d : Nat) : Option SquareTable :=
  (SquareTable.splits n d).foldlM (fun t s => c.pairings.foldlM (markSplit s.1 s.2.1 s.2.2) t) t

/-- The table of a sentence. -/
def fillTable (u : Sentence) : Option SquareTable := do
  let t ← c.pairings.foldlM (markLetter u) (.blank u.length)
  (List.range (u.length - 1)).foldlM (c.markDiagonal u.length) t

/-- Whether the start symbol derives the sentence. -/
def tabulate (u : Sentence) : Option Bool :=
  match u.length with
  | 0 => return c.erasable
  | n + 1 => do
    let t ← c.fillTable u
    return c.start ∈ (← t.cell? 0 n)

end NormalForm

end ChomskyForm
