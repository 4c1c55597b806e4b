import ChomskyForm.NormalForm

/-!
# Recognition with a grammar in normal form

The Cocke–Younger–Kasami table has a row for each length and in it a cell for each part of
the sentence of that length, by first letter. A cell holds the non-terminals that derive
its part. The first row holds those with a matching terminal, and in a later row a
production `A → B C` puts `A` where the part splits into one with `B` and one with `C`.

`NormalForm.recognizes` looks into the only cell of the last row. The empty sentence has
no table, and the flag of the grammar decides.
-/

namespace ChomskyForm

/-- The rows of a table, the shortest parts first. -/
abbrev SpanTable := List (List (List NonTerminal))

/-- The cell for the part of `k + 1` letters that begins at `i`. -/
def SpanTable.cell (rows : SpanTable) (k i : Nat) : List NonTerminal :=
  ((rows[k]?.getD [])[i]?).getD []

namespace NormalWord

/-- Whether the word is the letter. -/
def isLetter (a : String) : NormalWord → Bool
  | terminal t => t.text = a
  | pair _ _ => false

/-- Whether the word is a pair of a member of the first cell and one of the second. -/
def joins (left right : List NonTerminal) : NormalWord → Bool
  | terminal _ => false
  | pair A B => A ∈ left && B ∈ right

end NormalWord

namespace NormalForm

/-- The left-hand sides with an alternative that satisfies `p`. -/
def headsWith (c : NormalForm) (p : NormalWord → Bool) : List NonTerminal :=
  (c.productions.entries.filter fun e => e.2.toList.any p).map Prod.fst

/-- The cell that follows from rows `0` to `k`, for `k + 2` letters from `i` on. -/
def nextCell (c : NormalForm) (rows : SpanTable) (k i : Nat) : List NonTerminal :=
  c.headsWith fun w => (List.range (k + 1)).any fun m =>
    w.joins (rows.cell m i) (rows.cell (k - m) (i + m + 1))

/-- Rows `0` to `k` of the table. -/
def spanTable (c : NormalForm) (u : Sentence) : Nat → SpanTable
  | 0 => [u.map fun a => c.headsWith (NormalWord.isLetter a)]
  | k + 1 =>
    let rows := c.spanTable u k
    rows ++ [(List.range (u.length - (k + 1))).map (c.nextCell rows k)]

/-- Whether the start symbol derives the sentence. -/
def recognizes (c : NormalForm) (u : Sentence) : Bool :=
  match u.length with
  | 0 => c.erasable
  | n + 1 => c.start ∈ (c.spanTable u n).cell n 0

end NormalForm

end ChomskyForm
