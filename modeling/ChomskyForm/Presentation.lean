import ChomskyForm.NormalForm

/-!
# Grammars as text

A `Presentation` is what a grammar shows of itself, whether or not it is in normal form :
the start symbol, the alphabets and the list of productions. There are two texts of it.

* `Presentation.listing` has one line for each production, in order.
* `Presentation.definition` has a header with the alphabets, the start symbol first and
  all else sorted, and one line for each left-hand side, sorted too. The alternatives of
  a left-hand side stay in order.
-/

namespace ChomskyForm

/-- What a grammar shows of itself. -/
structure Presentation where
  start : NonTerminal
  nonTerminals : OrderedSet NonTerminal
  terminals : OrderedSet Terminal
  rules : List Rule
  deriving DecidableEq

/-- A grammar as it is shown. -/
def Grammar.presentation (g : Grammar) : Presentation :=
  ⟨g.start, g.nonTerminals, g.terminals, g.rules⟩

/-- A grammar in normal form as it is shown. -/
def NormalForm.presentation (c : NormalForm) : Presentation :=
  ⟨c.start, c.nonTerminals, c.terminals, c.rules⟩

namespace Presentation

/-- A line of a listing. -/
def listingLine (r : Rule) : String := r.1.text ++ " -> " ++ r.2.text ++ "\n"

/-- One line for each production. -/
def listing (p : Presentation) : String := String.join (p.rules.map listingLine)

/-- Names in alphabetical order. -/
def sortNames (l : List Name) : List Name := l.mergeSort fun a b => a ≤ b

/-- `S` if it is there, then the other names in alphabetical order. -/
def sortNamesAfter (S : Name) (l : List Name) : List Name :=
  l.filter (· = S) ++ sortNames (l.filter (· ≠ S))

/-- The left-hand sides in alphabetical order. -/
def sortedHeads (p : Presentation) : List NonTerminal :=
  sortNames (OrderedSet.ofList (p.rules.map Prod.fst)).toList

/-- The right-hand sides of `A`, in order. -/
def wordsOf (p : Presentation) (A : NonTerminal) : List Word :=
  (p.rules.filter fun r => r.1 = A).map Prod.snd

/-- Names with commas between them. -/
def commaSeparated (l : List Name) : String := ", ".intercalate (l.map Name.text)

/-- A line with all alternatives of a left-hand side. -/
def alternativesLine (head : String) (alternatives : List String) : String :=
  "  " ++ head ++ " → " ++ " | ".intercalate alternatives ++ "\n"

/-- The line of a left-hand side. -/
def definitionLine (p : Presentation) (A : NonTerminal) : String :=
  alternativesLine A.text ((p.wordsOf A).map Word.text)

/-- A quadruple with its names in the given orders, and the given lines below it. -/
def layout (start : NonTerminal) (nonTerminals : List NonTerminal) (terminals : List Terminal)
    (lines : List String) : String :=
  "G = (\x7b" ++ commaSeparated nonTerminals ++ "\x7d, \x7b" ++ commaSeparated terminals ++
    "\x7d, P, " ++ start.text ++ ")\n\n" ++
    "P = \x7b\n" ++ String.join lines ++ "\x7d\n"

/-- The grammar as a quadruple, with its productions below. -/
def definition (p : Presentation) : String :=
  layout p.start (sortNamesAfter p.start p.nonTerminals.toList) (sortNames p.terminals.toList)
    (p.sortedHeads.map p.definitionLine)

end Presentation

end ChomskyForm
