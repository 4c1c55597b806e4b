import ChomskyForm.Erasure

/-!
# Variants from columns

`Word.variants` leaves symbols out by recursion on the word. Here each symbol has a column of
what may stand in its place : the symbol itself and, if it is erasable, a gap. The rows of all
columns (`rows`), with the gaps closed, are the variants.

The variants of one alternative after another are added to a set, which goes into the map of
productions unless it is empty.
-/

namespace ChomskyForm

/-- One entry of each column, in all ways. What comes from the last column changes fastest. -/
def rows {α : Type} : List (List α) → List (List α)
  | [] => [[]]
  | column :: columns => column.flatMap fun a => (rows columns).map (a :: ·)

/-- Whether the symbol is an erasable non-terminal. -/
def Symbol.isErasable (erasable : List NonTerminal) : Symbol → Bool
  | .terminal _ => false
  | .nonTerminal A => A ∈ erasable

/-- What may stand in the place of a symbol. -/
def Symbol.column (erasable : List NonTerminal) (a : Symbol) : List (Option Symbol) :=
  if a.isErasable erasable then [some a, none] else [some a]

/-- The rows of a word's columns, with the gaps closed. -/
def Word.closedRows (erasable : List NonTerminal) (w : Word) : List Word :=
  (rows (w.map (Symbol.column erasable))).map fun row => row.filterMap id

namespace Grammar

/-- The non-empty variants of some alternatives, added to a set word by word. -/
def collectRows (erasable : List NonTerminal) (ws : List Word) : OrderedSet Word :=
  (ws.filter fun w => !w.isEmpty).foldl
    (fun vs w => vs.insertAll ((w.closedRows erasable).filter fun v => !v.isEmpty)) .empty

/-- Remove empty productions from one left-hand side after another. -/
def removeErasingInTurn (g : Grammar) (e : EmptySentence) : Grammar :=
  let erasable := g.nullable
  g.withProductions <| g.productions.entries.foldl (fun p entry =>
    let short := collectRows erasable entry.2.toList
    let kept := if g.keepsEmpty e erasable entry.1 then short.insert [] else short
    p.insert? entry.1 kept.nonempty?) .empty

end Grammar

end ChomskyForm
