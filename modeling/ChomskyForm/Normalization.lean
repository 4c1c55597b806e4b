import ChomskyForm.Erasure
import ChomskyForm.UnitClosure
import ChomskyForm.Isolation
import ChomskyForm.Chain
import ChomskyForm.Presentation
import ChomskyForm.BoxTable

/-!
# Conversion to Chomsky normal form

`Grammar.normalize` runs the four passes and keeps every grammar on the way. The order of
the passes matters : unit productions can be removed once empty productions are gone, and
terminals are isolated before long words are split, so that no link stands next to a
terminal. The fresh names come from a supply that avoids all names of the grammar.
-/

namespace ChomskyForm

/-- A conversion with its intermediate grammars. -/
structure Normalization where
  source : Grammar
  withoutErasing : Grammar
  withoutUnits : Grammar
  isolation : Isolation
  binarization : Binarization
  result : NormalForm
  deriving DecidableEq

/-- Convert to Chomsky normal form. -/
def Grammar.normalize (g : Grammar) (e : EmptySentence) : Except Fault Normalization :=
  let withoutErasing := g.removeErasing e
  let withoutUnits := withoutErasing.removeUnits
  let isolation := withoutUnits.isolate g.supply
  let binarization := isolation.grammar.binarize isolation.supply
  match NormalForm.ofGrammar binarization.grammar with
  | .ok result => .ok ⟨g, withoutErasing, withoutUnits, isolation, binarization, result⟩
  | .error fault => .error fault

/-- The normal form of a grammar, the empty sentence retained. -/
def Grammar.toNormalForm (g : Grammar) : Except Fault NormalForm :=
  match g.normalize .retain with
  | .ok n => .ok n.result
  | .error fault => .error fault

namespace Normalization

/-- The non-terminals that were introduced, in the order in which they were issued. -/
def introduced (n : Normalization) : List NonTerminal := n.binarization.supply.issued

/-- The intermediate grammars with their labels. -/
def stages (n : Normalization) : List (String × Grammar) :=
  [("original", n.source),
   ("without ε productions", n.withoutErasing),
   ("without unit productions", n.withoutUnits),
   ("isolated terminals", n.isolation.grammar),
   ("binarized", n.binarization.grammar)]

/-- A label with the sizes of the alphabets and the number of productions. -/
def sizeRow (label : String) (p : Presentation) : List String :=
  [label, toString p.nonTerminals.size, toString p.terminals.size, toString p.rules.length]

/-- The sizes of all stages and of the result. -/
def sizeRows (n : Normalization) : List (List String) :=
  (n.stages.map fun (label, g) => sizeRow label g.presentation) ++
    [sizeRow "Chomsky normal form" n.result.presentation]

/-- A table of the sizes. -/
def summary (n : Normalization) : String :=
  boxTable ["stage", "non-terminals", "terminals", "productions"] n.sizeRows

end Normalization

end ChomskyForm
