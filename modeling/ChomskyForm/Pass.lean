import ChomskyForm.Erasure
import ChomskyForm.UnitClosure
import ChomskyForm.Isolation
import ChomskyForm.Chain

/-!
# Passes in any order

A `Pass` is one of the four transformations that make up a conversion. Passes can be run
one after another in any order. `Progress` is what goes from one to the next : the grammar
and the supply of fresh names.
-/

namespace ChomskyForm

/-- A transformation of grammars. -/
inductive Pass where
  | removeErasing (e : EmptySentence)
  | removeUnits
  | isolate
  | binarize
  deriving DecidableEq

/-- A grammar with the supply that its next pass draws from. -/
structure Progress where
  grammar : Grammar
  supply : NameSupply
  deriving DecidableEq

namespace Progress

/-- A grammar with its own supply. -/
def start (g : Grammar) : Progress := ⟨g, g.supply⟩

/-- Run one pass. -/
def apply (s : Progress) : Pass → Progress
  | .removeErasing e => { s with grammar := s.grammar.removeErasing e }
  | .removeUnits => { s with grammar := s.grammar.removeUnits }
  | .isolate =>
    let i := s.grammar.isolate s.supply
    ⟨i.grammar, i.supply⟩
  | .binarize =>
    let b := s.grammar.binarize s.supply
    ⟨b.grammar, b.supply⟩

/-- Run passes one after another. -/
def run (s : Progress) (passes : List Pass) : Progress := passes.foldl apply s

end Progress

end ChomskyForm
