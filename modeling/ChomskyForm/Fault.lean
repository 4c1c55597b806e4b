import ChomskyForm.Word

/-!
# What can be wrong with a grammar

A `Fault` is the reason why a draft is no grammar, or why a grammar is not in Chomsky
normal form. A `Misfit` is the reason why a single word has no place in a grammar in
normal form. Both name the symbols they are about and have a text for the reader. Faults of
one kind differ only in these symbols (`Fault.kind`).
-/

namespace ChomskyForm

/-- Why a word is neither one terminal nor two non-terminals. -/
inductive Misfit where
  /-- A single non-terminal. -/
  | unit
  /-- Two symbols, of which one is a terminal. -/
  | mixedPair
  /-- Any other length. -/
  | length
  deriving DecidableEq

/-- The text of a misfit. -/
def Misfit.message : Misfit → String
  | .unit => "Expected a terminal"
  | .mixedPair => "Expected two non-terminals"
  | .length => "CnfWord can only be created from a word with one terminal or two non-terminals"

/-- Why there is no grammar, or none in normal form. -/
inductive Fault where
  /-- Some name is empty. -/
  | emptyName
  /-- A terminal is also a non-terminal. -/
  | alphabetOverlap (symbol : Name)
  /-- A symbol has the shape of the names that conversion introduces. -/
  | reservedName (symbol stem : Name)
  /-- The start symbol has no production. -/
  | noProductions (start : Name)
  /-- The start symbol is no non-terminal. -/
  | unknownStart (start : Name)
  /-- A symbol of a production is in neither alphabet. -/
  | undefinedSymbol (symbol lhs : Name)
  /-- A production is not in Chomsky normal form. -/
  | notNormal (lhs : NonTerminal) (word : Word) (misfit : Misfit)
  deriving DecidableEq

/-- What kind of thing is wrong, whatever it is about. -/
inductive FaultKind where
  | emptyName
  | alphabetOverlap
  | reservedName
  | noProductions
  | unknownStart
  | undefinedSymbol
  | notNormal
  deriving DecidableEq

/-- The kind of a fault. -/
def Fault.kind : Fault → FaultKind
  | .emptyName => .emptyName
  | .alphabetOverlap _ => .alphabetOverlap
  | .reservedName _ _ => .reservedName
  | .noProductions _ => .noProductions
  | .unknownStart _ => .unknownStart
  | .undefinedSymbol _ _ => .undefinedSymbol
  | .notNormal _ _ _ => .notNormal

/-- The text of a fault. -/
def Fault.message : Fault → String
  | .emptyName => "symbol names must not be empty"
  | .alphabetOverlap a =>
    "symbol `" ++ a.text ++ "` is declared both as a terminal and as a non-terminal"
  | .reservedName a stem =>
    "symbol `" ++ a.text ++ "` has the shape `" ++ stem.text ++
      "<n>` reserved for introduced non-terminals"
  | .noProductions S => "no productions for the start symbol `" ++ S.text ++ "`"
  | .unknownStart S =>
    "start symbol `" ++ S.text ++ "` is not a non-terminal of the grammar"
  | .undefinedSymbol a A =>
    "symbol `" ++ a.text ++ "` in a production of `" ++ A.text ++
      "` is neither a terminal nor a non-terminal"
  | .notNormal A w misfit =>
    "production `" ++ A.text ++ " → " ++ w.text ++
      "` is not in Chomsky normal form: " ++ misfit.message

end ChomskyForm
