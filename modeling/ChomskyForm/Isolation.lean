import ChomskyForm.NameSupply

/-!
# Isolation of terminals

In Chomsky normal form a terminal stands alone. `Grammar.isolate` replaces each terminal
`t` in a right-hand side of two or more symbols by a helper, a fresh non-terminal with the
single production `X → t`. All occurrences of a terminal share one helper.
-/

namespace ChomskyForm

/-- What isolation did. -/
structure Isolation where
  /-- The helper of each terminal, in the order in which they were issued. -/
  helpers : List (Terminal × NonTerminal)
  grammar : Grammar
  supply : NameSupply
  deriving DecidableEq

/-- The terminal that the symbol is. -/
def Symbol.terminal? : Symbol → Option Terminal
  | .terminal t => some t
  | .nonTerminal _ => none

/-- The helper of a terminal that has one, else the symbol. -/
def Symbol.isolate (helpers : List (Terminal × NonTerminal)) : Symbol → Symbol
  | .terminal t =>
    match helpers.find? fun h => h.1 = t with
    | some h => .nonTerminal h.2
    | none => .terminal t
  | .nonTerminal A => .nonTerminal A

/-- Terminals replaced by their helpers, unless the word is too short to need it. -/
def Word.isolate (helpers : List (Terminal × NonTerminal)) (w : Word) : Word :=
  if w.length < 2 then w else w.map (Symbol.isolate helpers)

/-- The production of a helper. -/
def helperEntry (h : Terminal × NonTerminal) : NonTerminal × OrderedSet Word :=
  (h.2, .singleton [.terminal h.1])

namespace Grammar

/-- The terminals of right-hand sides with two or more symbols, each at its first occurrence. -/
def crowdedTerminals (g : Grammar) : OrderedSet Terminal :=
  .ofList <| (g.rules.filter fun r => 2 ≤ r.2.length).flatMap fun r =>
    r.2.filterMap Symbol.terminal?

/-- Give every crowded terminal a helper. -/
def isolate (g : Grammar) (s : NameSupply) : Isolation :=
  let terminals := g.crowdedTerminals.toList
  let (names, supply) := s.issueMany terminals.length
  let helpers := terminals.zip names
  let productions := g.productions.mapValues (OrderedSet.map (Word.isolate helpers))
  { helpers
    grammar := g.withProductions (productions.insertAll (helpers.map helperEntry))
    supply }

end Grammar

end ChomskyForm
