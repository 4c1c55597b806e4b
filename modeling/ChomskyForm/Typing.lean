import ChomskyForm.NormalForm

/-!
# Typing in one pass

`NormalForm.ofGrammar` looks through all productions for one that does not fit, and types them
if there is none. Here each production is typed when it is met, and the first that does not fit
ends the pass. The empty production of the start symbol is noted on the way.
-/

namespace ChomskyForm

namespace NormalForm

/-- Type an alternative of `A` and add it to those before. The flag notes the empty production
of the start symbol. -/
def typeWord (start A : NonTerminal) (s : Bool × OrderedSet NormalWord) (w : Word) :
    Except Fault (Bool × OrderedSet NormalWord) :=
  if w = [] ∧ A = start then .ok (true, s.2)
  else match NormalWord.ofWord w with
    | .ok v => .ok (s.1, s.2.insert v)
    | .error misfit => .error (.notNormal A w misfit)

/-- Type the alternatives of one left-hand side, which is left out if it has none any more. -/
def typeEntry (start : NonTerminal) (s : Bool × OrderedMap NonTerminal (OrderedSet NormalWord))
    (e : NonTerminal × OrderedSet Word) :
    Except Fault (Bool × OrderedMap NonTerminal (OrderedSet NormalWord)) := do
  let (erasable, vs) ← e.2.toList.foldlM (typeWord start e.1) (s.1, .empty)
  return (erasable, s.2.insert? e.1 vs.nonempty?)

/-- The grammar typed production by production, or the first production that does not fit. -/
def ofGrammarInTurn (g : Grammar) : Except Fault NormalForm := do
  let (erasable, productions) ← g.productions.entries.foldlM (typeEntry g.start) (false, .empty)
  return ⟨g.start, erasable, g.nonTerminals, g.terminals, productions⟩

end NormalForm

end ChomskyForm
