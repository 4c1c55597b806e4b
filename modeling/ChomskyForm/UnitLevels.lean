import ChomskyForm.UnitClosure

/-!
# The unit closure, searched until nothing is new

`Grammar.unitClosure` makes as many rounds as there are left-hand sides. Here a search is over
when a round finds nothing new (`Grammar.mergeLevels`). A round first merges the last level into
the closure. Then it goes through the members of the level and their alternatives, and collects
what unit productions lead to and the closure does not hold yet.

The given number of rounds may be too small for a search. Then there is no answer.
-/

namespace ChomskyForm

namespace Grammar

/-- Collect what the word leads to if it is a unit, unless the closure holds it. -/
def collectUnit (closure next : OrderedSet NonTerminal) (w : Word) : OrderedSet NonTerminal :=
  match w.unit? with
  | some B => if B ∈ closure then next else next.insert B
  | none => next

/-- Collect what the alternatives of `A` lead to. It need not have any. -/
def collectUnits (g : Grammar) (closure next : OrderedSet NonTerminal) (A : NonTerminal) :
    OrderedSet NonTerminal :=
  match g.productions.find? A with
  | some ws => ws.toList.foldl (collectUnit closure) next
  | none => next

/-- Merge a level into the closure and go on with what is new, in at most `n` rounds. -/
def mergeLevels (g : Grammar) : Nat → OrderedSet NonTerminal → OrderedSet NonTerminal →
    Option (OrderedSet NonTerminal)
  | 0, _, _ => none
  | n + 1, closure, level =>
    let closure := closure.insertAll level.toList
    let next := level.toList.foldl (g.collectUnits closure) .empty
    if next.toList.isEmpty then some closure else g.mergeLevels n closure next

/-- The search from `A`, in at most `n` rounds. -/
def searchUnits (g : Grammar) (A : NonTerminal) (n : Nat) : Option (OrderedSet NonTerminal) :=
  g.mergeLevels n .empty (.singleton A)

end Grammar

end ChomskyForm
