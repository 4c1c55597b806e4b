import ChomskyForm.OrderedSet
import ChomskyForm.NameSupply

/-!
# Fresh names by trial

A `NameSupply` looks for the next free number among as many candidates as are certain to hold
one. A `NameCounter` tries the number that comes next, and goes on to the one after it if the
name is taken (`NameCounter.draw`). The taken texts are kept in a set.

The given number of trials may be too small for a draw. Then there is no answer.
-/

namespace ChomskyForm

/-- The next number to try, the texts that may not be issued, and what was issued so far. -/
structure NameCounter where
  stem : Name
  next : Nat
  taken : OrderedSet String
  issued : List NonTerminal
  deriving DecidableEq

namespace NameCounter

/-- A counter that has issued nothing. -/
def avoiding (stem : Name) (taken : List String) : NameCounter := ⟨stem, 0, .ofList taken, []⟩

/-- Count on until a name is not taken, at most `n` times, and issue it. -/
def draw : Nat → NameCounter → Option (NonTerminal × NameCounter)
  | 0, _ => none
  | n + 1, c =>
    let X := c.stem.numbered c.next
    let c := { c with next := c.next + 1 }
    if X.text ∈ c.taken then draw n c
    else some (X, { c with taken := c.taken.insert X.text, issued := c.issued ++ [X] })

/-- Draw `n` names, with the given number of trials for each. -/
def drawMany (trials : Nat) : Nat → NameCounter → Option (List NonTerminal × NameCounter)
  | 0, c => return ([], c)
  | n + 1, c => do
    let (X, c) ← draw trials c
    let (Xs, c) ← drawMany trials n c
    return (X :: Xs, c)

end NameCounter

end ChomskyForm
