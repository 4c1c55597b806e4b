import ChomskyForm.Grammar

/-!
# Non-terminals that derive the empty word

`Grammar.nullable` lists the non-terminals that derive the empty word in the order in
which they are found. The search keeps a stack of found non-terminals that wait to be
followed up. It starts from the empty productions. Each step takes the top of the stack
and visits the productions in which it occurs : a left-hand side not found so far is found
if every symbol of the production is. A non-terminal enters the stack once, so as many
steps as there are left-hand sides empty it.

`Grammar.erasureProofs` keeps with each non-terminal the production that showed it.
-/

namespace ChomskyForm

/-- Progress of the search. -/
structure Worklist where
  /-- One production for each non-terminal found, oldest first. -/
  found : List Rule
  /-- Those found and not followed up, the youngest first. -/
  stack : List NonTerminal
  deriving DecidableEq

namespace Worklist

/-- Nothing found. -/
def blank : Worklist := ⟨[], []⟩

/-- Whether `A` was found. -/
def knows (l : Worklist) (A : NonTerminal) : Bool := A ∈ l.found.map Prod.fst

/-- Whether the symbol is a non-terminal that was found. -/
def erases (l : Worklist) : Symbol → Bool
  | .terminal _ => false
  | .nonTerminal A => l.knows A

/-- Find the left-hand side, if it is new and every symbol of the right-hand side is found. -/
def visit (l : Worklist) (r : Rule) : Worklist :=
  if !l.knows r.1 && r.2.all l.erases then ⟨l.found ++ [r], r.1 :: l.stack⟩ else l

/-- What the empty productions show. -/
def seed (rules : List Rule) : Worklist :=
  (rules.filter fun r => r.2.isEmpty).foldl visit blank

/-- Follow up the top of the stack. -/
def pop (rules : List Rule) (l : Worklist) : Worklist :=
  match l.stack with
  | [] => l
  | A :: stack =>
    (rules.filter fun r => .nonTerminal A ∈ r.2).foldl visit { l with stack := stack }

/-- Follow up the stack, `n` times. -/
def run (rules : List Rule) : Nat → Worklist → Worklist
  | 0, l => l
  | n + 1, l => run rules n (l.pop rules)

end Worklist

namespace Grammar

/-- For each non-terminal that derives the empty word, the production that showed it. -/
def erasureProofs (g : Grammar) : List Rule :=
  ((Worklist.seed g.rules).run g.rules g.productions.size).found

/-- The non-terminals that derive the empty word, in the order of their discovery. -/
def nullable (g : Grammar) : List NonTerminal := g.erasureProofs.map Prod.fst

end Grammar

end ChomskyForm
