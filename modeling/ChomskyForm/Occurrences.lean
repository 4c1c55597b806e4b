import ChomskyForm.Nullable

/-!
# The search for nullable non-terminals with an index

`Grammar.nullable` goes through all productions for those in which a non-terminal occurs.
Here they are looked up in an index that is made beforehand (`Occurrences.ofRules`). A
production is listed once for each occurrence, so that one with a repeated symbol is visited
several times in a row.

`Worklist.drain` follows up the stack until it is empty, and tells which non-terminals it
took from it. There is no answer if the stack is not empty after the given number of steps.
-/

namespace ChomskyForm

/-- The productions in which each non-terminal occurs, one for each occurrence. -/
abbrev Occurrences := OrderedMap NonTerminal (List Rule)

namespace Occurrences

/-- The productions in which `A` occurs. -/
def listed (m : Occurrences) (A : NonTerminal) : List Rule := (m.find? A).getD []

/-- List the production under each non-terminal of the word. -/
def enter (r : Rule) : Word → Occurrences → Occurrences
  | [], m => m
  | .terminal _ :: w, m => enter r w m
  | .nonTerminal A :: w, m => enter r w (m.insert A (m.listed A ++ [r]))

/-- The index of some productions. -/
def ofRules (rules : List Rule) : Occurrences := rules.foldl (fun m r => enter r r.2 m) .empty

end Occurrences

/-- Follow up the stack until it is empty, at most `n` times. The names that were taken from
the stack come first, in order. -/
def Worklist.drain (m : Occurrences) : Nat → Worklist → Option (List NonTerminal × Worklist)
  | _, ⟨found, []⟩ => return ([], ⟨found, []⟩)
  | 0, ⟨_, _ :: _⟩ => none
  | n + 1, ⟨found, A :: stack⟩ => do
    let (popped, l) ← drain m n ((m.listed A).foldl visit ⟨found, stack⟩)
    return (A :: popped, l)

/-- The non-terminals taken from the stack, and those found, with a step for each left-hand
side. -/
def Grammar.searchNullable (g : Grammar) : Option (List NonTerminal × List NonTerminal) := do
  let (popped, l) ← Worklist.drain (.ofRules g.rules) g.productions.size (.seed g.rules)
  return (popped, l.found.map Prod.fst)

end ChomskyForm
