import ChomskyForm.Grammar

/-!
# Rewriting right-hand sides in turn

A pass may need something to go with it from word to word, from alternative to alternative and
from one left-hand side to the next. `Productions.rewriteEntries` rewrites each right-hand side
with the state that the ones before it have left. The alternatives of a left-hand side go into
a set one after another, and the sets into a map.
-/

namespace ChomskyForm

namespace Productions

variable {σ : Type} (f : σ → Word → Word × σ)

/-- Rewrite alternatives one after another, and add them to a set. -/
def rewriteAll : List Word → OrderedSet Word → σ → OrderedSet Word × σ
  | [], vs, s => (vs, s)
  | w :: ws, vs, s =>
    let (v, s) := f s w
    rewriteAll ws (vs.insert v) s

/-- Rewrite the alternatives of one left-hand side after another, and add them to a map. -/
def rewriteEntries :
    List (NonTerminal × OrderedSet Word) → Productions → σ → Productions × σ
  | [], p, s => (p, s)
  | (A, ws) :: l, p, s =>
    let (vs, s) := rewriteAll f ws.toList .empty s
    rewriteEntries l (p.insert A vs) s

end Productions

end ChomskyForm
