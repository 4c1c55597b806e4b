import ChomskyForm.Grammar

/-!
# Recognition with any grammar

A `Fact` says that a non-terminal derives the part of a sentence between two positions. A
chart is a set of facts. `Chart.grow` adds all that one production shows with the facts at
hand : `Chart.reach` walks along a right-hand side and keeps the positions at which the
walk can stand. A chart that no longer grows holds every true fact, and there are only as
many facts as left-hand sides and pairs of positions, so that many rounds are enough.

`Grammar.recognizes` works for every grammar, also with empty productions and cycles.
-/

namespace ChomskyForm

/-- The symbol derives the letters from position `first` up to position `last`. -/
structure Fact where
  first : Nat
  last : Nat
  symbol : NonTerminal
  deriving DecidableEq

/-- The facts known so far. -/
abbrev Chart := OrderedSet Fact

namespace Chart

/-- Where `A` can end that begins at `i`. -/
def ends (c : Chart) (A : NonTerminal) (i : Nat) : List Nat :=
  (c.toList.filter fun f => f.first = i && f.symbol = A).map Fact.last

/-- Where a symbol can end that begins at `i`. -/
def advance (c : Chart) (u : Sentence) : Symbol → Nat → List Nat
  | .terminal t, i => if u[i]? = some t.text then [i + 1] else []
  | .nonTerminal A, i => c.ends A i

/-- Where a word can end that begins at one of the given positions. -/
def reach (c : Chart) (u : Sentence) : Word → List Nat → List Nat
  | [], is => is
  | s :: w, is => reach c u w (is.flatMap (c.advance u s)).eraseDups

/-- The facts that the alternatives of one left-hand side show. -/
def entryFacts (c : Chart) (u : Sentence) (e : NonTerminal × OrderedSet Word) : List Fact :=
  (List.range (u.length + 1)).flatMap fun i =>
    e.2.toList.flatMap fun w => (c.reach u w [i]).map fun j => ⟨i, j, e.1⟩

/-- Add the facts that one production shows. -/
def grow (c : Chart) (p : Productions) (u : Sentence) : Chart :=
  c.insertAll (p.entries.flatMap (c.entryFacts u))

/-- Grow at most `n` times, and stop when nothing is added. -/
def saturate (p : Productions) (u : Sentence) : Nat → Chart → Chart
  | 0, c => c
  | n + 1, c =>
    let d := c.grow p u
    if d.size = c.size then c else saturate p u n d

end Chart

namespace Grammar

/-- All facts about the sentence. -/
def chart (g : Grammar) (u : Sentence) : Chart :=
  Chart.saturate g.productions u
    (g.productions.size * ((u.length + 1) * (u.length + 1)) + 1) .empty

/-- Whether the start symbol derives the sentence. -/
def recognizes (g : Grammar) (u : Sentence) : Bool := ⟨0, u.length, g.start⟩ ∈ g.chart u

end Grammar

end ChomskyForm
