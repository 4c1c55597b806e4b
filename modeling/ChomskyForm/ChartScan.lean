import ChomskyForm.Chart

/-!
# Filling a chart in place

`Grammar.scan` is another way to a chart. It goes through the left-hand sides and all parts
of the sentence, adds a fact as soon as some alternative shows it, and sees the fact from
then on. It starts over until a whole round has added nothing (`Chart.fill`). An alternative
is tried with every way to divide a part among its symbols (`Chart.fits?`).

A letter is looked up by its position, and a scan is over only when a round adds nothing. So
a scan need not have an answer : `none` is a letter beyond the sentence, or a chart that has
not settled after as many rounds as there can be facts, and one more.
-/

namespace ChomskyForm

/-- A chart in the making, and whether this round has added to it. -/
structure Filling where
  chart : Chart
  changed : Bool
  deriving DecidableEq

namespace Chart

variable (c : Chart) (u : Sentence)

/-- Whether the symbol fits the letters from position `i` up to position `m`. -/
def fitsSymbol? (i m : Nat) : Symbol → Option Bool
  | .terminal t => if m = i + 1 then u[i]?.map fun a => a = t.text else some false
  | .nonTerminal A => some (⟨i, m, A⟩ ∈ c)

/-- Whether the word fits the letters from position `i` up to position `j`. Its first
symbol may end anywhere between them. -/
def fits? (j : Nat) : Word → Nat → Option Bool
  | [], i => some (i = j)
  | a :: w, i => (List.range' i (j + 1 - i)).anyM fun m => do
    if ← c.fitsSymbol? u i m a then fits? j w m else return false

/-- The first and the last position of every part of the sentence. -/
def parts : List (Nat × Nat) :=
  (List.range (u.length + 1)).flatMap fun i => (List.range' i (u.length + 1 - i)).map (i, ·)

/-- Add the fact that a left-hand side derives a part, unless it is known or no alternative
shows it. -/
def visit (e : NonTerminal × OrderedSet Word) (s : Filling) (part : Nat × Nat) :
    Option Filling := do
  let f : Fact := ⟨part.1, part.2, e.1⟩
  if f ∈ s.chart then return s
  else if ← e.2.toList.anyM fun w => s.chart.fits? u part.2 w part.1 then
    return ⟨s.chart.insert f, true⟩
  else return s

/-- Visit every left-hand side with every part. -/
def round (p : Productions) : Option Filling :=
  p.entries.foldlM (fun s e => (parts u).foldlM (visit u e) s) ⟨c, false⟩

/-- Go round until nothing is added, at most `n` times. -/
def fill (p : Productions) (u : Sentence) : Nat → Chart → Option Chart
  | 0, _ => none
  | n + 1, c => do
    let s ← c.round u p
    if s.changed then fill p u n s.chart else return s.chart

end Chart

/-- Whether the start symbol derives the sentence. -/
def Grammar.scan (g : Grammar) (u : Sentence) : Option Bool := do
  let facts := g.productions.size * ((u.length + 1) * (u.length + 1))
  let c ← Chart.fill g.productions u (facts + 1) .empty
  return ⟨0, u.length, g.start⟩ ∈ c

end ChomskyForm
