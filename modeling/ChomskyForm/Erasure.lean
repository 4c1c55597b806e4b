import ChomskyForm.Nullable

/-!
# Removal of empty productions

A non-terminal that derives the empty word may as well be left out. So each production is
replaced by all its variants with some of these symbols left out (`Word.variants`), the
empty variant is dropped, and so is a left-hand side that has no other
(`Grammar.removeErasing`). A word with `k` such positions has `2 ^ k` variants.

The empty sentence is the exception : `EmptySentence.retain` keeps it by one empty
production of the start symbol, the last of its alternatives.
-/

namespace ChomskyForm

/-- What becomes of the empty sentence if the start symbol derives it. -/
inductive EmptySentence where
  | retain
  | drop
  deriving DecidableEq

/-- The word with each subset of its erasable symbols left out. Variants that keep the
first symbol come first. -/
def Word.variants (erasable : List NonTerminal) : Word → List Word
  | [] => [[]]
  | .terminal t :: w => (variants erasable w).map (.terminal t :: ·)
  | .nonTerminal A :: w =>
    (variants erasable w).map (.nonTerminal A :: ·) ++
      if A ∈ erasable then variants erasable w else []

namespace Grammar

/-- The non-empty variants of some alternatives, each at its first occurrence. -/
def shortenings (erasable : List NonTerminal) (ws : OrderedSet Word) : OrderedSet Word :=
  .ofList ((ws.toList.flatMap (Word.variants erasable)).filter fun w => !w.isEmpty)

/-- Whether `A` keeps an empty alternative. -/
def keepsEmpty (g : Grammar) (e : EmptySentence) (erasable : List NonTerminal)
    (A : NonTerminal) : Bool :=
  A = g.start ∧ e = .retain ∧ A ∈ erasable

/-- The same sentences without empty productions, but for the start symbol's. -/
def removeErasing (g : Grammar) (e : EmptySentence) : Grammar :=
  let erasable := g.nullable
  g.withProductions <| g.productions.filterMap fun A ws =>
    let short := shortenings erasable ws
    (if g.keepsEmpty e erasable A then short.insert [] else short).nonempty?

end Grammar

end ChomskyForm
