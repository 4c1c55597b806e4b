import ChomskyForm.Chain
import ChomskyForm.Rewriting

/-!
# Chains whose links are drawn on the way

`Grammar.binarize` counts the links of all words before it draws a name for any of them. Here a
name is drawn where a chain goes on. A word gives up its first symbol, which is left with a
fresh link, and the rest is laid out under that link (`ChainTable.lay`) : while more than two
symbols remain, the first of them goes with another link.

The productions of the links are kept in a map of their own, a `ChainTable`, and follow those of
the grammar at the end.
-/

namespace ChomskyForm

/-- The productions of the links so far, and the supply that the next link comes from. -/
structure ChainTable where
  chains : Productions
  supply : NameSupply
  deriving DecidableEq

namespace ChainTable

/-- Lay out the rest of a word under the link `X`. -/
def lay : NonTerminal → Word → ChainTable → ChainTable
  | X, a :: b :: c :: w, T =>
    let (Y, supply) := T.supply.issue
    lay Y (b :: c :: w) ⟨T.chains.insert X (.singleton [a, .nonTerminal Y]), supply⟩
  | X, w, T => { T with chains := T.chains.insert X (.singleton w) }

/-- Split a right-hand side. One of up to two symbols is left as it is. -/
def split (T : ChainTable) : Word → Word × ChainTable
  | a :: b :: c :: w =>
    let (X, supply) := T.supply.issue
    ([a, .nonTerminal X], lay X (b :: c :: w) { T with supply := supply })
  | w => (w, T)

end ChainTable

/-- Split every right-hand side of more than two symbols when it is met. -/
def Grammar.binarizeInTurn (g : Grammar) (s : NameSupply) : Binarization :=
  let (p, T) := Productions.rewriteEntries ChainTable.split g.productions.entries .empty ⟨.empty, s⟩
  ⟨T.chains.rules, g.withProductions (p.insertAll T.chains.entries), T.supply⟩

end ChomskyForm
