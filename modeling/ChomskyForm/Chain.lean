import ChomskyForm.NameSupply

/-!
# Chains

A right-hand side of more than two symbols is split into a chain that branches to the
right : `A → a b c d` becomes `A → a X`, `X → b Y`, `Y → c d`, where `X` and `Y`, the
links, are fresh non-terminals. A word of `n` symbols takes `n - 2` links (`Word.linkCount`),
and no link is shared between words.

`Grammar.binarize` splits every production. The links are issued in the order of the
productions, and their own productions follow those of the grammar.
-/

namespace ChomskyForm

/-- What binarization did. -/
structure Binarization where
  /-- Each link with its production, in the order in which they were issued. -/
  links : List (NonTerminal × Word)
  grammar : Grammar
  supply : NameSupply
  deriving DecidableEq

namespace Word

/-- How many links the word takes. -/
def linkCount (w : Word) : Nat := w.length - 2

/-- What is left of a word when its chain takes the given links. -/
def chainHead : Word → List NonTerminal → Word
  | s :: _ :: _ :: _, X :: _ => [s, .nonTerminal X]
  | w, _ => w

/-- The links of a word's chain, from left to right. -/
def chainLinks : Word → List NonTerminal → List (NonTerminal × Word)
  | _ :: t :: u :: w, X :: Xs => (X, chainHead (t :: u :: w) Xs) :: chainLinks (t :: u :: w) Xs
  | _, _ => []

/-- What is left of each word, the links dealt out from left to right. -/
def chainHeads : List Word → List NonTerminal → List Word
  | [], _ => []
  | w :: ws, Xs => w.chainHead Xs :: chainHeads ws (Xs.drop w.linkCount)

/-- The links of all words, dealt out from left to right. -/
def allLinks : List Word → List NonTerminal → List (NonTerminal × Word)
  | [], _ => []
  | w :: ws, Xs => w.chainLinks Xs ++ allLinks ws (Xs.drop w.linkCount)

/-- How many links the words take together. -/
def totalLinks : List Word → Nat
  | [] => 0
  | w :: ws => w.linkCount + totalLinks ws

end Word

namespace Productions

/-- The entries with each word replaced by what its chain leaves of it. -/
def shortenEntries : List (NonTerminal × OrderedSet Word) → List NonTerminal →
    List (NonTerminal × OrderedSet Word)
  | [], _ => []
  | (A, ws) :: l, Xs =>
    (A, .ofList (Word.chainHeads ws.toList Xs)) ::
      shortenEntries l (Xs.drop (Word.totalLinks ws.toList))

theorem keys_shortenEntries : ∀ (l : List (NonTerminal × OrderedSet Word))
    (Xs : List NonTerminal), (shortenEntries l Xs).map Prod.fst = l.map Prod.fst
  | [], _ => rfl
  | (A, _) :: l, _ => congrArg (A :: ·) (keys_shortenEntries l _)

/-- Each word replaced by what its chain leaves of it. -/
def shorten (p : Productions) (Xs : List NonTerminal) : Productions :=
  ⟨shortenEntries p.entries Xs, keys_shortenEntries p.entries Xs ▸ p.nodup⟩

end Productions

/-- The production of a link. -/
def linkEntry (l : NonTerminal × Word) : NonTerminal × OrderedSet Word := (l.1, .singleton l.2)

namespace Grammar

/-- Split every right-hand side of more than two symbols. -/
def binarize (g : Grammar) (s : NameSupply) : Binarization :=
  let words := g.rules.map Prod.snd
  let (names, supply) := s.issueMany (Word.totalLinks words)
  let links := Word.allLinks words names
  { links
    grammar := g.withProductions ((g.productions.shorten names).insertAll (links.map linkEntry))
    supply }

end Grammar

end ChomskyForm
