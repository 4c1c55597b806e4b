import ChomskyForm.Isolation
import ChomskyForm.Rewriting

/-!
# Isolation with a table that grows

`Grammar.isolate` lists the crowded terminals before it draws a name for any of them. Here
helpers are drawn while the productions are being rewritten. A `HelperTable` goes from
symbol to symbol, from word to word and from one left-hand side to the next : a terminal
that is in it has its helper already, and one that is not is entered with a fresh name
(`HelperTable.helper`). So a word is rewritten with what the table holds by then. At the end of
all productions the table itself is read off, entry by entry.
-/

namespace ChomskyForm

/-- The helpers issued so far, in order, and the supply that the next one comes from. -/
structure HelperTable where
  helpers : List (Terminal × NonTerminal)
  supply : NameSupply
  deriving DecidableEq

namespace HelperTable

/-- The helper of a terminal, which is a fresh name if it has none yet. -/
def helper (T : HelperTable) (t : Terminal) : NonTerminal × HelperTable :=
  match T.helpers.find? fun h => h.1 = t with
  | some h => (h.2, T)
  | none =>
    let (X, supply) := T.supply.issue
    (X, ⟨T.helpers ++ [(t, X)], supply⟩)

/-- Replace the terminals of a word, from left to right. -/
def replace : Word → HelperTable → Word × HelperTable
  | [], T => ([], T)
  | .terminal t :: w, T =>
    let (X, T) := T.helper t
    let (w, T) := replace w T
    (.nonTerminal X :: w, T)
  | .nonTerminal A :: w, T =>
    let (w, T) := replace w T
    (.nonTerminal A :: w, T)

/-- Rewrite a right-hand side. One that is short is left as it is. -/
def rewrite (T : HelperTable) (w : Word) : Word × HelperTable :=
  if w.length < 2 then (w, T) else replace w T

end HelperTable

/-- Give every terminal a helper when it is first met in a long word. -/
def Grammar.isolateInTurn (g : Grammar) (s : NameSupply) : Isolation :=
  let (p, T) := Productions.rewriteEntries HelperTable.rewrite g.productions.entries .empty ⟨[], s⟩
  ⟨T.helpers, g.withProductions (p.insertAll (T.helpers.map helperEntry)), T.supply⟩

end ChomskyForm
