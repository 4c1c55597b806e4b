import ChomskyForm.Pass
import ChomskyForm.Normalization

/-!
# What a run reports

Each operation has a journal, the list of `Event`s that it reports in the order in which
they happen. A journal is read off the operation's result, so that the operations do not
have to carry it. `Event.line` is the text of an event with its level.
-/

namespace ChomskyForm

/-- Something worth reporting. -/
inductive Event where
  /-- A grammar with alphabets and productions of these sizes was built. -/
  | built (nonTerminals terminals productions : Nat)
  /-- A conversion begins. -/
  | converting (start : NonTerminal) (e : EmptySentence)
  /-- The production shows that its left-hand side derives the empty word. -/
  | nullable (r : Rule)
  /-- Empty productions were removed. -/
  | removedErasing (nullable before after : Nat)
  /-- Unit productions were removed. -/
  | removedUnits (before after : Nat)
  /-- A fresh name was issued. -/
  | issued (X : NonTerminal)
  /-- A helper was introduced for a terminal. -/
  | helper (X : NonTerminal) (t : Terminal)
  /-- Terminals were isolated. -/
  | isolated (terminals : Nat)
  /-- Long words were split. -/
  | binarized (links : Nat)
  /-- The number of productions after that. -/
  | binarizedSize (productions : Nat)
  deriving DecidableEq

/-- The name of an option in reports. -/
def EmptySentence.label : EmptySentence → String
  | .retain => "Retain"
  | .drop => "Drop"

namespace Event

/-- How important the event is. -/
def level : Event → String
  | nullable _ | issued _ | helper _ _ => "TRACE"
  | _ => "DEBUG"

/-- What happened. -/
def text : Event → String
  | built n t p =>
    "built grammar with " ++ toString n ++ " non-terminals, " ++ toString t ++
      " terminals and " ++ toString p ++ " productions"
  | converting S e =>
    "converting grammar with start symbol " ++ S.text ++ " (" ++ e.label ++ ")"
  | nullable (A, w) =>
    A.text ++ " is nullable through " ++ A.text ++ " → " ++ w.text
  | removedErasing n before after =>
    "removed ε productions: " ++ toString n ++ " nullable, " ++ toString before ++ " → " ++
      toString after ++ " productions"
  | removedUnits before after =>
    "removed unit productions: " ++ toString before ++ " → " ++ toString after ++
      " productions"
  | issued X => "issued fresh non-terminal " ++ X.text
  | helper X t => X.text ++ " stands for terminal " ++ t.text
  | isolated n => "isolated " ++ toString n ++ " terminals"
  | binarized n => "binarized with " ++ toString n ++ " chain non-terminals"
  | binarizedSize n => toString n ++ " productions after binarization"

/-- The level and what happened. -/
def line (e : Event) : String := e.level ++ " " ++ e.text

end Event

namespace Grammar

/-- The journal of building the grammar. -/
def buildJournal (g : Grammar) : List Event :=
  [.built g.nonTerminals.size g.terminals.size g.rules.length]

/-- The journal of the search for nullable non-terminals. An empty production is no news. -/
def nullableJournal (g : Grammar) : List Event :=
  (g.erasureProofs.filter fun r => !r.2.isEmpty).map .nullable

/-- The journal of the removal of empty productions. -/
def erasureJournal (g : Grammar) (e : EmptySentence) : List Event :=
  g.nullableJournal ++
    [.removedErasing g.nullable.length g.rules.length (g.removeErasing e).rules.length]

/-- The journal of the removal of unit productions. -/
def unitJournal (g : Grammar) : List Event :=
  [.removedUnits g.rules.length g.removeUnits.rules.length]

end Grammar

/-- The journal of an isolation. -/
def Isolation.journal (i : Isolation) : List Event :=
  (i.helpers.flatMap fun (t, X) => [.issued X, .helper X t]) ++ [.isolated i.helpers.length]

/-- The journal of a binarization. -/
def Binarization.journal (b : Binarization) : List Event :=
  (b.links.map fun l => .issued l.1) ++
    [.binarized b.links.length, .binarizedSize b.grammar.rules.length]

/-- The journal of a pass. -/
def Progress.journal (s : Progress) : Pass → List Event
  | .removeErasing e => s.grammar.erasureJournal e
  | .removeUnits => s.grammar.unitJournal
  | .isolate => (s.grammar.isolate s.supply).journal
  | .binarize => (s.grammar.binarize s.supply).journal

/-- The journal of a conversion. -/
def Grammar.conversionJournal (g : Grammar) (e : EmptySentence) : List Event :=
  let isolation := (g.removeErasing e).removeUnits.isolate g.supply
  .converting g.start e :: g.erasureJournal e ++ (g.removeErasing e).unitJournal ++
    isolation.journal ++ (isolation.grammar.binarize isolation.supply).journal

end ChomskyForm
