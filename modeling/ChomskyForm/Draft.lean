import ChomskyForm.Grammar
import ChomskyForm.Fault

/-!
# Drafts

A grammar is described by a start symbol and a list of `Declaration`s, which a `Draft`
collects in the order in which they come. Left-hand sides need no declaration of their
own. `Draft.build` checks a draft and classifies its symbols.

The checks run in this order, and the first that fails decides the fault : every name is
non-empty (`Draft.named?`), then, in `Draft.fault?`, the alphabets are disjoint, no symbol
has the shape of an introduced name, there are productions, the start symbol is a
non-terminal, every symbol of a production is declared, and the start symbol has a
production. A draft that passes has a grammar without further conditions
(`Draft.grammar`).
-/

namespace ChomskyForm

/-- One statement of a grammar's description. -/
inductive Declaration where
  /-- These are non-terminals. -/
  | nonTerminals (names : List String)
  /-- These are terminals. -/
  | terminals (names : List String)
  /-- The left-hand side has this alternative. The mark of the empty word is skipped
  wherever it stands. -/
  | production (lhs : String) (rhs : List String)
  /-- The left-hand side has the empty alternative. -/
  | erasing (lhs : String)
  /-- Introduced non-terminals begin with this. The last such statement counts. -/
  | stem (text : String)
  deriving DecidableEq

/-- What was declared, in order, with repetitions. -/
structure Draft (α : Type) where
  start : α
  nonTerminals : List α
  terminals : List α
  productions : List (α × List α)
  stem : α
  deriving DecidableEq

namespace Draft

/-! ## Collecting declarations -/

/-- The stem of introduced names, unless a declaration sets another. -/
def defaultStem : String := "X"

/-- A draft with nothing declared. -/
def blank (start : String) : Draft String := ⟨start, [], [], [], defaultStem⟩

/-- Add one declaration. -/
def declare (d : Draft String) : Declaration → Draft String
  | .nonTerminals names => { d with nonTerminals := d.nonTerminals ++ names }
  | .terminals names => { d with terminals := d.terminals ++ names }
  | .production lhs rhs => { d with productions := d.productions ++ [(lhs, rhs)] }
  | .erasing lhs => { d with productions := d.productions ++ [(lhs, [Word.emptyMark])] }
  | .stem text => { d with stem := text }

/-- The draft with the given start symbol and declarations. -/
def ofDeclarations (start : String) (l : List Declaration) : Draft String :=
  l.foldl declare (blank start)

/-- The same draft over names, if no text in it is empty. -/
def named? (d : Draft String) : Option (Draft Name) := do
  let start ← Name.ofString? d.start
  let nonTerminals ← d.nonTerminals.mapM Name.ofString?
  let terminals ← d.terminals.mapM Name.ofString?
  let productions ← d.productions.mapM fun (lhs, rhs) =>
    return (← Name.ofString? lhs, ← rhs.mapM Name.ofString?)
  let stem ← Name.ofString? d.stem
  return ⟨start, nonTerminals, terminals, productions, stem⟩

/-! ## Reading a draft -/

variable (d : Draft Name)

/-- The left-hand sides, each at its first production. -/
def headSet : OrderedSet NonTerminal := .ofList (d.productions.map Prod.fst)

/-- The declared non-terminals, then the left-hand sides. -/
def variableSet : OrderedSet NonTerminal :=
  .ofList (d.nonTerminals ++ d.productions.map Prod.fst)

/-- The declared terminals. -/
def letterSet : OrderedSet Terminal := .ofList d.terminals

/-- The names of an alternative. The mark of the empty word is none of them. -/
def spelling (rhs : List Name) : List Name := rhs.filter fun a => a.text ≠ Word.emptyMark

/-- The alternatives of `A`, in order, with repetitions. -/
def spellings (A : NonTerminal) : List (List Name) :=
  (d.productions.filter fun p => p.1 = A).map fun p => spelling p.2

/-- A non-terminal, if it is known as one, and a terminal otherwise. -/
def classify (nonTerminals : OrderedSet NonTerminal) (a : Name) : Symbol :=
  if a ∈ nonTerminals then .nonTerminal a else .terminal a

/-! ## Checking and building -/

/-- The first terminal that is a non-terminal too. -/
def overlap? : Option Name :=
  let nonTerminals := d.variableSet
  d.letterSet.toList.find? fun a => a ∈ nonTerminals

/-- The first symbol of the shape of an introduced name. -/
def reserved? : Option Name :=
  (d.variableSet.toList ++ d.letterSet.toList).find? fun a => hasNumberedShape d.stem.text a.text

/-- The first symbol of a production that is in neither alphabet, and the left-hand side. -/
def undefined? : Option (Name × NonTerminal) :=
  let nonTerminals := d.variableSet
  let letters := d.letterSet
  d.headSet.toList.findSome? fun A =>
    ((d.spellings A).flatten.find? fun a => a ∉ nonTerminals ∧ a ∉ letters).map (·, A)

/-- What is wrong with a draft whose names are not empty. -/
def fault? : Option Fault :=
  (d.overlap?.map .alphabetOverlap) <|>
  (d.reserved?.map (.reservedName · d.stem)) <|>
  (if d.productions = [] then some (.noProductions d.start) else none) <|>
  (if d.start ∈ d.variableSet then none else some (.unknownStart d.start)) <|>
  (d.undefined?.map fun p => .undefinedSymbol p.1 p.2) <|>
  (if d.start ∈ d.headSet then none else some (.noProductions d.start))

/-- The grammar of a draft : every symbol classified, repeated alternatives merged. -/
def grammar : Grammar :=
  let nonTerminals := d.variableSet
  { start := d.start
    nonTerminals
    terminals := d.letterSet
    productions := .ofKeys d.headSet.toList d.headSet.nodup fun A =>
      .ofList ((d.spellings A).map (List.map (classify nonTerminals)))
    stem := d.stem }

/-- The grammar of a draft, or the first fault found in it. -/
def build (d : Draft String) : Except Fault Grammar :=
  match d.named? with
  | none => .error .emptyName
  | some d =>
    match d.fault? with
    | some fault => .error fault
    | none => .ok d.grammar

end Draft

end ChomskyForm
