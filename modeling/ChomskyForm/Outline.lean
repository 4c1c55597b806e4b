import ChomskyForm.Draft

/-!
# Descriptions as they come in

A `Draft` keeps what was declared in lists, with repetitions, and is turned into names before
it is checked. An `Outline` keeps it in sets, and in a map from each left-hand side to its
alternatives. `Outline.assemble` runs the same checks on the texts, and makes a name of a text
where it needs one, for a symbol of the grammar or of a fault.

A name cannot be made of the empty text (`Name.ofString`), so that besides a grammar and a
fault there is a third way to end, the refusal of a name (`Halt.refusal`).
-/

namespace ChomskyForm

/-- A description in the making, each name once. -/
structure Outline where
  start : String
  nonTerminals : OrderedSet String
  terminals : OrderedSet String
  productions : OrderedMap String (List (List String))
  stem : String
  deriving DecidableEq

/-- Why a description leads to no grammar. -/
inductive Halt where
  /-- A check has found a fault. -/
  | fault (f : Fault)
  /-- A name was to be made of the empty text. -/
  | refusal (r : Refusal)
  deriving DecidableEq

namespace Outline

/-! ## Collecting declarations -/

/-- An outline with nothing declared. -/
def blank (start : String) : Outline := ⟨start, .empty, .empty, .empty, Draft.defaultStem⟩

/-- Give a left-hand side one more alternative. -/
def produce (o : Outline) (lhs : String) (rhs : List String) : Outline :=
  { o with productions := o.productions.insert lhs ((o.productions.find? lhs).getD [] ++ [rhs]) }

/-- Add one declaration. -/
def declare (o : Outline) : Declaration → Outline
  | .nonTerminals names => { o with nonTerminals := o.nonTerminals.insertAll names }
  | .terminals names => { o with terminals := o.terminals.insertAll names }
  | .production lhs rhs => o.produce lhs rhs
  | .erasing lhs => o.produce lhs [Word.emptyMark]
  | .stem text => { o with stem := text }

/-- The outline with the given start symbol and declarations. -/
def ofDeclarations (start : String) (l : List Declaration) : Outline :=
  l.foldl declare (blank start)

/-! ## Checking and building -/

/-- The name with the given text, or a refusal. -/
def name (s : String) : Except Halt Name := (Name.ofString s).mapError .refusal

variable (o : Outline)

/-- The declared non-terminals, then the left-hand sides. -/
def variableSet : OrderedSet String := o.nonTerminals.insertAll o.productions.keys

/-- The names of both alphabets. -/
def declared : List String := o.variableSet.toList ++ o.terminals.toList

/-- Whether any text is empty. -/
def hasEmptyText : Bool :=
  o.stem.isEmpty || o.start.isEmpty || o.declared.any String.isEmpty ||
    (o.productions.entries.flatMap fun e => e.2.flatten).any String.isEmpty

/-- A symbol of an alternative, by the alphabet that it is in. -/
def symbol (lhs s : String) : Except Halt Symbol :=
  if s ∈ o.variableSet then return .nonTerminal (← name s)
  else if s ∈ o.terminals then return .terminal (← name s)
  else do throw (.fault (.undefinedSymbol (← name s) (← name lhs)))

/-- An alternative without the marks of the empty word, symbol by symbol. -/
def word (lhs : String) (rhs : List String) : Except Halt Word :=
  (rhs.filter (· ≠ Word.emptyMark)).mapM (o.symbol lhs)

/-- The alternatives of a left-hand side. -/
def alternatives (lhs : String) (l : List (List String)) : Except Halt (OrderedSet Word) :=
  l.foldlM (fun ws rhs => return ws.insert (← o.word lhs rhs)) .empty

/-- All productions, with the symbols classified. -/
def classified : Except Halt Productions :=
  o.productions.entries.foldlM (fun p e => do
    let ws ← o.alternatives e.1 e.2
    return p.insert (← name e.1) ws) .empty

/-- The checks that come before any symbol is classified. -/
def precheck : Except Halt Unit :=
  if o.hasEmptyText then throw (.fault .emptyName)
  else match o.terminals.toList.find? fun a => a ∈ o.variableSet with
  | some a => do throw (.fault (.alphabetOverlap (← name a)))
  | none =>
    match o.declared.find? (hasNumberedShape o.stem) with
    | some a => do throw (.fault (.reservedName (← name a) (← name o.stem)))
    | none =>
      if o.productions.entries.isEmpty then do throw (.fault (.noProductions (← name o.start)))
      else if o.start ∉ o.variableSet then do throw (.fault (.unknownStart (← name o.start)))
      else return ()

/-- The grammar of an outline, unless something stands in the way. -/
def assemble : Except Halt Grammar := do
  o.precheck
  let productions ← o.classified
  if o.start ∈ o.productions.keys then
    let start ← name o.start
    let nonTerminals ← o.variableSet.toList.mapM name
    let terminals ← o.terminals.toList.mapM name
    let stem ← name o.stem
    return ⟨start, .ofList nonTerminals, .ofList terminals, productions, stem⟩
  else throw (.fault (.noProductions (← name o.start)))

end Outline

end ChomskyForm
