import ChomskyForm.Name

/-!
# Words

The right-hand side of a production is a `Word`, a list of terminals and non-terminals.
The empty word is written `ε` (`Word.text`). A sentence is a list of letters, which are
plain texts : it may hold letters that no grammar knows, the empty one included.

Words compare symbol by symbol, a terminal before every non-terminal.
-/

namespace ChomskyForm

/-- A letter or a variable of a production. -/
inductive Symbol where
  | terminal (t : Terminal)
  | nonTerminal (A : NonTerminal)
  deriving DecidableEq

namespace Symbol

/-- The name, whatever it stands for. -/
def name : Symbol → Name
  | terminal t => t
  | nonTerminal A => A

/-- The text of the name. -/
def text (s : Symbol) : String := s.name.text

/-- Whether the symbol is a letter. -/
def isTerminal : Symbol → Bool
  | terminal _ => true
  | nonTerminal _ => false

/-- Terminals first, then by name. -/
instance : Ord Symbol where
  compare
    | terminal s, terminal t => compare s t
    | terminal _, nonTerminal _ => .lt
    | nonTerminal _, terminal _ => .gt
    | nonTerminal A, nonTerminal B => compare A B

end Symbol

/-- A sequence of symbols. -/
abbrev Word := List Symbol

/-- What a grammar generates : a sequence of letters. -/
abbrev Sentence := List String

/-- A production : what its left-hand side may be replaced by. -/
abbrev Rule := NonTerminal × Word

namespace Word

/-- How the empty word is written. -/
def emptyMark : String := "ε"

/-- The symbols with single spaces between them, or the mark of the empty word. -/
def text (w : Word) : String :=
  if w.isEmpty then emptyMark else " ".intercalate (w.map Symbol.text)

/-- The non-terminal that is all of the word. -/
def unit? : Word → Option NonTerminal
  | [.nonTerminal A] => some A
  | _ => none

/-- Words in ascending order, equal ones kept. -/
def sort (l : List Word) : List Word := l.mergeSort fun v w => (compare v w).isLE

@[simp] theorem unit?_eq_some_iff {w : Word} {A : NonTerminal} :
    unit? w = some A ↔ w = [.nonTerminal A] := by
  fun_cases unit? w with
  | case1 B => simp
  | case2 _ h =>
    simp only [reduceCtorEq, false_iff]
    exact fun hw => h A hw

end Word

end ChomskyForm
