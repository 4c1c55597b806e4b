import ChomskyForm.Grammar
import ChomskyForm.Fault

/-!
# Grammars in Chomsky normal form

In a `NormalForm` every right-hand side is a `NormalWord`, one terminal or two
non-terminals. Whether the start symbol also has the empty production is a flag, so the
productions cannot hold an empty word.

`NormalForm.ofGrammar` reads a grammar whose productions all fit, and otherwise reports
the first that does not. `NormalForm.rules` lists the productions again : the empty one
comes after the other alternatives of the start symbol, or first if there are none.
-/

namespace ChomskyForm

/-- A right-hand side of Chomsky normal form. -/
inductive NormalWord where
  | terminal (t : Terminal)
  | pair (A B : NonTerminal)
  deriving DecidableEq

namespace NormalWord

/-- The symbols of the word. -/
def word : NormalWord → Word
  | terminal t => [.terminal t]
  | pair A B => [.nonTerminal A, .nonTerminal B]

/-- The names with a space between them. -/
def text : NormalWord → String
  | terminal t => t.text
  | pair A B => A.text ++ " " ++ B.text

/-- The word, if it has a shape of Chomsky normal form. -/
def ofWord : Word → Except Misfit NormalWord
  | [.terminal t] => .ok (terminal t)
  | [.nonTerminal _] => .error .unit
  | [.nonTerminal A, .nonTerminal B] => .ok (pair A B)
  | [_, _] => .error .mixedPair
  | _ => .error .length

@[simp] theorem ofWord_word (w : NormalWord) : ofWord w.word = .ok w := by cases w <;> rfl

theorem ofWord_eq_ok_iff {v : Word} {w : NormalWord} : ofWord v = .ok w ↔ v = w.word := by
  constructor
  · intro h
    fun_cases ofWord v with
    | case1 t => cases h; rfl
    | case2 A => cases h
    | case3 A B => cases h; rfl
    | case4 s t hne => simp_all [ofWord]
    | case5 v h1 h2 h3 h4 => simp_all [ofWord]
  · rintro rfl
    exact ofWord_word w

end NormalWord

/-- A grammar with right-hand sides of Chomsky normal form. -/
structure NormalForm where
  start : NonTerminal
  /-- Whether the start symbol has the empty production too. -/
  erasable : Bool
  nonTerminals : OrderedSet NonTerminal
  terminals : OrderedSet Terminal
  productions : OrderedMap NonTerminal (OrderedSet NormalWord)
  deriving DecidableEq

namespace NormalForm

/-- The left-hand sides of empty productions : at most the start symbol. -/
def erasing (c : NormalForm) : List NonTerminal := if c.erasable then [c.start] else []

/-- The productions of one left-hand side. -/
def entryRules (c : NormalForm) (e : NonTerminal × OrderedSet NormalWord) : List Rule :=
  e.2.toList.map (fun w => (e.1, w.word)) ++
    if c.erasable && e.1 = c.start then [(c.start, [])] else []

/-- Every production on its own, in order. -/
def rules (c : NormalForm) : List Rule :=
  (if c.erasable && c.start ∉ c.productions.keys then [(c.start, [])] else []) ++
    c.productions.entries.flatMap c.entryRules

/-- What is wrong with a production. The empty production of the start symbol is right. -/
def misfit? (start : NonTerminal) (r : Rule) : Option Fault :=
  if r.2 = [] ∧ r.1 = start then none
  else match NormalWord.ofWord r.2 with
    | .ok _ => none
    | .error misfit => some (.notNormal r.1 r.2 misfit)

/-- The alternatives that are in normal form, as such. -/
def normalWords (ws : OrderedSet Word) : OrderedSet NormalWord :=
  .ofList (ws.toList.filterMap fun w => (NormalWord.ofWord w).toOption)

/-- The grammar with its right-hand sides typed. It loses those that do not fit. -/
def typed (g : Grammar) : NormalForm where
  start := g.start
  erasable := [] ∈ g.alternatives g.start
  nonTerminals := g.nonTerminals
  terminals := g.terminals
  productions := g.productions.filterMap fun _ ws => (normalWords ws).nonempty?

theorem nonTerminals_typed (g : Grammar) : (typed g).nonTerminals = g.nonTerminals := rfl

theorem terminals_typed (g : Grammar) : (typed g).terminals = g.terminals := rfl

/-- The grammar with its right-hand sides typed, or its first production that does not fit. -/
def ofGrammar (g : Grammar) : Except Fault NormalForm :=
  match g.rules.findSome? (misfit? g.start) with
  | some fault => .error fault
  | none => .ok (typed g)

end NormalForm

end ChomskyForm
