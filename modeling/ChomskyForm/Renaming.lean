import ChomskyForm.NormalForm

/-!
# Renaming non-terminals

A map `ρ` on non-terminals acts on words (`Word.rename`), on productions (`renameRule`) and
on grammars in normal form (`NormalForm.rename`). Terminals stay. If `ρ` sends two
left-hand sides to one, the alternatives of the later one win, so that a renaming is
faithful only if `ρ` is injective on the left-hand sides.

`NormalForm.Alike` is equality of grammars in normal form without regard to order, and
`Grammar.RenamesTo` compares grammars in the same way after a renaming.
-/

namespace ChomskyForm

variable (ρ : NonTerminal → NonTerminal)

/-- The symbol, renamed if it is a non-terminal. -/
def Symbol.rename : Symbol → Symbol
  | .terminal t => .terminal t
  | .nonTerminal A => .nonTerminal (ρ A)

/-- The word with its non-terminals renamed. -/
def Word.rename (w : Word) : Word := w.map (Symbol.rename ρ)

/-- The production with its non-terminals renamed, on both sides. -/
def renameRule (r : Rule) : Rule := (ρ r.1, r.2.rename ρ)

/-- The right-hand side with its non-terminals renamed. -/
def NormalWord.rename : NormalWord → NormalWord
  | terminal t => terminal t
  | pair A B => pair (ρ A) (ρ B)

namespace NormalForm

/-- The grammar with its non-terminals renamed. -/
def rename (c : NormalForm) : NormalForm where
  start := ρ c.start
  erasable := c.erasable
  nonTerminals := c.nonTerminals.map ρ
  terminals := c.terminals
  productions := OrderedMap.empty.insertAll <|
    c.productions.entries.map fun e => (ρ e.1, e.2.map (NormalWord.rename ρ))

/-- The right-hand sides of `A`. -/
def alternatives (c : NormalForm) (A : NonTerminal) : OrderedSet NormalWord :=
  (c.productions.find? A).getD .empty

/-- Equal start, flag, alphabets and alternatives, where order does not count. -/
structure Alike (c d : NormalForm) : Prop where
  start : c.start = d.start
  erasable : c.erasable = d.erasable
  nonTerminals : c.nonTerminals.SameElements d.nonTerminals
  terminals : c.terminals.SameElements d.terminals
  keys : ∀ A, A ∈ c.productions.keys ↔ A ∈ d.productions.keys
  alternatives : ∀ A, (c.alternatives A).SameElements (d.alternatives A)

end NormalForm

/-- With its non-terminals renamed the first grammar has the start, the alphabets and the
productions of the second, in any order. The renaming merges none of them. -/
structure Grammar.RenamesTo (g h : Grammar) : Prop where
  start : ρ g.start = h.start
  nonTerminals : (g.nonTerminals.toList.map ρ).Perm h.nonTerminals.toList
  terminals : g.terminals.SameElements h.terminals
  rules : (g.rules.map (renameRule ρ)).Perm h.rules

/-! ## Words -/

variable {ρ} {σ : NonTerminal → NonTerminal}

@[simp] theorem Word.length_rename (w : Word) : (w.rename ρ).length = w.length :=
  List.length_map _

theorem Word.rename_eq_nil_iff {w : Word} : w.rename ρ = [] ↔ w = [] := List.map_eq_nil_iff

theorem Word.terminal_mem_rename {t : Terminal} {w : Word} :
    .terminal t ∈ w.rename ρ ↔ .terminal t ∈ w := by
  refine ⟨fun h => ?_, fun h => List.mem_map_of_mem (f := Symbol.rename ρ) h⟩
  obtain ⟨a, ha, heq⟩ := List.mem_map.mp h
  cases a with
  | terminal s => cases heq; exact ha
  | nonTerminal A => cases heq

/-- Only the non-terminals of the word count. -/
theorem Word.rename_congr {w : Word} (h : ∀ A, .nonTerminal A ∈ w → ρ A = σ A) :
    w.rename ρ = w.rename σ := by
  refine List.map_congr_left fun a ha => ?_
  cases a with
  | terminal t => rfl
  | nonTerminal A => exact congrArg Symbol.nonTerminal (h A ha)

theorem Word.rename_id (w : Word) : w.rename id = w := by
  have hid : Symbol.rename id = id := funext fun a => by cases a <;> rfl
  rw [rename, hid, List.map_id]

theorem renameRule_id : renameRule id = id := funext fun r => Prod.ext rfl (Word.rename_id r.2)

theorem NormalWord.word_rename (w : NormalWord) : (w.rename ρ).word = w.word.rename ρ := by
  cases w <;> rfl

/-- What is renamed to a word of normal form is one itself. -/
theorem NormalWord.exists_of_rename_eq {v : Word} {w : NormalWord}
    (h : v.rename ρ = w.word) : ∃ w' : NormalWord, v = w'.word ∧ w'.rename ρ = w := by
  cases w with
  | terminal t =>
    obtain ⟨a, rfl, ha⟩ := List.map_eq_singleton_iff.mp h
    cases a with
    | terminal s => cases ha; exact ⟨.terminal t, rfl, rfl⟩
    | nonTerminal A => cases ha
  | pair B C =>
    obtain ⟨a, l, rfl, ha, hl⟩ := List.map_eq_cons_iff.mp h
    obtain ⟨b, rfl, hb⟩ := List.map_eq_singleton_iff.mp hl
    cases a with
    | terminal s => cases ha
    | nonTerminal A =>
      cases b with
      | terminal s => cases hb
      | nonTerminal D => cases ha; cases hb; exact ⟨.pair A D, rfl, rfl⟩

end ChomskyForm
