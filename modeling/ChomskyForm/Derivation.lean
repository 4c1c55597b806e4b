import ChomskyForm.Grammar

/-!
# Derivations

`Yields rules w u` says that the word `w` derives the sentence `u` with the given
productions : a terminal derives the letter of its name, and a non-terminal what one of
its right-hand sides derives. `Grammar.Derives` is the case of a single non-terminal, and
`Grammar.Generates` that of the start symbol.

Derivations are put together and taken apart along concatenation (`Yields.append`,
`yields_append_iff`), and more productions derive more (`Yields.mono`).
-/

namespace ChomskyForm

/-- The word derives the sentence. -/
inductive Yields (rules : List Rule) : Word → Sentence → Prop
  | nil : Yields rules [] []
  | terminal {t : Terminal} {w : Word} {u : Sentence} :
      Yields rules w u → Yields rules (.terminal t :: w) (t.text :: u)
  | nonTerminal {A : NonTerminal} {v w : Word} {x y : Sentence} :
      (A, v) ∈ rules → Yields rules v x → Yields rules w y →
        Yields rules (.nonTerminal A :: w) (x ++ y)

/-- The non-terminal `A` derives the sentence. -/
def Grammar.Derives (g : Grammar) (A : NonTerminal) (u : Sentence) : Prop :=
  Yields g.rules [.nonTerminal A] u

/-- The sentence is in the language of the grammar. -/
def Grammar.Generates (g : Grammar) (u : Sentence) : Prop := g.Derives g.start u

variable {rules : List Rule}

theorem Yields.append {v w : Word} {x y : Sentence} (hv : Yields rules v x)
    (hw : Yields rules w y) : Yields rules (v ++ w) (x ++ y) := by
  induction hv with
  | nil => exact hw
  | terminal _ ih => exact .terminal ih
  | nonTerminal hr hx _ _ ih =>
    rw [List.append_assoc]
    exact .nonTerminal hr hx ih

theorem yields_nil_iff {u : Sentence} : Yields rules [] u ↔ u = [] :=
  ⟨fun h => by cases h; rfl, fun h => h ▸ .nil⟩

theorem yields_terminal_iff {t : Terminal} {w : Word} {u : Sentence} :
    Yields rules (.terminal t :: w) u ↔ ∃ v, u = t.text :: v ∧ Yields rules w v := by
  constructor
  · rintro (_ | h)
    exact ⟨_, rfl, h⟩
  · rintro ⟨v, rfl, h⟩
    exact .terminal h

theorem yields_nonTerminal_iff {A : NonTerminal} {w : Word} {u : Sentence} :
    Yields rules (.nonTerminal A :: w) u ↔
      ∃ x y, u = x ++ y ∧ (∃ v, (A, v) ∈ rules ∧ Yields rules v x) ∧ Yields rules w y := by
  constructor
  · rintro (_ | _ | ⟨hr, hx, hy⟩)
    exact ⟨_, _, rfl, ⟨_, hr, hx⟩, hy⟩
  · rintro ⟨x, y, rfl, ⟨v, hr, hx⟩, hy⟩
    exact .nonTerminal hr hx hy

theorem yields_append_iff {v w : Word} {u : Sentence} :
    Yields rules (v ++ w) u ↔ ∃ x y, u = x ++ y ∧ Yields rules v x ∧ Yields rules w y := by
  constructor
  · induction v generalizing u with
    | nil => exact fun h => ⟨[], u, rfl, .nil, h⟩
    | cons s v ih =>
      intro h
      cases s with
      | terminal t =>
        obtain ⟨z, rfl, hz⟩ := yields_terminal_iff.mp h
        obtain ⟨x, y, rfl, hx, hy⟩ := ih hz
        exact ⟨t.text :: x, y, rfl, .terminal hx, hy⟩
      | nonTerminal A =>
        obtain ⟨p, z, rfl, ⟨r, hr, hp⟩, hz⟩ := yields_nonTerminal_iff.mp h
        obtain ⟨x, y, rfl, hx, hy⟩ := ih hz
        exact ⟨p ++ x, y, (List.append_assoc p x y).symm, .nonTerminal hr hp hx, hy⟩
  · rintro ⟨x, y, rfl, hx, hy⟩
    exact hx.append hy

theorem Yields.mono {more : List Rule} (hsub : ∀ r ∈ rules, r ∈ more) {w : Word}
    {u : Sentence} (h : Yields rules w u) : Yields more w u := by
  induction h with
  | nil => exact .nil
  | terminal _ ih => exact .terminal ih
  | nonTerminal hr _ _ ihx ihy => exact .nonTerminal (hsub _ hr) ihx ihy

theorem Grammar.derives_iff {g : Grammar} {A : NonTerminal} {u : Sentence} :
    g.Derives A u ↔ ∃ w, (A, w) ∈ g.rules ∧ Yields g.rules w u := by
  rw [Derives, yields_nonTerminal_iff]
  constructor
  · rintro ⟨x, y, rfl, h, hy⟩
    rw [yields_nil_iff.mp hy, List.append_nil]
    exact h
  · exact fun h => ⟨u, [], (List.append_nil u).symm, h, .nil⟩

end ChomskyForm
