import ChomskyForm.Derivation

/-!
# Comparing derivations

Two lists of productions are compared through what they derive.

* `Yields.simulate` : `more` derives what `rules` does if each production of `rules` can
  be imitated, whatever `more` derives from its right-hand side.
* `Yields.expand` : the same when some non-terminals of `rules` stand for words of
  `more` (`Folds`). It takes a grammar with introduced names back to the one without.

`solid` keeps the productions with a non-empty right-hand side, and without the others
nothing but the empty word derives the empty sentence (`Yields.ne_nil_of_solid`).
-/

namespace ChomskyForm

variable {rules more : List Rule}

/-- A derivation is imitated if each production in it is. -/
theorem Yields.simulate
    (h : ∀ A v u, (A, v) ∈ rules → Yields more v u → Yields more [.nonTerminal A] u) :
    ∀ {w : Word} {u : Sentence}, Yields rules w u → Yields more w u
  | _, _, .nil => .nil
  | _, _, .terminal hw => .terminal (hw.simulate h)
  | _, _, .nonTerminal hr hv hw => (h _ _ _ hr (hv.simulate h)).append (hw.simulate h)

theorem Yields.of_mem {A : NonTerminal} {v : Word} {u : Sentence} (hr : (A, v) ∈ rules)
    (hv : Yields rules v u) : Yields rules [.nonTerminal A] u := by
  rw [← List.append_nil u]
  exact .nonTerminal hr hv .nil

theorem yields_singleton_iff {A : NonTerminal} {u : Sentence} :
    Yields rules [.nonTerminal A] u ↔ ∃ v, (A, v) ∈ rules ∧ Yields rules v u := by
  refine ⟨fun h => ?_, fun ⟨v, hr, hv⟩ => .of_mem hr hv⟩
  obtain ⟨x, y, rfl, ⟨v, hr, hv⟩, hy⟩ := yields_nonTerminal_iff.mp h
  rw [yields_nil_iff.mp hy, List.append_nil]
  exact ⟨v, hr, hv⟩

theorem yields_cons_iff {s : Symbol} {w : Word} {u : Sentence} :
    Yields rules (s :: w) u ↔ ∃ x y, u = x ++ y ∧ Yields rules [s] x ∧ Yields rules w y :=
  yields_append_iff (v := [s])

/-! ## The empty sentence -/

/-- A word derives the empty sentence if each of its symbols does. -/
theorem yields_empty_iff {w : Word} :
    Yields rules w [] ↔
      ∀ s ∈ w, ∃ A, s = .nonTerminal A ∧ Yields rules [.nonTerminal A] [] := by
  refine ⟨fun h => ?_, fun h => ?_⟩
  · generalize hu : ([] : Sentence) = u at h
    induction h with
    | nil => simp
    | terminal => cases hu
    | nonTerminal hr hv _ _ ih =>
      obtain ⟨rfl, rfl⟩ := List.append_eq_nil_iff.mp hu.symm
      intro s hs
      rcases List.mem_cons.mp hs with rfl | hs
      · exact ⟨_, rfl, .of_mem hr hv⟩
      · exact ih rfl s hs
  · induction w with
    | nil => exact .nil
    | cons s w ih =>
      obtain ⟨A, rfl, hA⟩ := h s List.mem_cons_self
      exact hA.append (ih fun t ht => h t (List.mem_cons_of_mem _ ht))

/-- Only an empty production makes a word disappear. -/
theorem Yields.exists_empty : ∀ {w : Word} {u : Sentence}, Yields rules w u → w ≠ [] →
    u = [] → ∃ B, (B, []) ∈ rules
  | _, _, .nil, hw, _ => absurd rfl hw
  | _, _, .nonTerminal (A := A) (v := []) hr _ _, _, _ => ⟨A, hr⟩
  | _, _, .nonTerminal (v := _ :: _) _ hv _, _, hu =>
    hv.exists_empty (List.cons_ne_nil _ _) (List.append_eq_nil_iff.mp hu).1

/-- The productions with a non-empty right-hand side. -/
def solid (rules : List Rule) : List Rule := rules.filter fun r => !r.2.isEmpty

@[simp] theorem mem_solid {r : Rule} : r ∈ solid rules ↔ r ∈ rules ∧ r.2 ≠ [] := by
  simp [solid]

theorem Yields.of_solid {w : Word} {u : Sentence} (h : Yields (solid rules) w u) :
    Yields rules w u :=
  h.mono fun _ hr => (mem_solid.mp hr).1

theorem Yields.ne_nil_of_solid {w : Word} {u : Sentence} (h : Yields (solid rules) w u)
    (hw : w ≠ []) : u ≠ [] := by
  intro hu
  obtain ⟨B, hB⟩ := h.exists_empty hw hu
  exact (mem_solid.mp hB).2 rfl

/-! ## Abbreviations -/

/-- The word with each abbreviation replaced by what it stands for. -/
def Word.expand (σ : NonTerminal → Option Word) : Word → Word
  | [] => []
  | .terminal t :: w => .terminal t :: expand σ w
  | .nonTerminal A :: w => (σ A).getD [.nonTerminal A] ++ expand σ w

/-- What a non-terminal stands for, by a list of abbreviations. -/
def meaningIn (l : List Rule) (X : NonTerminal) : Option Word :=
  (l.find? fun r => r.1 = X).map Prod.snd

theorem meaningIn_of_mem {l : List Rule} (hl : (l.map Prod.fst).Nodup) {X : NonTerminal}
    {w : Word} (h : (X, w) ∈ l) : meaningIn l X = some w :=
  (OrderedMap.find?_eq_some_iff (m := ⟨l, hl⟩)).mpr h

theorem meaningIn_eq_none {l : List Rule} {X : NonTerminal} (h : X ∉ l.map Prod.fst) :
    meaningIn l X = none := by
  unfold meaningIn
  rw [Option.map_eq_none_iff, List.find?_eq_none]
  intro r hr hX
  exact h (List.mem_map.mpr ⟨r, hr, by simpa using hX⟩)

/-- Each production of `rules` is one of `more` with abbreviations in it, or the
production of an abbreviation. -/
def Folds (σ : NonTerminal → Option Word) (rules more : List Rule) : Prop :=
  ∀ A v, (A, v) ∈ rules →
    (σ A = none ∧ (A, v.expand σ) ∈ more) ∨ σ A = some (v.expand σ)

variable {σ : NonTerminal → Option Word}

theorem Word.expand_of_none : ∀ {w : Word}, (∀ A, .nonTerminal A ∈ w → σ A = none) →
    w.expand σ = w
  | [], _ => rfl
  | .terminal t :: w, h => by
    rw [expand, expand_of_none fun A hA => h A (List.mem_cons_of_mem _ hA)]
  | .nonTerminal A :: w, h => by
    rw [expand, expand_of_none fun B hB => h B (List.mem_cons_of_mem _ hB),
      h A List.mem_cons_self]
    rfl

/-- What is derived with abbreviations is derived without them. -/
theorem Yields.expand (hf : Folds σ rules more) : ∀ {w : Word} {u : Sentence},
    Yields rules w u → Yields more (w.expand σ) u
  | _, _, .nil => .nil
  | _, _, .terminal hw => .terminal (hw.expand hf)
  | _, _, .nonTerminal (A := A) hr hv hw => by
    have hv' := hv.expand hf
    refine Yields.append ?_ (hw.expand hf)
    rcases hf _ _ hr with ⟨hA, hmem⟩ | hA
    · rw [hA]
      exact .of_mem hmem hv'
    · rw [hA]
      exact hv'

/-- A non-terminal that is no abbreviation derives no more than before. -/
theorem Folds.yields_singleton (hf : Folds σ rules more) {A : NonTerminal} {u : Sentence}
    (hA : σ A = none) (h : Yields rules [.nonTerminal A] u) : Yields more [.nonTerminal A] u := by
  have h' := h.expand hf
  simpa [Word.expand, hA] using h'

end ChomskyForm
