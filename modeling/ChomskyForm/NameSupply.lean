import ChomskyForm.Grammar

/-!
# Fresh names

A `NameSupply` hands out the names `stem0`, `stem1`, … in order and skips those that are
taken. What it issues is taken from then on. The search for the next number looks at one
candidate more than there are taken names, and numbered names are pairwise distinct, so
one of the candidates is free (`exists_free`).
-/

namespace ChomskyForm

/-- Numbered names with one stem : the next number to try, the texts that may not be
issued, and what was issued so far. -/
@[ext] structure NameSupply where
  stem : Name
  next : Nat
  taken : List String
  issued : List NonTerminal
  deriving DecidableEq

namespace NameSupply

/-- A supply that has issued nothing. -/
def avoiding (stem : Name) (taken : List String) : NameSupply := ⟨stem, 0, taken, []⟩

/-- A supply with the given stem, which must not be empty. -/
def ofString (stem : String) (taken : List String) : Except Refusal NameSupply :=
  match Name.ofString? stem with
  | some a => .ok (avoiding a taken)
  | none => .error .emptyStem

/-- The name with number `k` is not taken. -/
def IsFree (s : NameSupply) (k : Nat) : Prop := (s.stem.numbered k).text ∉ s.taken

instance (s : NameSupply) (k : Nat) : Decidable (s.IsFree k) :=
  inferInstanceAs (Decidable (_ ∉ _))

/-- The least free number from `next` on. -/
def firstFree (s : NameSupply) : Nat :=
  ((List.range' s.next (s.taken.length + 1)).find? fun k => s.IsFree k).getD s.next

/-- Issue the first free name. -/
def issue (s : NameSupply) : NonTerminal × NameSupply :=
  let X := s.stem.numbered s.firstFree
  (X, { s with
    next := s.firstFree + 1
    taken := s.taken ++ [X.text]
    issued := s.issued ++ [X] })

/-- Issue `n` names. -/
def issueMany : Nat → NameSupply → List NonTerminal × NameSupply
  | 0, s => ([], s)
  | n + 1, s =>
    let (X, s) := s.issue
    let (Xs, s) := issueMany n s
    (X :: Xs, s)

/-- Among one candidate more than there are texts, one has none of the texts. -/
theorem exists_numbered_not_mem (stem : Name) :
    ∀ (n next : Nat) (taken : List String), taken.length ≤ n →
      ∃ k ∈ List.range' next (n + 1), (stem.numbered k).text ∉ taken
  | 0, next, taken, h => by
    rw [List.eq_nil_of_length_eq_zero (Nat.le_zero.mp h)]
    exact ⟨next, List.mem_range'_1.mpr ⟨Nat.le_refl _, by omega⟩, List.not_mem_nil⟩
  | n + 1, next, taken, h => by
    by_cases hmem : (stem.numbered next).text ∈ taken
    · have hlen : (taken.erase (stem.numbered next).text).length ≤ n := by
        rw [List.length_erase_of_mem hmem]
        omega
      obtain ⟨k, hk, hfree⟩ := exists_numbered_not_mem stem n (next + 1) _ hlen
      have hlt := List.mem_range'_1.mp hk
      refine ⟨k, List.mem_range'_1.mpr ⟨by omega, by omega⟩, fun hk' => hfree ?_⟩
      refine (List.mem_erase_of_ne fun he => ?_).mpr hk'
      have := Name.numbered_inj (Name.ext he)
      omega
    · exact ⟨next, List.mem_range'_1.mpr ⟨Nat.le_refl _, by omega⟩, hmem⟩

theorem exists_free (s : NameSupply) :
    ∃ k ∈ List.range' s.next (s.taken.length + 1), s.IsFree k :=
  exists_numbered_not_mem s.stem s.taken.length s.next s.taken (Nat.le_refl _)

/-- The first free number is free, it is not below `next`, and no number between is free. -/
theorem firstFree_least (s : NameSupply) :
    s.IsFree s.firstFree ∧ s.next ≤ s.firstFree ∧
      ∀ k, s.next ≤ k → k < s.firstFree → ¬ s.IsFree k := by
  obtain ⟨m, hm, hfree⟩ := s.exists_free
  cases hf : (List.range' s.next (s.taken.length + 1)).find? fun k => s.IsFree k with
  | none => exact absurd (decide_eq_true hfree) (List.find?_eq_none.mp hf m hm)
  | some k =>
    have hk : s.firstFree = k := by rw [firstFree, hf, Option.getD_some]
    rw [hk]
    rw [List.find?_range'_eq_some] at hf
    refine ⟨of_decide_eq_true hf.1, (List.mem_range'_1.mp hf.2.1).1, fun j hj hlt => ?_⟩
    simpa using hf.2.2 j hj hlt

end NameSupply

/-- A supply that avoids every name of the grammar. -/
def Grammar.supply (g : Grammar) : NameSupply :=
  .avoiding g.stem ((g.nonTerminals.toList ++ g.terminals.toList).map Name.text)

end ChomskyForm
