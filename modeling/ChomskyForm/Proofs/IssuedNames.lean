import ChomskyForm.NameSupply

/-!
# What a supply issues

Names issued together are distinct (`NameSupply.nodup_issueMany`), none of them was taken
before (`NameSupply.not_mem_taken_of_mem_issueMany`), and all of them are taken afterwards
(`NameSupply.taken_issueMany`). This holds for every supply, whatever its history.
`NameSupply.Avoids` says that a supply will issue none of some names.

A supply skips the numbers that are taken. If none is taken from the next one on
(`NameSupply.Gapless`), it issues consecutive numbers (`NameSupply.Gapless.issueMany_eq`).
-/

namespace ChomskyForm

namespace NameSupply

theorem issue_not_mem_taken (s : NameSupply) : s.issue.1.text ∉ s.taken := s.firstFree_least.1

@[simp] theorem length_issueMany : ∀ (n : Nat) (s : NameSupply), (issueMany n s).1.length = n
  | 0, _ => rfl
  | n + 1, s => congrArg (· + 1) (length_issueMany n s.issue.2)

/-- Names may be issued in two goes. -/
theorem issueMany_add : ∀ (m n : Nat) (s : NameSupply), issueMany (m + n) s =
    ((issueMany m s).1 ++ (issueMany n (issueMany m s).2).1, (issueMany n (issueMany m s).2).2)
  | 0, n, s => congrArg (issueMany · s) n.zero_add
  | m + 1, n, s => by
    have ih := issueMany_add m n s.issue.2
    rw [Nat.succ_add]
    show (s.issue.1 :: (issueMany (m + n) s.issue.2).1, (issueMany (m + n) s.issue.2).2) = _
    rw [ih]
    rfl

/-- The last of several names is issued after the others. -/
theorem issueMany_succ (n : Nat) (s : NameSupply) : issueMany (n + 1) s =
    ((issueMany n s).1 ++ [(issueMany n s).2.issue.1], (issueMany n s).2.issue.2) :=
  issueMany_add n 1 s

/-- Names that are found in a list in two goes stand there one after the other. -/
theorem prefix_of_issueMany_add {m n : Nat} {s : NameSupply} {Xs : List NonTerminal}
    (h : (issueMany (m + n) s).1 <+: Xs) :
    (issueMany m s).1 <+: Xs ∧ (issueMany n (issueMany m s).2).1 <+: Xs.drop m := by
  rw [issueMany_add] at h
  obtain ⟨rest, rfl⟩ := h
  rw [List.append_assoc, List.drop_left' (length_issueMany m s)]
  exact ⟨List.prefix_append _ _, List.prefix_append _ _⟩

/-- What was issued is taken. -/
theorem taken_issueMany : ∀ (n : Nat) (s : NameSupply),
    (issueMany n s).2.taken = s.taken ++ (issueMany n s).1.map Name.text
  | 0, s => (List.append_nil s.taken).symm
  | n + 1, s => by
    have ih := taken_issueMany n s.issue.2
    have hissue : s.issue.2.taken = s.taken ++ [s.issue.1.text] := rfl
    rw [hissue, List.append_assoc] at ih
    exact ih

/-- Nothing is issued that was taken. -/
theorem not_mem_taken_of_mem_issueMany {X : NonTerminal} : ∀ {n : Nat} {s : NameSupply},
    X ∈ (issueMany n s).1 → X.text ∉ s.taken
  | n + 1, s, hX => by
    rcases List.mem_cons.mp hX with rfl | hX
    · exact s.issue_not_mem_taken
    · exact fun h => not_mem_taken_of_mem_issueMany hX (List.mem_append_left _ h)

theorem stem_issueMany : ∀ (n : Nat) (s : NameSupply), (issueMany n s).2.stem = s.stem
  | 0, _ => rfl
  | n + 1, s => stem_issueMany n s.issue.2

/-- What was issued is recorded. -/
theorem issued_issueMany : ∀ (n : Nat) (s : NameSupply),
    (issueMany n s).2.issued = s.issued ++ (issueMany n s).1
  | 0, s => (List.append_nil s.issued).symm
  | n + 1, s => by
    have ih := issued_issueMany n s.issue.2
    have hissue : s.issue.2.issued = s.issued ++ [s.issue.1] := rfl
    rw [hissue, List.append_assoc] at ih
    exact ih

/-- What is issued is the stem with a number. -/
theorem exists_numbered_of_mem_issueMany {X : NonTerminal} : ∀ {n : Nat} {s : NameSupply},
    X ∈ (issueMany n s).1 → ∃ k, X = s.stem.numbered k
  | n + 1, s, hX => by
    rcases List.mem_cons.mp hX with rfl | hX
    · exact ⟨s.firstFree, rfl⟩
    · exact exists_numbered_of_mem_issueMany (s := s.issue.2) hX

theorem nodup_issueMany : ∀ (n : Nat) (s : NameSupply), (issueMany n s).1.Nodup
  | 0, _ => List.nodup_nil
  | n + 1, s => by
    refine List.nodup_cons.mpr ⟨fun hX => ?_, nodup_issueMany n s.issue.2⟩
    -- the first name is taken when the others are issued
    exact not_mem_taken_of_mem_issueMany hX (List.mem_append_right _ List.mem_cons_self)

/-- The supply will issue none of these names. -/
def Avoids (s : NameSupply) (l : OrderedSet Name) : Prop := ∀ a ∈ l, a.text ∈ s.taken

/-! ## Consecutive numbers -/

/-- No number is taken from the next one on. -/
def Gapless (s : NameSupply) : Prop := ∀ k, s.next ≤ k → s.IsFree k

/-- Texts without the shape of a numbered name are not in the way. -/
theorem gapless_avoiding {stem : Name} {taken : List String}
    (h : ∀ t ∈ taken, hasNumberedShape stem.text t = false) : (avoiding stem taken).Gapless := by
  intro k _ hmem
  have hnone : hasNumberedShape stem.text (stem.numbered k).text = false := h _ hmem
  rw [hasNumberedShape_numbered] at hnone
  exact Bool.noConfusion hnone

variable {s : NameSupply}

/-- The next number is the one that is issued. -/
theorem Gapless.firstFree_eq (h : s.Gapless) : s.firstFree = s.next := by
  obtain ⟨-, hle, hleast⟩ := s.firstFree_least
  refine Nat.le_antisymm (Nat.not_lt.mp fun hlt => ?_) hle
  exact hleast s.next (Nat.le_refl _) hlt (h s.next (Nat.le_refl _))

theorem Gapless.fst_issue (h : s.Gapless) : s.issue.1 = s.stem.numbered s.next := by
  rw [issue, h.firstFree_eq]

theorem Gapless.next_issue (h : s.Gapless) : s.issue.2.next = s.next + 1 := by
  rw [issue, h.firstFree_eq]

theorem Gapless.issue (h : s.Gapless) : s.issue.2.Gapless := by
  intro k hk hmem
  rw [h.next_issue] at hk
  rcases List.mem_append.mp hmem with hmem | hmem
  · exact h k (by omega) hmem
  · -- the only new text is that of the number issued
    have hname := Name.ext (List.mem_singleton.mp hmem)
    have hnumber : k = s.firstFree := Name.numbered_inj hname
    rw [h.firstFree_eq] at hnumber
    omega

/-- Nothing is skipped. -/
theorem Gapless.issueMany_eq : ∀ (n : Nat) {s : NameSupply}, s.Gapless →
    (issueMany n s).1 = (List.range' s.next n).map s.stem.numbered
  | 0, _, _ => rfl
  | n + 1, s, h => by
    have ih := issueMany_eq n h.issue
    rw [h.next_issue] at ih
    have hcons : (issueMany (n + 1) s).1 = s.issue.1 :: (issueMany n s.issue.2).1 := rfl
    rw [hcons, ih, h.fst_issue, List.range'_succ, List.map_cons]
    rfl

theorem Gapless.next_issueMany : ∀ (n : Nat) {s : NameSupply}, s.Gapless →
    (issueMany n s).2.next = s.next + n
  | 0, _, _ => rfl
  | n + 1, s, h => by
    have ih := next_issueMany n h.issue
    rw [h.next_issue, Nat.add_assoc, Nat.add_comm 1] at ih
    exact ih

theorem Gapless.issueMany : ∀ (n : Nat) {s : NameSupply}, s.Gapless →
    (issueMany n s).2.Gapless
  | 0, _, h => h
  | n + 1, _, h => issueMany n h.issue

end NameSupply

end ChomskyForm
