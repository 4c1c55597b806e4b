import ChomskyForm.Proofs.Simulation

/-!
# Derivations of parts of a sentence

`Spans rules u w i j` says that `w` derives the letters of `u` from position `i` up to
position `j`. Both recognisers decide it, one for all right-hand sides and one for the two
shapes of Chomsky normal form. The parts are given by what is left of the sentence, so that
two parts that meet are one part (`spans_append_iff`).
-/

namespace ChomskyForm

/-- The word derives the part of the sentence between two positions. -/
def Spans (rules : List Rule) (u : Sentence) (w : Word) (i j : Nat) : Prop :=
  i ≤ u.length ∧ j ≤ u.length ∧ ∃ x, u.drop i = x ++ u.drop j ∧ Yields rules w x

variable {rules : List Rule} {u : Sentence} {v w : Word} {i j k : Nat}

/-- The end of a part is its beginning and its length. -/
theorem eq_add_length_of_drop {x : Sentence} (hi : i ≤ u.length) (hj : j ≤ u.length)
    (hx : u.drop i = x ++ u.drop j) : j = i + x.length := by
  have hlen := congrArg List.length hx
  rw [List.length_append, List.length_drop, List.length_drop] at hlen
  omega

/-- A part of two pieces has a position between them. -/
theorem exists_drop_between {x y : Sentence} (hi : i ≤ u.length) (hk : k ≤ u.length)
    (hz : u.drop i = (x ++ y) ++ u.drop k) :
    ∃ j, j ≤ u.length ∧ u.drop i = x ++ u.drop j ∧ u.drop j = y ++ u.drop k := by
  have hlen := eq_add_length_of_drop hi hk hz
  rw [List.length_append] at hlen
  have hrest : u.drop (i + x.length) = y ++ u.drop k := by
    rw [← List.drop_drop, hz, List.append_assoc, List.drop_left]
  refine ⟨i + x.length, by omega, ?_, hrest⟩
  rw [hz, hrest, List.append_assoc]

theorem Spans.le (h : Spans rules u w i j) : i ≤ j := by
  obtain ⟨hi, hj, x, hx, -⟩ := h
  have := eq_add_length_of_drop hi hj hx
  omega

/-- A word that derives no empty sentence takes some room. -/
theorem Spans.lt (h : Spans rules u w i j) (hw : ¬ Yields rules w []) : i < j := by
  refine Nat.lt_of_le_of_ne h.le ?_
  rintro rfl
  obtain ⟨-, -, x, hx, hyield⟩ := h
  rw [List.self_eq_append_left.mp hx] at hyield
  exact hw hyield

/-- The whole sentence. -/
theorem spans_length_iff : Spans rules u w 0 u.length ↔ Yields rules w u := by
  unfold Spans
  rw [List.drop_zero, List.drop_length]
  refine ⟨fun ⟨_, _, x, hx, h⟩ => ?_, fun h => ⟨Nat.zero_le _, Nat.le_refl _, u, ?_, h⟩⟩
  · rwa [hx, List.append_nil]
  · rw [List.append_nil]

theorem spans_nil_iff : Spans rules u [] i j ↔ i ≤ u.length ∧ i = j := by
  refine ⟨fun ⟨hi, hj, x, hx, h⟩ => ⟨hi, ?_⟩, fun ⟨hi, hij⟩ => ⟨hi, hij ▸ hi, [], ?_, .nil⟩⟩
  · have hlen := eq_add_length_of_drop hi hj hx
    rw [yields_nil_iff.mp h] at hlen
    exact hlen.symm
  · rw [hij, List.nil_append]

theorem spans_append_iff :
    Spans rules u (v ++ w) i k ↔ ∃ j, Spans rules u v i j ∧ Spans rules u w j k := by
  refine ⟨fun ⟨hi, hk, z, hz, h⟩ => ?_, fun ⟨j, ⟨hi, _, x, hx, hv⟩, _, hk, y, hy, hw⟩ => ?_⟩
  · obtain ⟨x, y, rfl, hv, hw⟩ := yields_append_iff.mp h
    obtain ⟨j, hj, hx, hy⟩ := exists_drop_between hi hk hz
    exact ⟨j, ⟨hi, hj, x, hx, hv⟩, hj, hk, y, hy, hw⟩
  · refine ⟨hi, hk, x ++ y, ?_, hv.append hw⟩
    rw [hx, hy, List.append_assoc]

theorem spans_cons_iff {a : Symbol} :
    Spans rules u (a :: w) i k ↔ ∃ j, Spans rules u [a] i j ∧ Spans rules u w j k :=
  spans_append_iff (v := [a])

theorem spans_terminal_iff {t : Terminal} :
    Spans rules u [.terminal t] i j ↔ j = i + 1 ∧ u[i]? = some t.text := by
  refine ⟨fun ⟨hi, hj, x, hx, h⟩ => ?_, fun ⟨hj, hu⟩ => ?_⟩
  · obtain ⟨v, rfl, hv⟩ := yields_terminal_iff.mp h
    rw [yields_nil_iff.mp hv] at hx
    refine ⟨eq_add_length_of_drop hi hj hx, ?_⟩
    rw [← Nat.add_zero i, ← List.getElem?_drop, hx]
    rfl
  · obtain ⟨hi, hget⟩ := List.getElem?_eq_some_iff.mp hu
    refine ⟨Nat.le_of_lt hi, hj ▸ hi, [t.text], ?_, .terminal .nil⟩
    rw [hj, List.drop_eq_getElem_cons hi, hget]
    rfl

theorem spans_nonTerminal_iff {A : NonTerminal} :
    Spans rules u [.nonTerminal A] i j ↔ ∃ w, (A, w) ∈ rules ∧ Spans rules u w i j := by
  unfold Spans
  simp only [yields_singleton_iff]
  refine ⟨fun ⟨hi, hj, x, hx, w, hr, hw⟩ => ⟨w, hr, hi, hj, x, hx, hw⟩, ?_⟩
  exact fun ⟨w, hr, hi, hj, x, hx, hw⟩ => ⟨hi, hj, x, hx, w, hr, hw⟩

end ChomskyForm
