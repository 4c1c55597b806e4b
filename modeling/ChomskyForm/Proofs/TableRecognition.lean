import ChomskyForm.SpanTable
import ChomskyForm.Proofs.Spans

/-!
# The table recogniser decides the language without the empty production

A grammar in normal form derives a part of one letter by a terminal, and a longer part by
a pair and a position in between (`NormalForm.spans_one_iff`, `NormalForm.spans_more_iff`).
The empty production is left out here : a symbol of a pair never derives the empty sentence.

The cells of the table follow these two, row by row. A later row changes no earlier one, so
that the cell of a part holds what derives it in every table that has the row
(`NormalForm.mem_cell_iff`).

`NormalForm.recognizes_iff` : the table decides on non-empty sentences, and the flag of the
grammar on the empty one.
-/

namespace ChomskyForm

/-! ## Rows -/

namespace SpanTable

variable {rows : SpanTable} {row : List (List NonTerminal)} {m i : Nat}

theorem cell_append_of_lt (hm : m < rows.length) :
    SpanTable.cell (rows ++ [row]) m i = rows.cell m i := by
  rw [cell, cell, List.getElem?_append_left hm]

theorem cell_append_length (rows : SpanTable) (row : List (List NonTerminal)) (i : Nat) :
    SpanTable.cell (rows ++ [row]) rows.length i = row[i]?.getD [] := by
  rw [cell, List.getElem?_concat_length, Option.getD_some]

end SpanTable

namespace NormalForm

variable {c : NormalForm} {u : Sentence} {A : NonTerminal} {w : NormalWord} {i k m : Nat}

/-! ## Productions -/

/-- The grammar has the production. -/
def Has (c : NormalForm) (A : NonTerminal) (w : NormalWord) : Prop :=
  ∃ ws, (A, ws) ∈ c.productions.entries ∧ w ∈ ws

theorem mem_rules {v : Word} : (A, v) ∈ c.rules ↔
    (∃ w, c.Has A w ∧ v = w.word) ∨ (v = [] ∧ A = c.start ∧ c.erasable = true) := by
  simp only [rules, entryRules, List.mem_append, List.mem_flatMap, List.mem_map,
    OrderedSet.mem_toList, List.mem_ite_nil_right, List.mem_singleton, Prod.mk.injEq,
    Bool.and_eq_true, decide_eq_true_eq]
  refine ⟨?_, ?_⟩
  · rintro (⟨⟨hc, -⟩, rfl, rfl⟩ | ⟨e, he, ⟨w, hw, rfl, rfl⟩ | ⟨⟨hc, -⟩, rfl, rfl⟩⟩)
    · exact .inr ⟨rfl, rfl, hc⟩
    · exact .inl ⟨w, ⟨e.2, he, hw⟩, rfl⟩
    · exact .inr ⟨rfl, rfl, hc⟩
  · rintro (⟨w, ⟨ws, he, hw⟩, rfl⟩ | ⟨rfl, rfl, hc⟩)
    · exact .inr ⟨(A, ws), he, .inl ⟨w, hw, rfl, rfl⟩⟩
    · by_cases hkey : c.start ∈ c.productions.keys
      · obtain ⟨ws, he⟩ := OrderedMap.mem_keys.mp hkey
        exact .inr ⟨(c.start, ws), he, .inr ⟨⟨hc, rfl⟩, rfl, rfl⟩⟩
      · exact .inl ⟨⟨hc, hkey⟩, rfl, rfl⟩

theorem word_ne_nil (w : NormalWord) : w.word ≠ [] := by
  cases w <;> exact List.cons_ne_nil _ _

theorem mem_solid_rules {v : Word} : (A, v) ∈ solid c.rules ↔ ∃ w, c.Has A w ∧ v = w.word := by
  rw [mem_solid, mem_rules]
  refine ⟨fun ⟨h, hv⟩ => ?_, ?_⟩
  · exact h.resolve_right fun hnil => hv hnil.1
  · rintro ⟨w, hw, rfl⟩
    exact ⟨.inl ⟨w, hw, rfl⟩, word_ne_nil w⟩

/-- The alternatives of `A`, by their shape. -/
theorem spans_iff {j : Nat} : Spans (solid c.rules) u [.nonTerminal A] i j ↔
    (∃ t, c.Has A (.terminal t) ∧ j = i + 1 ∧ u[i]? = some t.text) ∨
      ∃ B C, c.Has A (.pair B C) ∧ ∃ k, Spans (solid c.rules) u [.nonTerminal B] i k ∧
        Spans (solid c.rules) u [.nonTerminal C] k j := by
  rw [spans_nonTerminal_iff]
  refine ⟨fun ⟨v, hr, hv⟩ => ?_, fun h => ?_⟩
  · obtain ⟨w, hw, rfl⟩ := mem_solid_rules.mp hr
    cases w with
    | terminal t => exact .inl ⟨t, hw, spans_terminal_iff.mp hv⟩
    | pair B C => exact .inr ⟨B, C, hw, spans_cons_iff.mp hv⟩
  · rcases h with ⟨t, ht, hj⟩ | ⟨B, C, hp, hk⟩
    · exact ⟨_, mem_solid_rules.mpr ⟨_, ht, rfl⟩, spans_terminal_iff.mpr hj⟩
    · exact ⟨_, mem_solid_rules.mpr ⟨_, hp, rfl⟩, spans_cons_iff.mpr hk⟩

theorem lt_of_spans {j : Nat} (h : Spans (solid c.rules) u [.nonTerminal A] i j) : i < j :=
  h.lt fun hnil => hnil.ne_nil_of_solid (List.cons_ne_nil _ _) rfl

/-- A single letter is derived by a terminal. -/
theorem spans_one_iff : Spans (solid c.rules) u [.nonTerminal A] i (i + 1) ↔
    ∃ t, c.Has A (.terminal t) ∧ u[i]? = some t.text := by
  rw [spans_iff]
  refine ⟨fun h => ?_, fun ⟨t, ht, hu⟩ => .inl ⟨t, ht, rfl, hu⟩⟩
  rcases h with ⟨t, ht, -, hu⟩ | ⟨B, C, -, j, hB, hC⟩
  · exact ⟨t, ht, hu⟩
  · have hi := lt_of_spans hB
    have hj := lt_of_spans hC
    omega

/-- More letters are derived by a pair that parts them. -/
theorem spans_more_iff : Spans (solid c.rules) u [.nonTerminal A] i (i + k + 2) ↔
    ∃ B C, c.Has A (.pair B C) ∧ ∃ m, m ≤ k ∧
      Spans (solid c.rules) u [.nonTerminal B] i (i + m + 1) ∧
        Spans (solid c.rules) u [.nonTerminal C] (i + m + 1) (i + k + 2) := by
  rw [spans_iff]
  refine ⟨fun h => ?_, fun ⟨B, C, hp, m, _, h⟩ => .inr ⟨B, C, hp, i + m + 1, h⟩⟩
  rcases h with ⟨t, -, hk, -⟩ | ⟨B, C, hp, j, hB, hC⟩
  · omega
  · have hi := lt_of_spans hB
    have hj := lt_of_spans hC
    obtain ⟨m, rfl⟩ := Nat.exists_eq_add_of_le hi
    rw [Nat.succ_add i m] at hB hC
    exact ⟨B, C, hp, m, by omega, hB, hC⟩

/-! ## The table -/

theorem mem_headsWith {p : NormalWord → Bool} :
    A ∈ c.headsWith p ↔ ∃ w, c.Has A w ∧ p w = true := by
  simp only [headsWith, List.mem_map, List.mem_filter, List.any_eq_true, OrderedSet.mem_toList]
  refine ⟨?_, ?_⟩
  · rintro ⟨e, ⟨he, w, hw, hp⟩, rfl⟩
    exact ⟨w, ⟨e.2, he, hw⟩, hp⟩
  · rintro ⟨w, ⟨ws, he, hw⟩, hp⟩
    exact ⟨(A, ws), ⟨he, w, hw, hp⟩, rfl⟩

theorem mem_headsWith_isLetter {a : String} :
    A ∈ c.headsWith (NormalWord.isLetter a) ↔ ∃ t, c.Has A (.terminal t) ∧ t.text = a := by
  rw [mem_headsWith]
  refine ⟨fun ⟨w, hw, ha⟩ => ?_, fun ⟨t, ht, ha⟩ => ⟨_, ht, decide_eq_true ha⟩⟩
  cases w with
  | terminal t => exact ⟨t, hw, of_decide_eq_true ha⟩
  | pair B C => cases ha

theorem mem_nextCell {rows : SpanTable} :
    A ∈ c.nextCell rows k i ↔ ∃ B C, c.Has A (.pair B C) ∧
      ∃ m, m ≤ k ∧ B ∈ rows.cell m i ∧ C ∈ rows.cell (k - m) (i + m + 1) := by
  rw [nextCell, mem_headsWith]
  simp only [List.any_eq_true, List.mem_range, Nat.lt_succ_iff]
  refine ⟨fun ⟨w, hw, m, hm, hjoin⟩ => ?_, fun ⟨B, C, hp, m, hm, hB, hC⟩ => ?_⟩
  · cases w with
    | terminal t => cases hjoin
    | pair B C =>
      rw [NormalWord.joins, Bool.and_eq_true, decide_eq_true_iff, decide_eq_true_iff] at hjoin
      exact ⟨B, C, hw, m, hm, hjoin⟩
  · refine ⟨_, hp, m, hm, ?_⟩
    rw [NormalWord.joins, Bool.and_eq_true, decide_eq_true_iff, decide_eq_true_iff]
    exact ⟨hB, hC⟩

theorem length_spanTable (c : NormalForm) (u : Sentence) :
    ∀ k, (c.spanTable u k).length = k + 1
  | 0 => rfl
  | k + 1 => by rw [spanTable, List.length_append, length_spanTable c u k, List.length_singleton]

/-- The last row is computed from the others. -/
theorem cell_last (hi : i + (k + 1) < u.length) :
    (c.spanTable u (k + 1)).cell (k + 1) i = c.nextCell (c.spanTable u k) k i := by
  have hlast := SpanTable.cell_append_length (c.spanTable u k)
    ((List.range (u.length - (k + 1))).map (c.nextCell (c.spanTable u k) k)) i
  rw [length_spanTable] at hlast
  have hrange : i < u.length - (k + 1) := by omega
  rw [spanTable, hlast, List.getElem?_map, List.getElem?_range hrange]
  rfl

/-- The cell for a part of the sentence holds the non-terminals that derive it. -/
theorem mem_cell_iff : ∀ {k m i : Nat}, m ≤ k → i + m < u.length → ∀ {A : NonTerminal},
    (A ∈ (c.spanTable u k).cell m i ↔ Spans (solid c.rules) u [.nonTerminal A] i (i + m + 1))
  | 0, m, i, hm, hi, A => by
    obtain rfl : m = 0 := Nat.le_zero.mp hm
    have hi : i < u.length := hi
    have hcell : (c.spanTable u 0).cell 0 i = c.headsWith (NormalWord.isLetter u[i]) := by
      show ((u.map _)[i]?).getD [] = _
      rw [List.getElem?_map, List.getElem?_eq_getElem hi]
      rfl
    rw [hcell, mem_headsWith_isLetter, Nat.add_zero, spans_one_iff]
    simp only [List.getElem?_eq_getElem hi, Option.some.injEq, eq_comm]
  | k + 1, m, i, hm, hi, A => by
    rcases Nat.lt_or_eq_of_le hm with hlt | rfl
    · rw [spanTable, SpanTable.cell_append_of_lt (by rwa [length_spanTable])]
      exact mem_cell_iff (Nat.le_of_lt_succ hlt) hi
    · rw [cell_last hi, mem_nextCell]
      refine Iff.trans ?_ spans_more_iff.symm
      refine exists_congr fun B => exists_congr fun C => and_congr_right fun _ =>
        exists_congr fun m => and_congr_right fun hm => ?_
      have hend : i + m + 1 + (k - m) + 1 = i + k + 2 := by omega
      rw [mem_cell_iff hm (by omega), mem_cell_iff (Nat.sub_le k m) (by omega), hend]

/-! ## The recogniser -/

theorem recognizes_nil (c : NormalForm) : c.recognizes [] = c.erasable := rfl

/-- The table says yes to a non-empty sentence exactly if the start symbol derives it
without the empty production. -/
theorem recognizes_iff (hu : u ≠ []) :
    c.recognizes u = true ↔ Yields (solid c.rules) [.nonTerminal c.start] u := by
  obtain ⟨n, hn⟩ := Nat.exists_eq_succ_of_ne_zero (mt List.eq_nil_of_length_eq_zero hu)
  rw [← spans_length_iff]
  unfold recognizes
  rw [hn]
  show decide _ = true ↔ _
  rw [decide_eq_true_iff, mem_cell_iff (Nat.le_refl n) (by omega), Nat.zero_add]

end NormalForm

end ChomskyForm
