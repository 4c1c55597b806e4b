import ChomskyForm.ChartScan
import ChomskyForm.Proofs.ChartRecognition
import ChomskyForm.Proofs.CheckedLoops

/-!
# A chart filled in place decides the language

The facts change while a round is under way, so the invariant of a scan is what holds of
every chart in between : its facts are true (`Chart.Sound`). That is enough for no letter
to be looked up beyond the sentence, and for the tries of a scan to find what a walk along
the right-hand side finds (`Chart.fits?_eq`).

A round either marks that it has made the chart larger, or it has changed nothing and has
found every left-hand side settled (`Chart.Settled`), so that the chart is closed
(`Chart.closed_of_settled`). There is not always room for one more fact, and the rounds
come to an end (`Chart.exists_fill`).

`Grammar.scan_decides` : a scan has an answer for every grammar and every sentence, the one
of the chart that grows by whole rounds, and it is yes exactly for the language.
-/

namespace ChomskyForm

variable {p : Productions} {u : Sentence} {c : Chart} {i j m : Nat}

/-! ## Trying the alternatives -/

namespace Chart

theorem fitsSymbol?_eq {a : Symbol} (hm : m ≤ u.length) :
    c.fitsSymbol? u i m a = some (decide (m ∈ c.advance u a i)) := by
  cases a with
  | nonTerminal A => simp only [fitsSymbol?, advance, mem_ends]
  | terminal t =>
    rw [fitsSymbol?, advance]
    by_cases hend : m = i + 1
    · have hi : i < u.length := by omega
      rw [if_pos hend, List.getElem?_eq_getElem hi]
      by_cases hletter : u[i] = t.text <;> simp [hletter, hend]
    · rw [if_neg hend]
      split <;> simp [hend]

/-- The tries stay within the sentence, and they find what a walk finds. -/
theorem fits?_eq {rules : List Rule} (hs : c.Sound rules u) (hj : j ≤ u.length) :
    ∀ {w : Word} {i : Nat}, i ≤ j → c.fits? u j w i = some (decide (j ∈ c.reach u w [i]))
  | [], i, _ => by simp only [fits?, mem_reach_nil, eq_comm]
  | a :: w, i, hi => by
    have htry : ∀ m ∈ List.range' i (j + 1 - i),
        (do if ← c.fitsSymbol? u i m a then c.fits? u j w m else return false) =
          some (decide (m ∈ c.advance u a i ∧ j ∈ c.reach u w [m])) := fun m hm => by
      have hrange := List.mem_range'_1.mp hm
      rw [fitsSymbol?_eq (by omega), fits?_eq hs hj (by omega)]
      by_cases ha : m ∈ c.advance u a i <;> simp [ha]
    rw [fits?, anyM_eq_some htry, Option.some_inj, Bool.eq_iff_iff, List.any_eq_true,
      decide_eq_true_iff, mem_reach_cons]
    refine ⟨fun ⟨m, _, hm⟩ => ⟨m, of_decide_eq_true hm⟩, fun ⟨m, ha, hw⟩ => ?_⟩
    -- a walk cannot pass the end of the part and come back
    have hfirst := hs.spans_advance ha
    have hrest := hs.spans_reach hfirst.2.1 hw
    have hle := hfirst.le
    have hle' := hrest.le
    exact ⟨m, List.mem_range'_1.mpr (by omega), decide_eq_true ⟨ha, hw⟩⟩

theorem mem_parts {part : Nat × Nat} :
    part ∈ parts u ↔ part.1 ≤ part.2 ∧ part.2 ≤ u.length := by
  obtain ⟨i, j⟩ := part
  simp only [parts, List.mem_flatMap, List.mem_map, List.mem_range, List.mem_range'_1,
    Prod.mk.injEq]
  refine ⟨?_, fun h => ⟨i, by omega, j, by omega, rfl, rfl⟩⟩
  rintro ⟨i, hi, j, hj, rfl, rfl⟩
  omega

end Chart

/-! ## One round -/

/-- The chart has grown and is marked so, or nothing has happened. -/
structure Filling.Leads (s t : Filling) : Prop where
  size_le : s.chart.size ≤ t.chart.size
  eq_of_unmarked : t.changed = false → t = s
  grown_of_marked : t.changed = true → s.changed = true ∨ s.chart.size < t.chart.size

theorem Filling.Leads.refl (s : Filling) : s.Leads s :=
  ⟨Nat.le_refl _, fun _ => rfl, .inl⟩

theorem Filling.Leads.trans {r s t : Filling} (hrs : r.Leads s) (hst : s.Leads t) : r.Leads t where
  size_le := Nat.le_trans hrs.size_le hst.size_le
  eq_of_unmarked ht := by
    cases hst.eq_of_unmarked ht
    exact hrs.eq_of_unmarked ht
  grown_of_marked ht := by
    rcases hst.grown_of_marked ht with hs | hlt
    · exact (hrs.grown_of_marked hs).imp_right fun hlt => Nat.lt_of_lt_of_le hlt hst.size_le
    · exact .inr (Nat.lt_of_le_of_lt hrs.size_le hlt)

namespace Chart

/-- If this round has added nothing so far, then neither is there a fact to add for the
left-hand side and the part. -/
def Settled (u : Sentence) (e : NonTerminal × OrderedSet Word) (part : Nat × Nat)
    (s : Filling) : Prop :=
  s.changed = false → ∀ w ∈ e.2, part.2 ∈ s.chart.reach u w [part.1] →
    ⟨part.1, part.2, e.1⟩ ∈ s.chart

theorem Settled.mono {e : NonTerminal × OrderedSet Word} {part : Nat × Nat} {s t : Filling}
    (hst : s.Leads t) (h : Settled u e part s) : Settled u e part t := fun ht => by
  cases hst.eq_of_unmarked ht
  exact h ht

theorem size_insert_of_not_mem {f : Fact} (hf : f ∉ c) : (c.insert f).size = c.size + 1 := by
  rw [OrderedSet.size, OrderedSet.toList_insert_of_not_mem hf, List.length_append]
  rfl

/-- A visit has an answer, adds no false fact, and leaves its place settled. -/
theorem exists_visit {e : NonTerminal × OrderedSet Word} (he : e ∈ p.entries)
    {part : Nat × Nat} (hpart : part ∈ parts u) {s : Filling} (hs : s.chart.Sound p.rules u) :
    ∃ t, visit u e s part = some t ∧ t.chart.Sound p.rules u ∧ s.Leads t ∧
      Settled u e part t := by
  obtain ⟨hi, hj⟩ := mem_parts.mp hpart
  have hany := anyM_eq_some (l := e.2.toList) fun w _ => fits?_eq hs hj (w := w) hi
  unfold visit
  extract_lets f
  by_cases hf : f ∈ s.chart
  · exact ⟨s, if_pos hf, hs, .refl s, fun _ _ _ _ => hf⟩
  · rw [if_neg hf, hany]
    cases hshown : e.2.toList.any fun w => decide (part.2 ∈ s.chart.reach u w [part.1]) with
    | true =>
      obtain ⟨w, hw, hreach⟩ := List.any_eq_true.mp hshown
      have hfact := hs.spans_reach (Nat.le_trans hi hj) (of_decide_eq_true hreach)
      have hsize := size_insert_of_not_mem hf
      refine ⟨⟨s.chart.insert f, true⟩, rfl, fun k hk => ?_, ⟨?_, nofun, fun _ => .inr ?_⟩, nofun⟩
      · rcases OrderedSet.mem_insert.mp hk with hk | rfl
        · exact hs k hk
        · exact spans_nonTerminal_iff.mpr ⟨w, Productions.mem_rules.mpr ⟨e.2, he, hw⟩, hfact⟩
      · exact hsize ▸ Nat.le_succ _
      · exact hsize ▸ Nat.lt_succ_self _
    | false =>
      refine ⟨s, rfl, hs, .refl s, fun _ w hw hreach => ?_⟩
      rw [List.any_eq_false] at hshown
      exact absurd (decide_eq_true hreach) (hshown w hw)

/-- A round has an answer, and it either adds a fact or leaves every place settled. -/
theorem exists_round (hs : c.Sound p.rules u) : ∃ s, c.round u p = some s ∧
    s.chart.Sound p.rules u ∧ Filling.Leads ⟨c, false⟩ s ∧
      ∀ e ∈ p.entries, ∀ part ∈ parts u, Settled u e part s := by
  refine exists_foldlM (s := ⟨c, false⟩) (P := fun s => s.chart.Sound p.rules u)
    (Q := fun e s => ∀ part ∈ parts u, Settled u e part s) Filling.Leads.refl
    (fun _ _ _ => .trans) (fun _ _ _ hst h part hpart => (h part hpart).mono hst) ?_ hs
  intro e he s hs
  exact exists_foldlM (P := fun s => s.chart.Sound p.rules u) Filling.Leads.refl
    (fun _ _ _ => .trans) (fun _ _ _ => .mono) (fun part hpart _ => exists_visit he hpart) hs

/-- A chart is closed if every place is settled. -/
theorem closed_of_settled (hs : c.Sound p.rules u)
    (h : ∀ e ∈ p.entries, ∀ part ∈ parts u, Settled u e part ⟨c, false⟩) : c.Closed p u := by
  have hgrow : ∀ f ∈ c.grow p u, f ∈ c := fun f hf => by
    rcases mem_grow.mp hf with hf | ⟨hi, w, hr, hreach⟩
    · exact hf
    · obtain ⟨ws, he, hw⟩ := Productions.mem_rules.mp hr
      have hfact := hs.spans_reach hi hreach
      exact h _ he (f.first, f.last) (mem_parts.mpr ⟨hfact.le, hfact.2.1⟩) rfl w hw hreach
  exact OrderedSet.insertAll_of_forall_mem fun f hf =>
    hgrow f (OrderedSet.mem_insertAll.mpr (.inr hf))

/-! ## All rounds -/

/-- The rounds come to an end before there are more facts than there can be. -/
theorem exists_fill : ∀ (n : Nat) {c : Chart}, c.Sound p.rules u →
    p.size * ((u.length + 1) * (u.length + 1)) < c.size + n →
      ∃ d, fill p u n c = some d ∧ d.Sound p.rules u ∧ d.Closed p u
  | 0, c, hs, hlt => absurd hs.size_le (Nat.not_le_of_lt hlt)
  | n + 1, c, hs, hlt => by
    obtain ⟨s, hround, hsound, hleads, hsettled⟩ := exists_round hs
    rw [fill, hround]
    cases hmark : s.changed with
    | false =>
      cases hleads.eq_of_unmarked hmark
      exact ⟨c, rfl, hs, closed_of_settled hs hsettled⟩
    | true =>
      have hgrown := (hleads.grown_of_marked hmark).resolve_left Bool.false_ne_true
      have hmore : c.size < s.chart.size := hgrown
      obtain ⟨d, hfill, hd⟩ := exists_fill n hsound (by omega)
      refine ⟨d, ?_, hd⟩
      show (if s.changed then fill p u n s.chart else some s.chart) = some d
      rw [hmark]
      exact hfill

end Chart

namespace Grammar

/-- A scan has the answer of the chart that grows by whole rounds. -/
theorem scan_eq_recognizes (g : Grammar) (u : Sentence) : g.scan u = some (g.recognizes u) := by
  have hempty : Chart.Sound g.rules u .empty := fun _ hf => absurd hf OrderedSet.mem_empty
  obtain ⟨d, hfill, hsound, hclosed⟩ := Chart.exists_fill (p := g.productions)
    (g.productions.size * ((u.length + 1) * (u.length + 1)) + 1) hempty
    (Nat.lt_of_lt_of_le (Nat.lt_succ_self _) (Nat.le_add_left _ _))
  have hsame : (⟨0, u.length, g.start⟩ ∈ d) ↔ ⟨0, u.length, g.start⟩ ∈ g.chart u := by
    rw [Chart.mem_iff_spans hsound hclosed,
      Chart.mem_iff_spans (g.sound_chart u) (g.closed_chart u)]
  unfold scan
  extract_lets facts
  rw [hfill]
  exact congrArg some (decide_eq_decide.mpr hsame)

/-- For every grammar and every sentence a scan comes to its end without looking beyond the
sentence. Its answer is that of the recogniser, which is yes exactly for the language. -/
theorem scan_decides (g : Grammar) (u : Sentence) :
    g.scan u = some (g.recognizes u) ∧ (g.recognizes u = true ↔ g.Generates u) :=
  ⟨g.scan_eq_recognizes u, recognizes_iff⟩

end Grammar

end ChomskyForm
