import ChomskyForm.Chart
import ChomskyForm.Proofs.Spans

/-!
# The chart recogniser decides the language

Every fact of a chart is true (`Chart.Sound`), since a walk along a right-hand side only
uses true facts. A chart that no longer grows (`Chart.Closed`) has all of them, by recursion
on the derivation (`Chart.Closed.mem_reach`).

A round that adds nothing leaves the chart closed. There are only as many true facts as
left-hand sides and pairs of positions, so that one of the rounds adds nothing
(`Grammar.closed_chart`).

`Grammar.recognizes_iff` : the recogniser says yes exactly to the language of the grammar.
-/

namespace ChomskyForm

variable {rules : List Rule} {u : Sentence} {c : Chart} {w : Word} {i j : Nat}

namespace Chart

/-! ## Walks -/

theorem mem_ends {A : NonTerminal} : j ∈ c.ends A i ↔ ⟨i, j, A⟩ ∈ c := by
  simp only [ends, List.mem_map, List.mem_filter, Bool.and_eq_true, decide_eq_true_eq]
  refine ⟨?_, fun h => ⟨⟨i, j, A⟩, ⟨h, rfl, rfl⟩, rfl⟩⟩
  rintro ⟨f, ⟨hf, rfl, rfl⟩, rfl⟩
  exact hf

/-- A walk can stand where a walk from one of the positions can. -/
theorem mem_reach_iff : ∀ {w : Word} {is : List Nat},
    j ∈ c.reach u w is ↔ ∃ i ∈ is, j ∈ c.reach u w [i]
  | [], is => by simp [reach]
  | a :: w, is => by
    have hstep : ∀ is, j ∈ c.reach u (a :: w) is ↔
        ∃ i ∈ is, ∃ m ∈ c.advance u a i, j ∈ c.reach u w [m] := by
      intro is
      rw [reach, mem_reach_iff]
      simp only [List.mem_eraseDups, List.mem_flatMap]
      exact ⟨fun ⟨m, ⟨i, hi, hm⟩, hj⟩ => ⟨i, hi, m, hm, hj⟩,
        fun ⟨i, hi, m, hm, hj⟩ => ⟨m, ⟨i, hi, hm⟩, hj⟩⟩
    rw [hstep]
    refine exists_congr fun i => and_congr_right fun _ => ?_
    rw [hstep]
    simp

theorem mem_reach_nil : j ∈ c.reach u [] [i] ↔ j = i := List.mem_singleton

theorem mem_reach_cons {a : Symbol} {k : Nat} :
    k ∈ c.reach u (a :: w) [i] ↔ ∃ j ∈ c.advance u a i, k ∈ c.reach u w [j] := by
  rw [reach, mem_reach_iff]
  simp

/-! ## Rounds -/

theorem mem_grow {p : Productions} {f : Fact} :
    f ∈ c.grow p u ↔ f ∈ c ∨ f.first ≤ u.length ∧
      ∃ w, (f.symbol, w) ∈ p.rules ∧ f.last ∈ c.reach u w [f.first] := by
  rw [grow, OrderedSet.mem_insertAll]
  refine or_congr_right ?_
  simp only [entryFacts, List.mem_flatMap, List.mem_range, List.mem_map, OrderedSet.mem_toList,
    Productions.mem_rules]
  refine ⟨?_, ?_⟩
  · rintro ⟨⟨A, ws⟩, he, i, hi, w, hw, j, hj, rfl⟩
    exact ⟨Nat.le_of_lt_succ hi, w, ⟨ws, he, hw⟩, hj⟩
  · rintro ⟨hi, w, ⟨ws, he, hw⟩, hj⟩
    exact ⟨(f.symbol, ws), he, f.first, Nat.lt_succ_of_le hi, w, hw, f.last, hj, rfl⟩

/-- Nothing is left to add. -/
def Closed (p : Productions) (u : Sentence) (c : Chart) : Prop := c.grow p u = c

/-- After `n` rounds the chart is closed, or each of them added a fact. -/
theorem closed_saturate_or (p : Productions) (u : Sentence) :
    ∀ (n : Nat) (c : Chart), (saturate p u n c).Closed p u ∨ c.size + n ≤ (saturate p u n c).size
  | 0, _ => .inr (Nat.le_refl _)
  | n + 1, c => by
    unfold saturate
    extract_lets d
    split
    · rename_i h
      exact .inl (OrderedSet.insertAll_eq_self h)
    · rename_i h
      have hgrow : c.size ≤ d.size := OrderedSet.size_le_size_insertAll _ c
      refine (closed_saturate_or p u n d).imp_right fun hle => ?_
      omega

/-! ## Soundness -/

/-- Every fact is true. -/
def Sound (rules : List Rule) (u : Sentence) (c : Chart) : Prop :=
  ∀ f ∈ c, Spans rules u [.nonTerminal f.symbol] f.first f.last

theorem Sound.spans_advance (h : c.Sound rules u) {a : Symbol} (hj : j ∈ c.advance u a i) :
    Spans rules u [a] i j := by
  cases a with
  | terminal t =>
    rw [advance] at hj
    split at hj
    · rename_i hu
      exact spans_terminal_iff.mpr ⟨List.mem_singleton.mp hj, hu⟩
    · exact absurd hj List.not_mem_nil
  | nonTerminal A => exact h _ (mem_ends.mp hj)

theorem Sound.spans_reach (h : c.Sound rules u) : ∀ {w : Word} {i : Nat}, i ≤ u.length →
    j ∈ c.reach u w [i] → Spans rules u w i j
  | [], _, hi, hj => spans_nil_iff.mpr ⟨hi, (mem_reach_nil.mp hj).symm⟩
  | _ :: _, _, _, hj => by
    obtain ⟨m, hm, hj⟩ := mem_reach_cons.mp hj
    have ha := h.spans_advance hm
    exact spans_cons_iff.mpr ⟨m, ha, h.spans_reach ha.2.1 hj⟩

theorem Sound.grow {p : Productions} (h : c.Sound p.rules u) : (c.grow p u).Sound p.rules u := by
  intro f hf
  rcases mem_grow.mp hf with hf | ⟨hi, w, hr, hj⟩
  · exact h f hf
  · exact spans_nonTerminal_iff.mpr ⟨w, hr, h.spans_reach hi hj⟩

theorem Sound.saturate {p : Productions} : ∀ (n : Nat) {c : Chart}, c.Sound p.rules u →
    (saturate p u n c).Sound p.rules u
  | 0, _, h => h
  | n + 1, c, h => by
    unfold Chart.saturate
    extract_lets d
    split
    · exact h
    · exact Sound.saturate n h.grow

/-! ## Completeness -/

/-- A closed chart walks along every derivation. -/
theorem Closed.mem_reach {p : Productions} (h : c.Closed p u) : ∀ {w : Word} {x : Sentence},
    Yields p.rules w x → ∀ {i j : Nat}, i ≤ u.length → j ≤ u.length →
      u.drop i = x ++ u.drop j → j ∈ c.reach u w [i]
  | _, _, .nil, _, _, hi, hj, hx => mem_reach_nil.mpr (eq_add_length_of_drop hi hj hx)
  | _, _, .terminal (t := t) hw, i, j, hi, hj, hx => by
    obtain ⟨m, hm, hletter, hrest⟩ := exists_drop_between (x := [t.text]) hi hj hx
    have hspan : Spans p.rules u [.terminal t] i m := ⟨hi, hm, _, hletter, .terminal .nil⟩
    obtain ⟨hnext, hu⟩ := spans_terminal_iff.mp hspan
    refine mem_reach_cons.mpr ⟨m, ?_, h.mem_reach hw hm hj hrest⟩
    rw [advance, if_pos hu, hnext]
    exact List.mem_singleton_self _
  | _, _, .nonTerminal (A := A) hr hv hw, i, j, hi, hj, hx => by
    obtain ⟨m, hm, hfirst, hrest⟩ := exists_drop_between hi hj hx
    have hfact : ⟨i, m, A⟩ ∈ c.grow p u :=
      mem_grow.mpr (.inr ⟨hi, _, hr, h.mem_reach hv hi hm hfirst⟩)
    rw [h] at hfact
    exact mem_reach_cons.mpr ⟨m, mem_ends.mpr hfact, h.mem_reach hw hm hj hrest⟩

/-- A sound and closed chart has exactly the true facts. -/
theorem mem_iff_spans {p : Productions} (hs : c.Sound p.rules u) (hc : c.Closed p u) {f : Fact} :
    f ∈ c ↔ Spans p.rules u [.nonTerminal f.symbol] f.first f.last := by
  refine ⟨hs f, fun h => ?_⟩
  obtain ⟨w, hr, hi, hj, x, hx, hw⟩ := spans_nonTerminal_iff.mp h
  rw [← hc]
  exact mem_grow.mpr (.inr ⟨hi, w, hr, hc.mem_reach hw hi hj hx⟩)

/-! ## Enough rounds -/

/-- Every fact there can be. -/
def facts (p : Productions) (u : Sentence) : List Fact :=
  p.keys.flatMap fun A => (List.range (u.length + 1)).flatMap fun i =>
    (List.range (u.length + 1)).map fun j => ⟨i, j, A⟩

theorem length_facts (p : Productions) (u : Sentence) :
    (facts p u).length = p.size * ((u.length + 1) * (u.length + 1)) := by
  simp only [facts, List.length_flatMap, List.length_map, List.length_range, List.map_const',
    List.sum_replicate_nat, OrderedMap.length_keys]

theorem Sound.size_le {p : Productions} (h : c.Sound p.rules u) :
    c.size ≤ p.size * ((u.length + 1) * (u.length + 1)) := by
  rw [← length_facts]
  refine c.nodup.length_le_of_subset fun f hf => ?_
  have hf' := h f hf
  obtain ⟨w, hr, -⟩ := spans_nonTerminal_iff.mp hf'
  obtain ⟨ws, he, -⟩ := Productions.mem_rules.mp hr
  refine List.mem_flatMap.mpr ⟨f.symbol, OrderedMap.mem_keys.mpr ⟨ws, he⟩, ?_⟩
  refine List.mem_flatMap.mpr ⟨f.first, List.mem_range.mpr (Nat.lt_succ_of_le hf'.1), ?_⟩
  exact List.mem_map.mpr ⟨f.last, List.mem_range.mpr (Nat.lt_succ_of_le hf'.2.1), rfl⟩

end Chart

namespace Grammar

theorem sound_chart (g : Grammar) (u : Sentence) : (g.chart u).Sound g.rules u :=
  Chart.Sound.saturate _ fun _ hf => absurd hf OrderedSet.mem_empty

theorem closed_chart (g : Grammar) (u : Sentence) : (g.chart u).Closed g.productions u := by
  have hle := (g.sound_chart u).size_le
  refine (Chart.closed_saturate_or g.productions u _ .empty).resolve_right fun hgrown => ?_
  have hrounds := Nat.le_trans (Nat.le_add_left _ _) hgrown
  exact Nat.not_succ_le_self _ (Nat.le_trans hrounds hle)

/-- The chart recogniser says yes exactly to the language of the grammar. -/
theorem recognizes_iff {g : Grammar} {u : Sentence} : g.recognizes u = true ↔ g.Generates u := by
  rw [recognizes, decide_eq_true_iff, Chart.mem_iff_spans (g.sound_chart u) (g.closed_chart u)]
  exact spans_length_iff

end Grammar

end ChomskyForm
