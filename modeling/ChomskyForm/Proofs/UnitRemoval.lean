import Mathlib.Logic.Relation
import ChomskyForm.UnitClosure
import ChomskyForm.Proofs.EpsilonRemoval
import ChomskyForm.Proofs.Simulation

/-!
# Removal of unit productions keeps the language

`Grammar.unitClosure g A` holds exactly what unit productions lead to from `A`
(`Grammar.mem_unitClosure`). The search by levels is sound because each level follows
unit productions, and every member below the last level has its targets among the seen
(`Grammar.UnitSearched`). It may stop after as many rounds as there are left-hand sides :
a level that is not empty comes from a new left-hand side in each level before it
(`Grammar.exists_heads_unitSearch`).

Nothing new is derived (`Grammar.yields_of_removeUnits`). An empty alternative is not
taken over, so the converse is for derivations without empty productions
(`Grammar.yields_solid_removeUnits`). These derive every non-empty sentence if there are
no empty productions, or if they have been removed before (`Grammar.derives_removeUnits`).
-/

namespace ChomskyForm

namespace Grammar

/-! ## The closure -/

/-- `A → B` is a production. -/
def UnitLeads (g : Grammar) (A B : NonTerminal) : Prop := (A, [.nonTerminal B]) ∈ g.rules

/-- Unit productions lead from `A` to `B`, in any number of steps. -/
def UnitReaches (g : Grammar) : NonTerminal → NonTerminal → Prop :=
  Relation.ReflTransGen g.UnitLeads

/-- What a search from `A` has seen is reached, and a member below the last level has its
targets among the seen. -/
structure UnitSearched (g : Grammar) (A : NonTerminal) (s : UnitSearch) : Prop where
  start_mem : A ∈ s.seen
  reached : ∀ B ∈ s.seen, g.UnitReaches A B
  level_seen : ∀ B ∈ s.level, B ∈ s.seen
  followed : ∀ B ∈ s.seen, B ∉ s.level → ∀ C, g.UnitLeads B C → C ∈ s.seen

variable {g : Grammar} {A B : NonTerminal} {s : UnitSearch}

theorem mem_unitTargets : B ∈ g.unitTargets A ↔ g.UnitLeads A B := by
  simp [unitTargets, UnitLeads, mem_alternatives]

theorem UnitLeads.mem_keys (h : g.UnitLeads A B) : A ∈ g.productions.keys :=
  fst_mem_keys h

theorem mem_level_unitStep :
    B ∈ (g.unitStep s).level ↔ B ∉ s.seen ∧ ∃ C ∈ s.level, g.UnitLeads C B := by
  simp [unitStep, mem_unitTargets, and_comm]

theorem mem_seen_unitStep :
    B ∈ (g.unitStep s).seen ↔ B ∈ s.seen ∨ B ∈ (g.unitStep s).level := by
  simp [unitStep]

theorem UnitSearched.start (g : Grammar) (A : NonTerminal) :
    g.UnitSearched A (g.unitSearch A 0) where
  start_mem := OrderedSet.mem_singleton.mpr rfl
  reached B hB := by
    rw [OrderedSet.mem_singleton.mp hB]
    exact .refl
  level_seen _ hB := hB
  followed _ hB hne := absurd hB hne

theorem UnitSearched.step (h : g.UnitSearched A s) : g.UnitSearched A (g.unitStep s) where
  start_mem := mem_seen_unitStep.mpr (.inl h.start_mem)
  reached B hB := by
    rcases mem_seen_unitStep.mp hB with hB | hB
    · exact h.reached B hB
    · obtain ⟨-, C, hC, hlead⟩ := mem_level_unitStep.mp hB
      exact (h.reached C (h.level_seen C hC)).tail hlead
  level_seen _ hB := mem_seen_unitStep.mpr (.inr hB)
  followed B hB hlevel C hlead := by
    rcases mem_seen_unitStep.mp hB with hB | hB
    · by_cases hlast : B ∈ s.level
      · by_cases hC : C ∈ s.seen
        · exact mem_seen_unitStep.mpr (.inl hC)
        · exact mem_seen_unitStep.mpr (.inr (mem_level_unitStep.mpr ⟨hC, B, hlast, hlead⟩))
      · exact mem_seen_unitStep.mpr (.inl (h.followed B hB hlast C hlead))
    · exact absurd hB hlevel

theorem unitSearched (g : Grammar) (A : NonTerminal) : ∀ n, g.UnitSearched A (g.unitSearch A n)
  | 0 => .start g A
  | n + 1 => (unitSearched g A n).step

/-- A level that is not empty has below it a left-hand side for each round. -/
theorem exists_heads_unitSearch (g : Grammar) (A : NonTerminal) : ∀ n,
    (∃ B, B ∈ (g.unitSearch A n).level) → ∃ heads : List NonTerminal,
      heads.Nodup ∧ heads.length = n ∧ ∀ B ∈ heads, B ∈ g.productions.keys ∧
        B ∈ (g.unitSearch A n).seen ∧ B ∉ (g.unitSearch A n).level
  | 0, _ => ⟨[], List.nodup_nil, rfl, by simp⟩
  | n + 1, ⟨C, hC⟩ => by
    obtain ⟨-, B, hB, hlead⟩ := mem_level_unitStep.mp hC
    obtain ⟨heads, hnodup, hlen, hheads⟩ := exists_heads_unitSearch g A n ⟨B, hB⟩
    -- a level holds nothing that was seen before
    have hbelow : ∀ D, D ∈ (g.unitSearch A n).seen →
        D ∈ (g.unitSearch A (n + 1)).seen ∧ D ∉ (g.unitSearch A (n + 1)).level := fun D hD =>
      ⟨mem_seen_unitStep.mpr (.inl hD), fun hlevel => (mem_level_unitStep.mp hlevel).1 hD⟩
    have hnew : B ∉ heads := fun hmem => (hheads B hmem).2.2 hB
    refine ⟨B :: heads, List.nodup_cons.mpr ⟨hnew, hnodup⟩, by simp [hlen], fun D hD => ?_⟩
    rcases List.mem_cons.mp hD with rfl | hD
    · exact ⟨hlead.mem_keys, hbelow _ ((unitSearched g A n).level_seen _ hB)⟩
    · exact ⟨(hheads D hD).1, hbelow D (hheads D hD).2.1⟩

/-- The closure is closed under unit productions. -/
theorem mem_unitClosure_of_leads {C : NonTerminal} (hB : B ∈ g.unitClosure A)
    (hlead : g.UnitLeads B C) : C ∈ g.unitClosure A := by
  refine (unitSearched g A g.productions.size).followed B hB (fun hlevel => ?_) C hlead
  obtain ⟨heads, hnodup, hlen, hheads⟩ := exists_heads_unitSearch g A _ ⟨B, hlevel⟩
  have hnew : B ∉ heads := fun hmem => (hheads B hmem).2.2 hlevel
  have hkeys : B :: heads ⊆ g.productions.keys := fun D hD => by
    rcases List.mem_cons.mp hD with rfl | hD
    · exact hlead.mem_keys
    · exact (hheads D hD).1
  have hle := (List.nodup_cons.mpr ⟨hnew, hnodup⟩).length_le_of_subset hkeys
  rw [List.length_cons, hlen, OrderedMap.length_keys] at hle
  omega

/-- The closure holds exactly what unit productions lead to. -/
theorem mem_unitClosure : B ∈ g.unitClosure A ↔ g.UnitReaches A B := by
  refine ⟨(unitSearched g A _).reached B, fun h => ?_⟩
  induction h with
  | refl => exact (unitSearched g A _).start_mem
  | tail _ hlead ih => exact mem_unitClosure_of_leads ih hlead

/-! ## The pass -/

/-- The productions that are left. -/
theorem mem_rules_removeUnits {w : Word} :
    (A, w) ∈ g.removeUnits.rules ↔ w.unit? = none ∧
      ∃ B, g.UnitReaches A B ∧ (B, w) ∈ g.rules ∧ (w ≠ [] ∨ A = B) := by
  have htaken : (A, w) ∈ g.removeUnits.rules ↔ A ∈ g.productions.keys ∧
      ∃ B, g.UnitReaches A B ∧ (B, w) ∈ g.rules ∧ w.unit? = none ∧ (w ≠ [] ∨ A = B) := by
    rw [removeUnits, rules_withProductions, Productions.mem_rules_filterMap, OrderedMap.mem_keys]
    simp [takenOver, mem_unitClosure, mem_alternatives]
  rw [htaken]
  refine ⟨fun ⟨_, B, hB, hr, hw, hne⟩ => ⟨hw, B, hB, hr, hne⟩, ?_⟩
  rintro ⟨hw, B, hB, hr, hne⟩
  refine ⟨?_, B, hB, hr, hw, hne⟩
  rcases Relation.ReflTransGen.cases_head hB with rfl | ⟨C, hlead, -⟩
  · exact fst_mem_keys hr
  · exact UnitLeads.mem_keys hlead

/-- No symbol comes from elsewhere. -/
theorem mem_of_mem_rules_removeUnits {w : Word} {a : Symbol} (h : (A, w) ∈ g.removeUnits.rules)
    (ha : a ∈ w) : ∃ r ∈ g.rules, a ∈ r.2 := by
  obtain ⟨-, B, -, hr, -⟩ := mem_rules_removeUnits.mp h
  exact ⟨_, hr, ha⟩

/-- An empty production stays where it is. -/
theorem nil_mem_rules_removeUnits : (A, []) ∈ g.removeUnits.rules ↔ (A, []) ∈ g.rules := by
  rw [mem_rules_removeUnits]
  refine ⟨fun ⟨_, B, _, hr, h⟩ => ?_, fun hr => ⟨rfl, A, .refl, hr, .inr rfl⟩⟩
  rcases h with h | rfl
  · exact absurd rfl h
  · exact hr

theorem UnitReaches.yields (h : g.UnitReaches A B) {u : Sentence}
    (hB : Yields g.rules [.nonTerminal B] u) : Yields g.rules [.nonTerminal A] u := by
  induction h using Relation.ReflTransGen.head_induction_on with
  | refl => exact hB
  | head hlead _ ih => exact .of_mem hlead ih

/-- Nothing new is derived. -/
theorem yields_of_removeUnits {w : Word} {u : Sentence} (h : Yields g.removeUnits.rules w u) :
    Yields g.rules w u := by
  refine h.simulate fun A v u hr hv => ?_
  obtain ⟨-, B, hB, hr, -⟩ := mem_rules_removeUnits.mp hr
  exact hB.yields (.of_mem hr hv)

/-- What is derived without empty productions still is. -/
theorem yields_solid_removeUnits {w : Word} {u : Sentence} (h : Yields (solid g.rules) w u) :
    Yields (solid g.removeUnits.rules) w u := by
  refine h.simulate fun A v u hr hv => ?_
  obtain ⟨hr, hne⟩ := mem_solid.mp hr
  cases hunit : v.unit? with
  | none =>
    refine .of_mem (mem_solid.mpr ⟨?_, hne⟩) hv
    exact mem_rules_removeUnits.mpr ⟨hunit, A, .refl, hr, .inl hne⟩
  | some B =>
    -- the production that `B` uses is one of `A` as well
    rw [Word.unit?_eq_some_iff.mp hunit] at hr hv
    obtain ⟨v', hr', hv'⟩ := yields_singleton_iff.mp hv
    obtain ⟨hr', hne'⟩ := mem_solid.mp hr'
    obtain ⟨hunit', C, hC, hrC, -⟩ := mem_rules_removeUnits.mp hr'
    refine .of_mem (mem_solid.mpr ⟨?_, hne'⟩) hv'
    exact mem_rules_removeUnits.mpr ⟨hunit', C, .head hr hC, hrC, .inl hne'⟩

/-- Without empty productions, or with those that their removal leaves, every non-empty
sentence has a derivation that uses none. -/
theorem yields_solid_of_derives {u : Sentence} (h : g.erasing = [] ∨ ∃ k e, g = removeErasing k e)
    (hu : u ≠ []) (hA : g.Derives A u) : Yields (solid g.rules) [.nonTerminal A] u := by
  rcases h with hnone | ⟨k, e, rfl⟩
  · refine hA.mono fun r hr => mem_solid.mpr ⟨hr, fun hnil => ?_⟩
    have hmem : r.1 ∈ g.erasing := mem_erasing.mpr (hnil ▸ hr)
    rw [hnone] at hmem
    exact List.not_mem_nil hmem
  · exact yields_solid_removeErasing hu (yields_of_removeErasing hA)

/-- No unit production is left, the empty productions are those of the grammar, and nothing
new is derived. If there are no empty productions, or if they were removed before, every
non-terminal derives the non-empty sentences that it derived. -/
theorem derives_removeUnits (g : Grammar) :
    (∀ A B, (A, [.nonTerminal B]) ∉ g.removeUnits.rules) ∧
      (∀ A, A ∈ g.removeUnits.erasing ↔ A ∈ g.erasing) ∧
      (∀ A u, g.removeUnits.Derives A u → g.Derives A u) ∧
      ((g.erasing = [] ∨ ∃ k e, g = removeErasing k e) →
        ∀ A u, u ≠ [] → (g.removeUnits.Derives A u ↔ g.Derives A u)) := by
  refine ⟨fun A B hr => ?_, fun A => ?_, fun A u => yields_of_removeUnits, fun h A u hu => ?_⟩
  · have hunit := (mem_rules_removeUnits.mp hr).1
    rw [Word.unit?_eq_some_iff.mpr rfl] at hunit
    exact nomatch hunit
  · rw [mem_erasing, mem_erasing, nil_mem_rules_removeUnits]
  · refine ⟨yields_of_removeUnits, fun hA => ?_⟩
    exact (yields_solid_removeUnits (yields_solid_of_derives h hu hA)).of_solid

/-- A unit production leads to the start symbol, which keeps its empty production. The
other non-terminal has none, and still derives the sentence `a`. -/
theorem derives_removeUnits_start : ∃ k, (Draft.ofDeclarations "S" [.terminals ["a"],
      .production "S" ["a", "S"], .erasing "S", .production "T" ["S"]]).build = .ok k ∧
    let g := k.removeErasing .retain
    (∃ T, (T, [.nonTerminal k.start]) ∈ g.rules ∧ g.removeUnits.Derives T ["a"] ∧
      T ∉ g.removeUnits.erasing) ∧ k.start ∈ g.removeUnits.erasing := by
  let a : Terminal := ⟨"a", by decide⟩
  let T : NonTerminal := ⟨"T", by decide⟩
  refine ⟨_, rfl, ?_⟩
  intro g
  obtain ⟨-, herasing, -, hsame⟩ := derives_removeUnits g
  have hunit : (T, [.nonTerminal g.start]) ∈ g.rules := by decide +kernel
  have hletter : (g.start, [.terminal a]) ∈ g.rules := by decide +kernel
  have hT : g.Derives T ["a"] := .of_mem hunit (.of_mem hletter (.terminal .nil))
  refine ⟨⟨T, hunit, ?_, fun h => ?_⟩, (herasing _).mpr (by decide +kernel)⟩
  · exact (hsame (.inr ⟨_, .retain, rfl⟩) T ["a"] (List.cons_ne_nil _ _)).mpr hT
  · have hnot : T ∉ g.erasing := by decide +kernel
    exact hnot ((herasing T).mp h)

end Grammar

end ChomskyForm
