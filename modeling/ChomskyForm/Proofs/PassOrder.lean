import ChomskyForm.Proofs.WellFormedRuns

/-!
# The language along a run of passes

The passes that draw names keep what every old non-terminal derives, whatever the grammar
(`Grammar.derives_isolate_binarize`). Only the removal of unit productions is no
transformation of arbitrary grammars : an empty alternative is not taken over, and what it
contributed is lost. It is harmless for a `Cleared` grammar, in which only the start symbol
has an empty production and no non-empty sentence needs it. The removal of empty productions
clears every grammar, and all passes keep a grammar cleared (`Progress.Safe.cleared_apply`).

The invariant is about the start symbol alone. Links are cleared of nothing : a link of a
chain that ends in the start symbols becomes nullable again through `S → ε`, and derives
sentences that it does not derive without this production.

`Progress.generates_run_iff` : if empty productions are removed before unit productions
are, the language stays what it was, but for the empty sentence if it was dropped.
-/

namespace ChomskyForm

/-- Whether the pass removes empty productions. -/
def Pass.erases : Pass → Bool
  | .removeErasing _ => true
  | _ => false

namespace Grammar

variable {g : Grammar}

/-! ## The passes that draw names -/

/-- Isolation and splitting change nothing for the old non-terminals, with empty and unit
productions and with any supply that issues none of them. -/
theorem derives_isolate_binarize (hg : g.WellFormed) {s : NameSupply}
    (hs : s.Avoids g.nonTerminals) {A : NonTerminal} (hA : A ∈ g.nonTerminals) (u : Sentence) :
    ((g.isolate s).grammar.Derives A u ↔ g.Derives A u) ∧
      ((g.binarize s).grammar.Derives A u ↔ g.Derives A u) :=
  ⟨derives_isolate_iff hg hs hA, derives_binarize_iff hg hs hA⟩

/-- A supply that has been used before and knows nothing of the terminals. It skips a number. -/
theorem derives_isolate_binarize_parentheses : ∃ g, Sample.parentheses.grammar = .ok g ∧
    let s : NameSupply := ⟨⟨"X", by decide⟩, 3, ["S", "X4"], [⟨"X2", by decide⟩]⟩
    g.WellFormed ∧ s.Avoids g.nonTerminals ∧
      ((g.isolate s).helpers.map fun h => (h.1.text, h.2.text)) = [("(", "X3"), (")", "X5")] ∧
      (g.isolate s).grammar.Derives g.start ["(", ")"] ∧
      (g.binarize s).grammar.Derives g.start ["(", ")"] ∧
      (g.isolate s).grammar.Derives g.start [] ∧ (g.binarize s).grammar.Derives g.start [] := by
  let opening : Terminal := ⟨"(", by decide⟩
  let closing : Terminal := ⟨")", by decide⟩
  let s : NameSupply := ⟨⟨"X", by decide⟩, 3, ["S", "X4"], [⟨"X2", by decide⟩]⟩
  obtain ⟨g, hbuild, hpair, hnil, htaken, hhelpers⟩ : ∃ g, Sample.parentheses.grammar = .ok g ∧
      (g.start, [.terminal opening, .nonTerminal g.start, .terminal closing,
        .nonTerminal g.start]) ∈ g.rules ∧ (g.start, []) ∈ g.rules ∧
      (∀ A ∈ g.nonTerminals.toList, A.text ∈ s.taken) ∧
      ((g.isolate s).helpers.map fun h => (h.1.text, h.2.text)) = [("(", "X3"), (")", "X5")] :=
    ⟨_, rfl, by decide +kernel, by decide +kernel, by decide +kernel, by decide +kernel⟩
  have hg := Draft.wellFormed_of_build hbuild
  have hs : s.Avoids g.nonTerminals := htaken
  have hempty : g.Derives g.start [] := .of_mem hnil .nil
  have hnested : g.Derives g.start ["(", ")"] :=
    .of_mem hpair (.terminal (hempty.append (.terminal hempty)))
  have hsame := derives_isolate_binarize hg hs hg.start_mem
  exact ⟨g, hbuild, hg, hs, hhelpers, (hsame _).1.mpr hnested, (hsame _).2.mpr hnested,
    (hsame _).1.mpr hempty, (hsame _).2.mpr hempty⟩

/-! ## Empty productions of the start symbol only -/

/-- Only the start symbol has an empty production. -/
def NilAtStart (g : Grammar) : Prop := ∀ A, (A, []) ∈ g.rules → A = g.start

theorem nilAtStart_removeErasing (g : Grammar) (e : EmptySentence) :
    (g.removeErasing e).NilAtStart :=
  fun _ hA => (nil_mem_rules_removeErasing.mp hA).1

theorem NilAtStart.removeUnits (h : g.NilAtStart) : g.removeUnits.NilAtStart :=
  fun A hA => h A (nil_mem_rules_removeUnits.mp hA)

theorem NilAtStart.isolate (h : g.NilAtStart) (s : NameSupply) :
    (g.isolate s).grammar.NilAtStart :=
  fun A hA => h A (nil_mem_of_isolate hA)

theorem NilAtStart.binarize (h : g.NilAtStart) (s : NameSupply) :
    (g.binarize s).grammar.NilAtStart :=
  fun A hA => h A (nil_mem_of_binarize hA)

/-! ## Cleared grammars -/

/-- Only the start symbol has an empty production, and it is needed for nothing but the
empty sentence. -/
structure Cleared (g : Grammar) : Prop where
  nil_start : g.NilAtStart
  yields_solid : ∀ u, u ≠ [] → g.Generates u → Yields (solid g.rules) [.nonTerminal g.start] u

theorem cleared_removeErasing (g : Grammar) (e : EmptySentence) : (g.removeErasing e).Cleared where
  nil_start := g.nilAtStart_removeErasing e
  yields_solid _ hu h := yields_solid_removeErasing hu (yields_of_removeErasing h)

/-- A cleared grammar generates the empty sentence by a production of its own. -/
theorem Cleared.generates_nil_iff (hc : g.Cleared) : g.Generates [] ↔ (g.start, []) ∈ g.rules := by
  refine ⟨fun h => ?_, fun h => .of_mem h .nil⟩
  obtain ⟨A, hA⟩ := h.exists_empty (List.cons_ne_nil _ _) rfl
  rwa [hc.nil_start A hA] at hA

theorem Cleared.removeUnits (hc : g.Cleared) : g.removeUnits.Cleared where
  nil_start := hc.nil_start.removeUnits
  yields_solid u hu h := yields_solid_removeUnits (hc.yields_solid u hu (yields_of_removeUnits h))

theorem Cleared.generates_removeUnits (hc : g.Cleared) {u : Sentence} :
    g.removeUnits.Generates u ↔ g.Generates u := by
  refine ⟨yields_of_removeUnits, fun h => ?_⟩
  by_cases hu : u = []
  · subst hu
    exact .of_mem (nil_mem_rules_removeUnits.mpr (hc.generates_nil_iff.mp h)) .nil
  · exact (yields_solid_removeUnits (hc.yields_solid u hu h)).of_solid

end Grammar

namespace Progress

variable {s : Progress} {p : Pass} {u : Sentence}

/-! ## One pass -/

/-- Every pass keeps a grammar cleared. -/
theorem Safe.cleared_apply (h : s.Safe) (hc : s.grammar.Cleared) (p : Pass) :
    (s.apply p).grammar.Cleared := by
  have hstart := h.wellFormed.start_mem
  cases p with
  | removeErasing e => exact s.grammar.cleared_removeErasing e
  | removeUnits => exact hc.removeUnits
  | isolate =>
    refine ⟨hc.nil_start.isolate s.supply, fun u hu hgen => ?_⟩
    have hgen' := (Grammar.derives_isolate_iff h.wellFormed h.nonTerminals hstart).mp hgen
    exact Grammar.yields_solid_isolate h.wellFormed h.nonTerminals (hc.yields_solid u hu hgen')
  | binarize =>
    refine ⟨hc.nil_start.binarize s.supply, fun u hu hgen => ?_⟩
    have hgen' := (Grammar.derives_binarize_iff h.wellFormed h.nonTerminals hstart).mp hgen
    exact Grammar.yields_solid_binarize h.wellFormed h.nonTerminals (hc.yields_solid u hu hgen')

/-- What one pass does to the language. Unit productions may be removed if the grammar is
cleared. -/
theorem Safe.generates_apply (h : s.Safe) (hp : p = .removeUnits → s.grammar.Cleared) :
    (s.apply p).grammar.Generates u ↔
      s.grammar.Generates u ∧ (u = [] → p ≠ .removeErasing .drop) := by
  have hstart := h.wellFormed.start_mem
  cases p with
  | removeErasing e =>
    by_cases hu : u = []
    · subst hu
      refine Grammar.generates_removeErasing_nil.trans ?_
      cases e <;> simp
    · refine (Grammar.derives_removeErasing_iff hu).trans ?_
      exact (and_iff_left fun hnil => absurd hnil hu).symm
  | removeUnits =>
    exact (hp rfl).generates_removeUnits.trans (and_iff_left fun _ => nofun).symm
  | isolate =>
    refine (Grammar.derives_isolate_iff h.wellFormed h.nonTerminals hstart).trans ?_
    exact (and_iff_left fun _ => nofun).symm
  | binarize =>
    refine (Grammar.derives_binarize_iff h.wellFormed h.nonTerminals hstart).trans ?_
    exact (and_iff_left fun _ => nofun).symm

/-! ## Runs -/

theorem run_cons (s : Progress) (p : Pass) (passes : List Pass) :
    s.run (p :: passes) = (s.apply p).run passes := rfl

/-- The empty sentence survives a run if it survives each pass. -/
theorem drop_not_mem_cons_iff {passes : List Pass} :
    (u = [] → .removeErasing .drop ∉ p :: passes) ↔
      (u = [] → p ≠ .removeErasing .drop) ∧ (u = [] → .removeErasing .drop ∉ passes) := by
  rw [List.mem_cons, not_or, imp_and, ne_comm]

theorem Safe.cleared_run : ∀ (passes : List Pass) {s : Progress}, s.Safe →
    s.grammar.Cleared → (s.run passes).grammar.Cleared
  | [], _, _, hc => hc
  | p :: passes, _, h, hc => cleared_run passes (h.apply p) (h.cleared_apply hc p)

theorem Safe.generates_run_of_cleared : ∀ (passes : List Pass) {s : Progress}, s.Safe →
    s.grammar.Cleared → ((s.run passes).grammar.Generates u ↔
      s.grammar.Generates u ∧ (u = [] → .removeErasing .drop ∉ passes))
  | [], s, _, _ => by
    show s.grammar.Generates u ↔ _
    simp
  | p :: passes, s, h, hc => by
    rw [run_cons, generates_run_of_cleared passes (h.apply p) (h.cleared_apply hc p),
      h.generates_apply fun _ => hc, and_assoc, drop_not_mem_cons_iff]

/-- Before the first removal of empty productions no unit productions may be removed. -/
theorem Safe.generates_run : ∀ (passes : List Pass) {s : Progress}, s.Safe →
    .removeUnits ∉ passes.takeWhile (fun p => !p.erases) →
      ((s.run passes).grammar.Generates u ↔
        s.grammar.Generates u ∧ (u = [] → .removeErasing .drop ∉ passes))
  | [], s, _, _ => by
    show s.grammar.Generates u ↔ _
    simp
  | p :: passes, s, h, hfirst => by
    have hrest : ((s.apply p).run passes).grammar.Generates u ↔
        (s.apply p).grammar.Generates u ∧ (u = [] → .removeErasing .drop ∉ passes) := by
      cases p with
      | removeErasing e =>
        exact generates_run_of_cleared passes (h.apply _) (s.grammar.cleared_removeErasing e)
      | removeUnits => simp [Pass.erases] at hfirst
      | isolate | binarize =>
        refine generates_run passes (h.apply _) ?_
        simpa [Pass.erases] using hfirst
    have hp : p = .removeUnits → s.grammar.Cleared := by
      rintro rfl
      simp [Pass.erases] at hfirst
    rw [run_cons, hrest, h.generates_apply hp, and_assoc, drop_not_mem_cons_iff]

/-- Passes in any order keep the language of a grammar that was built, if no unit
productions are removed before the first removal of empty productions. The empty sentence
is lost if it is dropped at any time. -/
theorem generates_run_iff {d : Draft String} {g : Grammar} (h : d.build = .ok g)
    {passes : List Pass} (hfirst : .removeUnits ∉ passes.takeWhile (fun p => !p.erases))
    (u : Sentence) : ((start g).run passes).grammar.Generates u ↔
      g.Generates u ∧ (u = [] → .removeErasing .drop ∉ passes) :=
  (safe_start (Draft.wellFormed_of_build h)).generates_run passes hfirst

/-- The grammar of parentheses keeps `( )` when it is split first, and loses the empty
sentence when that is dropped late. -/
theorem generates_run_iff_parentheses : ∃ g, Sample.parentheses.grammar = .ok g ∧
    let passes := [.binarize, .removeErasing .retain, .isolate, .removeUnits]
    ((start g).run passes).grammar.Generates ["(", ")"] ∧
      ((start g).run passes).grammar.Generates [] ∧
      ¬ ((start g).run (passes ++ [.removeErasing .drop])).grammar.Generates [] := by
  let opening : Terminal := ⟨"(", by decide⟩
  let closing : Terminal := ⟨")", by decide⟩
  obtain ⟨g, hbuild, hpair, hnil⟩ : ∃ g, Sample.parentheses.grammar = .ok g ∧
      (g.start, [.terminal opening, .nonTerminal g.start, .terminal closing,
        .nonTerminal g.start]) ∈ g.rules ∧ (g.start, []) ∈ g.rules :=
    ⟨_, rfl, by decide +kernel, by decide +kernel⟩
  refine ⟨g, hbuild, ?_⟩
  intro passes
  have hrun := @generates_run_iff _ g hbuild passes (by decide)
  have hdrop := @generates_run_iff _ g hbuild (passes ++ [.removeErasing .drop]) (by decide)
  have hone : Yields g.rules [.nonTerminal g.start] [] := .of_mem hnil .nil
  have hnested : Yields g.rules [.nonTerminal g.start] ["(", ")"] :=
    .of_mem hpair (.terminal (hone.append (.terminal hone)))
  refine ⟨(hrun _).mpr ⟨hnested, nofun⟩, (hrun _).mpr ⟨hone, fun _ => by decide⟩, fun h => ?_⟩
  exact ((hdrop []).mp h).2 rfl (by decide)

end Progress

end ChomskyForm
