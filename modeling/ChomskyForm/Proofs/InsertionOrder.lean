import Mathlib.Data.Set.Function
import ChomskyForm.Proofs.IntroducedSymbols
import ChomskyForm.Proofs.RenamedPasses

/-!
# A conversion does not depend on the order of the description

Take two grammars that are equal without regard to order. The removals keep them equal.
Then names are drawn, and from there on one grammar is a renaming of the other
(`Grammar.exists_renaming_binarized`). Typing respects the renaming, which merges no
left-hand sides (`Grammar.RenamesTo.typed`), and sizes do not see it
(`Grammar.RenamesTo.sizeRow`).

`Grammar.normalize_alike` puts this together for grammars that were built.
-/

namespace ChomskyForm

/-- A map that takes one list to a rearrangement of another, without repetitions, is a
bijection between their elements. -/
theorem bijOn_of_perm_map {α β : Type} {f : α → β} {l : List α} {m : List β}
    (hperm : (l.map f).Perm m) (hm : m.Nodup) : Set.BijOn f {a | a ∈ l} {b | b ∈ m} :=
  ⟨fun _ ha => hperm.subset (List.mem_map_of_mem ha),
    fun _ ha _ hb => List.inj_on_of_nodup_map (hperm.nodup_iff.mpr hm) ha hb,
    fun _ hb => List.mem_map.mp (hperm.symm.subset hb)⟩

/-! ## Typing and renaming -/

namespace NormalForm

variable {c d : NormalForm} {k : Grammar} {σ : NonTerminal → NonTerminal} {A : NonTerminal}
  {w : NormalWord}

theorem mem_alternatives : w ∈ c.alternatives A ↔ c.Has A w := OrderedMap.mem_find?_getD

/-- Typing leaves no left-hand side without alternatives. -/
theorem mem_keys_typed : A ∈ (typed k).productions.keys ↔ ∃ w, (typed k).Has A w := by
  refine ⟨fun hA => ?_, fun ⟨w, ws, he, _⟩ => OrderedMap.mem_keys.mpr ⟨ws, he⟩⟩
  obtain ⟨ws, he, w, hw⟩ := OrderedMap.exists_mem_of_mem_keys_filterMap hA
  exact ⟨w, ws, he, hw⟩

theorem mem_keys_rename :
    A ∈ (c.rename σ).productions.keys ↔ ∃ B ∈ c.productions.keys, σ B = A := by
  rw [rename, OrderedMap.mem_keys_insertAll, List.map_map, OrderedMap.keys, ← List.mem_map,
    OrderedMap.keys, List.map_map]
  exact or_iff_right List.not_mem_nil

/-- A renaming that merges no left-hand sides renames the productions one by one. -/
theorem has_rename (hσ : ∀ A ∈ c.productions.keys, ∀ B ∈ c.productions.keys, σ A = σ B → A = B) :
    (c.rename σ).Has A w ↔ ∃ B v, c.Has B v ∧ σ B = A ∧ v.rename σ = w := by
  have hentries : (c.rename σ).productions.entries =
      c.productions.entries.map fun e => (σ e.1, e.2.map (NormalWord.rename σ)) := by
    refine (OrderedMap.entries_insertAll_of_nodup ?_).trans (List.nil_append _)
    have hnodup := c.productions.keys_nodup.map_on hσ
    rw [OrderedMap.keys, List.map_map] at hnodup
    rw [List.map_map]
    exact hnodup
  rw [Has, hentries]
  refine ⟨fun h => ?_, fun h => ?_⟩
  · obtain ⟨ws, he, hw⟩ := h
    obtain ⟨⟨B, vs⟩, hB, heq⟩ := List.mem_map.mp he
    cases heq
    obtain ⟨v, hv, hvw⟩ := OrderedSet.mem_map.mp hw
    exact ⟨B, v, ⟨vs, hB, hv⟩, rfl, hvw⟩
  · obtain ⟨B, v, ⟨vs, he, hv⟩, rfl, hvw⟩ := h
    exact ⟨_, List.mem_map_of_mem he, OrderedSet.mem_map.mpr ⟨v, hv, hvw⟩⟩

end NormalForm

namespace Grammar

variable {g h k l : Grammar} {σ : NonTerminal → NonTerminal} {A : NonTerminal}

namespace RenamesTo

variable (hkl : k.RenamesTo σ l)
include hkl

/-- The typed productions of the second grammar are those of the first, renamed. -/
theorem has_typed_iff {w : NormalWord} : (NormalForm.typed l).Has A w ↔
    ∃ B v, (NormalForm.typed k).Has B v ∧ σ B = A ∧ v.rename σ = w := by
  simp only [NormalForm.has_typed_iff, hkl.mem_rules_iff]
  refine ⟨fun ⟨⟨B, u⟩, hr, heq⟩ => ?_, fun ⟨B, v, hr, hB, hv⟩ => ⟨_, hr, ?_⟩⟩
  · obtain ⟨hB, hu⟩ := Prod.ext_iff.mp heq
    obtain ⟨v, rfl, hv⟩ := NormalWord.exists_of_rename_eq hu
    exact ⟨B, v, hr, hB, hv⟩
  · rw [renameRule, hB, ← NormalWord.word_rename, hv]

theorem nil_mem_rules_iff (hk : k.WellFormed) :
    (k.start, []) ∈ k.rules ↔ (l.start, []) ∈ l.rules := by
  rw [hkl.mem_rules_iff]
  refine ⟨fun hr => ⟨_, hr, Prod.ext hkl.start rfl⟩, fun ⟨⟨A, u⟩, hr, heq⟩ => ?_⟩
  obtain ⟨hA, hu⟩ := Prod.ext_iff.mp heq
  have hstart : A = k.start := hkl.injOn (hk.keys_mem A (fst_mem_keys hr)) hk.start_mem
    (hA.trans hkl.start.symm)
  have hnil : u = [] := Word.rename_eq_nil_iff.mp hu
  rwa [hstart, hnil] at hr

/-- The renaming merges no left-hand sides. -/
theorem has_rename_typed_iff (hk : k.WellFormed) {w : NormalWord} :
    ((NormalForm.typed k).rename σ).Has A w ↔ (NormalForm.typed l).Has A w := by
  have hkeys : ∀ A ∈ (NormalForm.typed k).productions.keys, A ∈ k.nonTerminals := fun A hA =>
    hk.keys_mem A (OrderedMap.mem_keys_of_mem_filterMap hA)
  rw [hkl.has_typed_iff]
  exact NormalForm.has_rename fun A hA B hB => hkl.injOn (hkeys A hA) (hkeys B hB)

/-- Typing respects a renaming. -/
theorem typed (hk : k.WellFormed) :
    ((NormalForm.typed k).rename σ).Alike (NormalForm.typed l) where
  start := hkl.start
  erasable := by
    rw [Bool.eq_iff_iff, NormalForm.erasable_typed, ← hkl.nil_mem_rules_iff hk]
    exact NormalForm.erasable_typed
  nonTerminals A := by
    rw [← OrderedSet.mem_toList (s := (NormalForm.typed l).nonTerminals),
      NormalForm.nonTerminals_typed, ← hkl.nonTerminals.mem_iff, List.mem_map]
    exact OrderedSet.mem_map
  terminals := hkl.terminals
  keys A := by
    simp only [NormalForm.mem_keys_rename, NormalForm.mem_keys_typed, hkl.has_typed_iff]
    refine ⟨fun ⟨B, ⟨v, hv⟩, hB⟩ => ⟨_, B, v, hv, hB, rfl⟩, ?_⟩
    exact fun ⟨_, B, v, hv, hB, _⟩ => ⟨B, ⟨v, hv⟩, hB⟩
  alternatives A w := by
    rw [NormalForm.mem_alternatives, NormalForm.mem_alternatives, hkl.has_rename_typed_iff hk]

/-- Sizes do not see a renaming. -/
theorem sizeRow (label : String) :
    Normalization.sizeRow label k.presentation = Normalization.sizeRow label l.presentation := by
  have hnonTerminals := hkl.nonTerminals.length_eq
  have hterminals := hkl.terminals.perm.length_eq
  have hrules := hkl.rules.length_eq
  rw [List.length_map] at hnonTerminals hrules
  simp only [Normalization.sizeRow, presentation, OrderedSet.size, hnonTerminals, hterminals,
    hrules]

end RenamesTo

/-- Typing changes no size. -/
theorem sizeRow_typed (hk : k.isNormal = true) (label : String) :
    Normalization.sizeRow label (NormalForm.typed k).presentation =
      Normalization.sizeRow label k.presentation := by
  have hrules := (NormalForm.perm_rules_typed hk).length_eq
  simp only [Normalization.sizeRow, NormalForm.presentation, presentation, hrules,
    NormalForm.nonTerminals_typed, NormalForm.terminals_typed]

/-! ## The conversion -/

section Conversion

variable (hgh : g.Alike h) (hg : g.WellFormed) (hh : h.WellFormed) (e : EmptySentence)
include hgh hg hh

theorem alike_withoutUnits :
    (g.removeErasing e).removeUnits.Alike (h.removeErasing e).removeUnits :=
  (hgh.removeErasing hg hh e).removeUnits (hg.removeErasing e) (hh.removeErasing e)

/-- One renaming takes the grammar after each naming pass to its counterpart, and the names
introduced to those of the other conversion. -/
theorem exists_renaming_binarized : ∃ σ : NonTerminal → NonTerminal,
    (∀ A ∈ g.nonTerminals, σ A = A) ∧
      ((g.normalization e).introduced.map σ).Perm (h.normalization e).introduced ∧
      (g.isolated e).grammar.RenamesTo σ (h.isolated e).grammar ∧
      (g.binarized e).grammar.RenamesTo σ (h.binarized e).grammar := by
  have hgunits := safe_withoutUnits e hg
  have hhunits := safe_withoutUnits e hh
  have hgisolated := safe_isolated e hg
  have hhisolated := safe_isolated e hh
  have hunits := (alike_withoutUnits hgh hg hh e).renamesTo
  obtain ⟨σ, hσ, hhelpers⟩ := exists_renaming_helpers (t := h.supply) hunits hgunits.nonTerminals
  have hisolated := (hunits.congr hgunits.wellFormed hσ).isolate hgunits hhunits hhelpers
  rw [← isolated, ← isolated] at hisolated
  obtain ⟨τ, hτ, hshares⟩ := exists_renaming_shares (t := (h.isolated e).supply) hisolated
    hgisolated.wellFormed hgisolated.nonTerminals
  have hisolated' := hisolated.congr hgisolated.wellFormed hτ
  have hbinarized := hisolated'.binarize hgisolated hhisolated hshares
  rw [← binarized, ← binarized] at hbinarized
  -- the second renaming leaves the names of the first pass alone
  have hold : ∀ A ∈ g.nonTerminals.toList ++ (g.isolated e).helpers.map Prod.snd, τ A = σ A := by
    rw [← toList_nonTerminals_isolated e hg]
    exact hτ
  rw [nonTerminals_withoutUnits hg] at hσ
  refine ⟨τ, fun A hA => ?_, ?_, hisolated', hbinarized⟩
  · exact (hold A (List.mem_append_left _ hA)).trans (hσ A hA)
  · rw [introduced_normalization, introduced_normalization, List.map_append,
      List.map_congr_left fun X hX => hold X (List.mem_append_right _ hX), binarized, binarized,
      isolated, isolated]
    exact (perm_helpers hhelpers).append (perm_links hshares)

theorem sizeRows_normalization_eq :
    (g.normalization e).sizeRows = (h.normalization e).sizeRows := by
  obtain ⟨σ, -, -, hisolated, hbinarized⟩ := exists_renaming_binarized hgh hg hh e
  have herasing := (hgh.removeErasing hg hh e).renamesTo
  have hunits := (alike_withoutUnits hgh hg hh e).renamesTo
  simp only [Normalization.sizeRows, stages_normalization, List.map_cons, List.map_nil,
    hgh.renamesTo.sizeRow, herasing.sizeRow, hunits.sizeRow, hisolated.sizeRow,
    hbinarized.sizeRow, result_normalization, sizeRow_typed (g.isNormal_binarized e),
    sizeRow_typed (h.isNormal_binarized e)]

end Conversion

variable {d d' : Draft String}

/-- A conversion does not depend on the order in which a grammar was described. On two
grammars that were built and are equal without regard to order, the searches find the same,
the removals leave equal grammars, and equally many names are introduced. A bijection
between the names takes one result to the other. All sizes are the same, and so the two
summaries are the same text. -/
theorem normalize_alike (hg : d.build = .ok g) (hh : d'.build = .ok h) (hgh : g.Alike h)
    (e : EmptySentence) :
    (∀ A, A ∈ g.nullable ↔ A ∈ h.nullable) ∧
      (∀ A, (g.unitClosure A).SameElements (h.unitClosure A)) ∧
      (g.removeErasing e).Alike (h.removeErasing e) ∧
      (g.removeErasing e).removeUnits.Alike (h.removeErasing e).removeUnits ∧
      ∃ n m, g.normalize e = .ok n ∧ h.normalize e = .ok m ∧
        n.introduced.length = m.introduced.length ∧
        (∃ ρ : NonTerminal → NonTerminal, (∀ A ∈ g.nonTerminals, ρ A = A) ∧
          Set.BijOn ρ {X | X ∈ n.introduced} {X | X ∈ m.introduced} ∧
          (n.result.rename ρ).Alike m.result) ∧
        n.sizeRows = m.sizeRows ∧ n.summary = m.summary := by
  have hg' := Draft.wellFormed_of_build hg
  have hh' := Draft.wellFormed_of_build hh
  refine ⟨fun A => hgh.mem_nullable_iff, hgh.unitClosure, hgh.removeErasing hg' hh' e,
    alike_withoutUnits hgh hg' hh' e, g.normalization e, h.normalization e, g.normalize_eq e,
    h.normalize_eq e, ?_⟩
  obtain ⟨ρ, hρ, hperm, -, hbinarized⟩ := exists_renaming_binarized hgh hg' hh' e
  have hrows := sizeRows_normalization_eq hgh hg' hh' e
  refine ⟨?_, ⟨ρ, hρ, ?_, ?_⟩, hrows, congrArg (boxTable _) hrows⟩
  · have hlength := hperm.length_eq
    rwa [List.length_map] at hlength
  · exact bijOn_of_perm_map hperm (nodup_introduced e hh')
  · rw [result_normalization, result_normalization]
    exact hbinarized.typed (wellFormed_binarized e hg')

/-- A description and its reverse : the order of two alternatives decides which terminal has
the first helper. The results differ by more than order, and one is a renaming of the other. -/
theorem normalize_alike_reverse : ∃ (l : List Declaration) (g h : Grammar) (n m : Normalization),
    (Draft.ofDeclarations "S" l).build = .ok g ∧
      (Draft.ofDeclarations "S" l.reverse).build = .ok h ∧
      g.normalize .retain = .ok n ∧ h.normalize .retain = .ok m ∧ ¬ n.result.Alike m.result ∧
      (∃ ρ : NonTerminal → NonTerminal,
        Set.BijOn ρ {X | X ∈ n.introduced} {X | X ∈ m.introduced} ∧
          (n.result.rename ρ).Alike m.result) ∧
      n.summary = m.summary := by
  let a : Terminal := ⟨"a", by decide⟩
  let X : NonTerminal := ⟨"X0", by decide⟩
  obtain ⟨l, g, h, hg, hh, halike, hX, hX'⟩ : ∃ (l : List Declaration) (g h : Grammar),
      (Draft.ofDeclarations "S" l).build = .ok g ∧
      (Draft.ofDeclarations "S" l.reverse).build = .ok h ∧ g.alike h = true ∧
      NormalWord.terminal a ∈ (g.normalization .retain).result.alternatives X ∧
      NormalWord.terminal a ∉ (h.normalization .retain).result.alternatives X :=
    ⟨[.terminals ["a", "b"], .production "S" ["a", "b", "b"], .production "S" ["b", "a", "S"]],
      _, _, rfl, rfl, by decide +kernel, by decide +kernel, by decide +kernel⟩
  obtain ⟨-, -, -, -, n, m, hn, hm, -, ⟨ρ, -, hbij, hrename⟩, -, hsummary⟩ :=
    normalize_alike hg hh (alike_iff.mp halike) .retain
  cases Except.ok.inj (hn.symm.trans (g.normalize_eq .retain))
  cases Except.ok.inj (hm.symm.trans (h.normalize_eq .retain))
  refine ⟨l, g, h, _, _, hg, hh, hn, hm, fun hsame => ?_, ⟨ρ, hbij, hrename⟩, hsummary⟩
  exact hX' ((hsame.alternatives X _).mp hX)

end Grammar

end ChomskyForm
