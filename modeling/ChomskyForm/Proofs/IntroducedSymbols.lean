import Mathlib.Algebra.GroupWithZero.Nat
import Mathlib.Data.Finset.Card
import Mathlib.Data.List.Nodup
import ChomskyForm.Proofs.ProductionLists

/-!
# How many symbols a conversion introduces

A conversion issues a helper for each terminal that stands next to another symbol
(`Grammar.crowdedCount`) and a link for each symbol beyond the second of a right-hand side
(`Grammar.excess`). Isolation changes no length, and helpers have short productions, so
the links can be counted before it (`Grammar.excess_isolate`).

The heads of the last grammar's productions are those of the grammar without unit
productions, followed by the symbols introduced (`Grammar.heads_binarized`). From this list
the number of productions can be read off, and that a symbol introduced has exactly one.

`Grammar.introduced_eq_numbered` : for a grammar that was built, the symbols are
consecutive numbered names from zero on.
-/

namespace ChomskyForm

/-- Links are counted production by production. -/
theorem totalLinks_eq_sum : ∀ rs : List Rule,
    Word.totalLinks (rs.map Prod.snd) = (rs.map fun r => r.2.length - 2).sum
  | [] => rfl
  | r :: rs => congrArg (r.2.length - 2 + ·) (totalLinks_eq_sum rs)

namespace Grammar

/-- How many different terminals there are in right-hand sides of two or more symbols. -/
def crowdedCount (g : Grammar) : Nat :=
  ((g.rules.filter fun r => 2 ≤ r.2.length).flatMap fun r =>
    r.2.filterMap Symbol.terminal?).toFinset.card

/-- How many symbols there are beyond the second in all right-hand sides together. -/
def excess (g : Grammar) : Nat := (g.rules.map fun r => r.2.length - 2).sum

variable {g : Grammar} {s : NameSupply} {e : EmptySentence}

/-! ## Counting -/

theorem length_crowdedTerminals (g : Grammar) :
    g.crowdedTerminals.toList.length = g.crowdedCount := by
  rw [crowdedCount, ← List.toFinset_card_of_nodup g.crowdedTerminals.nodup]
  congr 1
  ext t
  rw [List.mem_toFinset, List.mem_toFinset, OrderedSet.mem_toList]
  exact OrderedSet.mem_ofList

theorem excess_isolate (hg : g.WellFormed) (hs : s.Avoids g.nonTerminals) :
    (g.isolate s).grammar.excess = g.excess := by
  have hlen : ∀ r : Rule, (isolateRule (g.isolate s).helpers r).2.length - 2 =
      r.2.length - 2 := fun r => by rw [isolateRule, Word.length_isolate]
  have hhelp : ∀ l : List (Terminal × NonTerminal),
      ((l.map helperRule).map fun r => r.2.length - 2).sum = 0 := fun l => by
    induction l with
    | nil => rfl
    | cons h l ih => rw [List.map_cons, List.map_cons, List.sum_cons, ih]; rfl
  rw [excess, rules_isolate hg hs, List.map_append, List.sum_append, hhelp, List.map_map,
    Nat.add_zero]
  exact congrArg List.sum (List.map_congr_left fun r _ => hlen r)

/-! ## The names -/

section Names

variable (e) (hg : g.WellFormed)

/-- Helpers come first, then links. -/
theorem introduced_normalization : (g.normalization e).introduced =
    (g.isolated e).helpers.map Prod.snd ++ (g.binarized e).links.map Prod.fst := by
  have hnone : g.supply.issued = [] := rfl
  rw [Normalization.introduced, binarization_normalization, binarized, issued_binarize, isolated,
    issued_isolate, hnone, List.nil_append]

include hg

theorem safe_withoutUnits : (Progress.mk (g.removeErasing e).removeUnits g.supply).Safe :=
  ((Progress.safe_start hg).apply (.removeErasing e)).apply .removeUnits

theorem safe_isolated : (Progress.mk (g.isolated e).grammar (g.isolated e).supply).Safe :=
  (safe_withoutUnits e hg).apply .isolate

theorem wellFormed_binarized : (g.binarized e).grammar.WellFormed := by
  have hsafe := safe_isolated e hg
  exact hsafe.wellFormed.binarize hsafe.nonTerminals hsafe.terminals

theorem rules_isolated : (g.isolated e).grammar.rules =
    (g.removeErasing e).removeUnits.rules.map (isolateRule (g.isolated e).helpers) ++
      (g.isolated e).helpers.map helperRule :=
  rules_isolate (safe_withoutUnits e hg).wellFormed (safe_withoutUnits e hg).nonTerminals

theorem rules_binarized : (g.binarized e).grammar.rules =
    ((g.isolated e).grammar.dealt (g.isolated e).supply).map headRule ++ (g.binarized e).links :=
  rules_binarize (safe_isolated e hg).wellFormed (safe_isolated e hg).nonTerminals

theorem toList_nonTerminals_isolated : (g.isolated e).grammar.nonTerminals.toList =
    g.nonTerminals.toList ++ (g.isolated e).helpers.map Prod.snd := by
  have hunits := safe_withoutUnits e hg
  have hhelpers := toList_nonTerminals_isolate hunits.wellFormed hunits.nonTerminals
  rwa [nonTerminals_withoutUnits hg] at hhelpers

theorem toList_nonTerminals_binarized : (g.binarized e).grammar.nonTerminals.toList =
    g.nonTerminals.toList ++ (g.normalization e).introduced := by
  have hisolated := safe_isolated e hg
  have hlinks := toList_nonTerminals_binarize hisolated.wellFormed hisolated.nonTerminals
  rw [introduced_normalization, ← List.append_assoc, binarized, hlinks,
    toList_nonTerminals_isolated e hg]

theorem nodup_introduced : (g.normalization e).introduced.Nodup := by
  have hnodup := (g.binarized e).grammar.nonTerminals.nodup
  rw [toList_nonTerminals_binarized e hg, List.nodup_append] at hnodup
  exact hnodup.2.1

/-- The heads of the productions before isolation, then one head for each name. -/
theorem heads_binarized : (g.binarized e).grammar.rules.map Prod.fst =
    (g.removeErasing e).removeUnits.rules.map Prod.fst ++ (g.normalization e).introduced := by
  have hisolated : (g.isolated e).grammar.rules.map Prod.fst =
      (g.removeErasing e).removeUnits.rules.map Prod.fst ++
        (g.isolated e).helpers.map Prod.snd := by
    rw [rules_isolated e hg, List.map_append, List.map_map, map_fst_helperRule]
    rfl
  have hdealt : (((g.isolated e).grammar.dealt (g.isolated e).supply).map headRule).map Prod.fst =
      (g.isolated e).grammar.rules.map Prod.fst := by
    rw [List.map_map, ← map_fst_dealt, List.map_map]
    rfl
  rw [rules_binarized e hg, List.map_append, hdealt, hisolated, introduced_normalization,
    List.append_assoc]

/-- Without gaps in the supply the names are numbered from its next number on. -/
theorem introduced_eq_range (hgap : g.supply.Gapless) : (g.normalization e).introduced =
    (List.range ((g.removeErasing e).removeUnits.crowdedCount +
      (g.removeErasing e).removeUnits.excess)).map g.stem.numbered := by
  have hhelpers : (g.isolated e).helpers.map Prod.snd =
      (List.range' 0 (g.removeErasing e).removeUnits.crowdedCount).map g.stem.numbered := by
    rw [← length_crowdedTerminals, isolated, map_snd_helpers, hgap.issueMany_eq]
    rfl
  have hlinks : (g.binarized e).links.map Prod.fst =
      (List.range' (g.removeErasing e).removeUnits.crowdedCount
        (g.removeErasing e).removeUnits.excess).map g.stem.numbered := by
    have hgap' : (g.isolated e).supply.Gapless := hgap.issueMany _
    have hnext : (g.isolated e).supply.next = (g.removeErasing e).removeUnits.crowdedCount := by
      rw [← length_crowdedTerminals]
      exact (hgap.next_issueMany _).trans (Nat.zero_add _)
    have hstem : (g.isolated e).supply.stem = g.stem := NameSupply.stem_issueMany _ g.supply
    have hexcess : (g.isolated e).grammar.excess = (g.removeErasing e).removeUnits.excess :=
      excess_isolate (safe_withoutUnits e hg).wellFormed (safe_withoutUnits e hg).nonTerminals
    have hnames := hgap'.issueMany_eq
      (Word.totalLinks ((g.isolated e).grammar.rules.map Prod.snd))
    rw [hnext, hstem] at hnames
    rw [binarized, map_fst_links, hnames, totalLinks_eq_sum, ← hexcess, excess]
  rw [introduced_normalization, hhelpers, hlinks, ← List.map_append, List.range_eq_range',
    ← List.range'_append_1, Nat.zero_add]

end Names

/-- To a grammar that was built a conversion adds exactly the names with the numbers from
zero on, one for each crowded terminal and one for each symbol beyond the second. They are
the last non-terminals in the order of their numbers, and each of them has one production. -/
theorem introduced_eq_numbered {d : Draft String} (h : d.build = .ok g) (e : EmptySentence) :
    ∃ n, g.normalize e = .ok n ∧
      let k := n.withoutUnits.crowdedCount + n.withoutUnits.excess
      n.introduced = (List.range k).map g.stem.numbered ∧
        n.result.nonTerminals.toList = g.nonTerminals.toList ++ n.introduced ∧
        n.result.rules.length = n.withoutUnits.rules.length + k ∧
        ∀ X ∈ n.introduced, (n.result.rules.map Prod.fst).count X = 1 := by
  have hg := Draft.wellFormed_of_build h
  have hintroduced := introduced_eq_range e hg (Draft.gapless_supply_of_build h)
  have hlist := toList_nonTerminals_binarized e hg
  have hperm := (NormalForm.perm_rules_typed (g.isNormal_binarized e)).map Prod.fst
  rw [heads_binarized e hg] at hperm
  refine ⟨g.normalization e, g.normalize_eq e, ?_⟩
  rw [withoutUnits_normalization, result_normalization, NormalForm.nonTerminals_typed]
  intro k
  refine ⟨hintroduced, hlist, ?_, fun X hX => ?_⟩
  · have hlength := hperm.length_eq
    rw [List.length_append, List.length_map, List.length_map, hintroduced, List.length_map,
      List.length_range] at hlength
    exact hlength
  · have hnodup := (g.binarized e).grammar.nonTerminals.nodup
    rw [hlist, List.nodup_append] at hnodup
    have hold : X ∉ (g.removeErasing e).removeUnits.rules.map Prod.fst := fun hmem => by
      obtain ⟨r, hr, rfl⟩ := List.mem_map.mp hmem
      have hkey := (safe_withoutUnits e hg).wellFormed.keys_mem r.1 (fst_mem_keys hr)
      rw [nonTerminals_withoutUnits hg] at hkey
      exact hnodup.2.2 r.1 hkey r.1 hX rfl
    rw [hperm.count_eq, List.count_append, List.count_eq_zero.mpr hold,
      List.count_eq_one_of_mem (nodup_introduced e hg) hX]

/-- The grammar of parentheses has helpers for `(` and `)`, and four links in its words of
four and three symbols. -/
theorem introduced_eq_numbered_parentheses : ∃ g n, Sample.parentheses.grammar = .ok g ∧
    g.normalize .retain = .ok n ∧
      n.introduced.map Name.text = ["X0", "X1", "X2", "X3", "X4", "X5"] ∧
      n.result.rules.length = 11 ∧
      ∀ X ∈ n.introduced, (n.result.rules.map Prod.fst).count X = 1 := by
  obtain ⟨g, hbuild, hstem, hcount, hexcess, hrules⟩ : ∃ g, Sample.parentheses.grammar = .ok g ∧
      g.stem = ⟨"X", by decide⟩ ∧ (g.removeErasing .retain).removeUnits.crowdedCount = 2 ∧
      (g.removeErasing .retain).removeUnits.excess = 4 ∧
      (g.removeErasing .retain).removeUnits.rules.length = 5 :=
    ⟨_, rfl, rfl, by decide +kernel, by decide +kernel, by decide +kernel⟩
  obtain ⟨n, hn, hintroduced, -, hlength, hhead⟩ := introduced_eq_numbered hbuild .retain
  cases Except.ok.inj (hn.symm.trans (g.normalize_eq .retain))
  rw [withoutUnits_normalization, hcount, hexcess] at hintroduced hlength
  refine ⟨g, _, hbuild, hn, ?_, ?_, hhead⟩
  · rw [hintroduced, hstem]
    decide +kernel
  · rw [hlength, hrules]

end Grammar

end ChomskyForm
