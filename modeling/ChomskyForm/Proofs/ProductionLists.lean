import Mathlib.Data.List.Nodup
import ChomskyForm.Proofs.ConversionLanguage

/-!
# What the passes do to lists

Where the other modules say which productions a pass leaves, this one says in which order.
No production is listed twice (`Grammar.nodup_rules`). The two passes that draw names keep
the list of productions, with each right-hand side rewritten in its place, and add the
productions of the new names at the end, in the order of issue (`Grammar.rules_isolate`,
`Grammar.rules_binarize`). The non-terminals grow in the same way.

No two alternatives are merged on the way : spelling out the new names gives back the word
that was rewritten, so different words are rewritten differently.

Typing moves at most the empty production of the start symbol (`NormalForm.perm_rules_typed`).
-/

namespace ChomskyForm

/-! ## Lists of productions -/

/-- Productions that are listed by left-hand side are not repeated. -/
theorem nodup_flatMap_of_fst {γ : Type} {f : NonTerminal × γ → List Rule} :
    ∀ {l : List (NonTerminal × γ)}, (l.map Prod.fst).Nodup → (∀ e ∈ l, (f e).Nodup) →
      (∀ e ∈ l, ∀ r ∈ f e, r.1 = e.1) → (l.flatMap f).Nodup
  | [], _, _, _ => List.nodup_nil
  | e :: l, hl, hf, hfst => by
    rw [List.map_cons, List.nodup_cons] at hl
    have hrest := nodup_flatMap_of_fst hl.2 (fun d hd => hf d (List.mem_cons_of_mem e hd))
      fun d hd => hfst d (List.mem_cons_of_mem e hd)
    rw [List.flatMap_cons, List.nodup_append]
    refine ⟨hf e List.mem_cons_self, hrest, fun r hr q hq heq => hl.1 ?_⟩
    obtain ⟨d, hd, hqd⟩ := List.mem_flatMap.mp hq
    have hhead : e.1 = d.1 := by
      rw [← hfst e List.mem_cons_self r hr, heq, hfst d (List.mem_cons_of_mem e hd) q hqd]
    exact hhead ▸ List.mem_map_of_mem hd

theorem Productions.nodup_rules (p : Productions) : p.rules.Nodup := by
  refine nodup_flatMap_of_fst p.nodup (fun e _ => ?_) fun e _ r hr => ?_
  · exact e.2.nodup.map fun v w heq => congrArg Prod.snd heq
  · obtain ⟨w, -, rfl⟩ := List.mem_map.mp hr
    rfl

namespace Grammar

variable {g : Grammar} {s : NameSupply}

theorem nodup_rules (g : Grammar) : g.rules.Nodup := g.productions.nodup_rules

/-! ## Non-terminals -/

/-- Left-hand sides that are no non-terminals yet become the last ones. -/
theorem toList_nonTerminals_withProductions {p : Productions} {old new : List NonTerminal}
    (hkeys : p.keys = old ++ new) (hold : ∀ A ∈ old, A ∈ g.nonTerminals)
    (hnew : ∀ A ∈ new, A ∉ g.nonTerminals) :
    (g.withProductions p).nonTerminals.toList = g.nonTerminals.toList ++ new := by
  have hnodup := p.keys_nodup
  rw [hkeys, List.nodup_append] at hnodup
  show (g.nonTerminals.insertAll p.keys).toList = _
  rw [hkeys, OrderedSet.insertAll_append, OrderedSet.insertAll_of_forall_mem hold]
  refine OrderedSet.toList_insertAll_of_nodup (List.nodup_append.mpr ?_)
  exact ⟨g.nonTerminals.nodup, hnodup.2.1, fun A hA B hB heq => hnew B hB (heq ▸ hA)⟩

theorem nonTerminals_withProductions_of_subset {p : Productions}
    (hkeys : ∀ A ∈ p.keys, A ∈ g.nonTerminals) :
    (g.withProductions p).nonTerminals = g.nonTerminals :=
  OrderedSet.insertAll_of_forall_mem hkeys

theorem nonTerminals_removeErasing (hg : g.WellFormed) (e : EmptySentence) :
    (g.removeErasing e).nonTerminals = g.nonTerminals :=
  nonTerminals_withProductions_of_subset fun A hA =>
    hg.keys_mem A (OrderedMap.mem_keys_of_mem_filterMap hA)

theorem nonTerminals_removeUnits (hg : g.WellFormed) :
    g.removeUnits.nonTerminals = g.nonTerminals :=
  nonTerminals_withProductions_of_subset fun A hA =>
    hg.keys_mem A (OrderedMap.mem_keys_of_mem_filterMap hA)

theorem nonTerminals_withoutUnits (hg : g.WellFormed) (e : EmptySentence) :
    (g.removeErasing e).removeUnits.nonTerminals = g.nonTerminals := by
  rw [nonTerminals_removeUnits (hg.removeErasing e), nonTerminals_removeErasing hg]

/-! ## Isolation -/

/-- The production with helpers in it. -/
def isolateRule (helpers : List (Terminal × NonTerminal)) (r : Rule) : Rule :=
  (r.1, r.2.isolate helpers)

section Isolation

variable (hg : g.WellFormed) (hs : s.Avoids g.nonTerminals)
include hg hs

theorem expand_isolate {r : Rule} (hr : r ∈ g.rules) :
    (r.2.isolate (g.isolate s).helpers).expand
      (meaningIn ((g.isolate s).helpers.map helperRule)) = r.2 :=
  Word.expand_isolate nodup_snd_helpers fun _ hA => not_mem_helpers hs (hg.declares r hr _ hA)

/-- Different alternatives stay different. -/
theorem toList_map_isolate {e : NonTerminal × OrderedSet Word}
    (he : e ∈ g.productions.entries) :
    (e.2.map (Word.isolate (g.isolate s).helpers)).toList =
      e.2.toList.map (Word.isolate (g.isolate s).helpers) := by
  refine OrderedSet.toList_map_of_nodup ?_
  refine List.Nodup.of_map (Word.expand (meaningIn ((g.isolate s).helpers.map helperRule))) ?_
  rw [List.map_map, List.map_congr_left (g := id) fun w hw => ?_, List.map_id]
  · exact e.2.nodup
  · exact expand_isolate hg hs (Productions.mem_rules.mpr ⟨e.2, he, hw⟩)

theorem entries_isolate : (g.isolate s).grammar.productions.entries =
    g.productions.entries.map (fun e => (e.1, e.2.map (Word.isolate (g.isolate s).helpers))) ++
      (g.isolate s).helpers.map helperEntry := by
  refine OrderedMap.entries_insertAll_of_nodup (List.nodup_append.mpr ?_)
  rw [OrderedMap.keys_mapValues, map_fst_helperEntry]
  refine ⟨g.productions.nodup, nodup_snd_helpers, fun A hA B hB heq => ?_⟩
  exact not_mem_helpers hs (hg.keys_mem A hA) (heq ▸ hB)

theorem rules_isolate : (g.isolate s).grammar.rules =
    g.rules.map (isolateRule (g.isolate s).helpers) ++
      (g.isolate s).helpers.map helperRule := by
  rw [rules, Productions.rules, entries_isolate hg hs, List.flatMap_append, List.flatMap_map,
    List.flatMap_map]
  congr 1
  · rw [rules, Productions.rules, List.map_flatMap]
    refine List.flatMap_congr fun e he => ?_
    rw [toList_map_isolate hg hs he, List.map_map, List.map_map]
    rfl
  · exact List.map_eq_flatMap.symm

theorem toList_nonTerminals_isolate : (g.isolate s).grammar.nonTerminals.toList =
    g.nonTerminals.toList ++ (g.isolate s).helpers.map Prod.snd := by
  have hkeys : (g.isolate s).grammar.productions.keys =
      g.productions.keys ++ (g.isolate s).helpers.map Prod.snd := by
    rw [OrderedMap.keys, entries_isolate hg hs, List.map_append, map_fst_helperEntry,
      List.map_map]
    rfl
  exact toList_nonTerminals_withProductions hkeys hg.keys_mem
    fun A hA hmem => not_mem_helpers hs hmem hA

end Isolation

/-! ## Splitting -/

/-- What is left of a production when its chain takes the names dealt out to it. -/
def headRule (d : Rule × List NonTerminal) : Rule := (d.1.1, d.1.2.chainHead d.2)

end Grammar

section Chains

variable {σ : NonTerminal → Option Word}

/-- Chains that can be spelled out again come from different words. -/
theorem nodup_chainHeads {A : NonTerminal} {ws : List Word} {Xs : List NonTerminal}
    (hws : ws.Nodup)
    (h : ∀ d ∈ dealNames (ws.map (A, ·)) Xs, (d.1.2.chainHead d.2).expand σ = d.1.2) :
    (Word.chainHeads ws Xs).Nodup := by
  have hsnd := map_snd_map_mk A ws
  refine List.Nodup.of_map (Word.expand σ) ?_
  have hread : (Word.chainHeads ws Xs).map (Word.expand σ) = ws := by
    calc (Word.chainHeads ws Xs).map (Word.expand σ)
        = (dealNames (ws.map (A, ·)) Xs).map fun d => (d.1.2.chainHead d.2).expand σ := by
          rw [← hsnd, chainHeads_eq_map, hsnd, List.map_map]
          rfl
      _ = (dealNames (ws.map (A, ·)) Xs).map fun d => d.1.2 := List.map_congr_left h
      _ = ((dealNames (ws.map (A, ·)) Xs).map Prod.fst).map Prod.snd := List.map_map.symm
      _ = ws := by rw [map_fst_dealNames, hsnd]
  rw [hread]
  exact hws

theorem flatMap_shortenEntries : ∀ (l : List (NonTerminal × OrderedSet Word))
    (Xs : List NonTerminal),
    (∀ d ∈ dealNames (l.flatMap fun e => e.2.toList.map (e.1, ·)) Xs,
      (d.1.2.chainHead d.2).expand σ = d.1.2) →
    (Productions.shortenEntries l Xs).flatMap (fun e => e.2.toList.map (e.1, ·)) =
      (dealNames (l.flatMap fun e => e.2.toList.map (e.1, ·)) Xs).map Grammar.headRule
  | [], _, _ => rfl
  | (A, ws) :: l, Xs, h => by
    have hsnd := map_snd_map_mk A ws.toList
    rw [List.flatMap_cons, dealNames_append, hsnd] at h ⊢
    have hnodup := nodup_chainHeads ws.nodup fun d hd => h d (List.mem_append_left _ hd)
    rw [Productions.shortenEntries, List.flatMap_cons, List.map_append,
      flatMap_shortenEntries l _ fun d hd => h d (List.mem_append_right _ hd),
      OrderedSet.toList_ofList_of_nodup hnodup]
    congr 1
    rw [← hsnd, chainHeads_eq_map, hsnd, List.map_map]
    refine List.map_congr_left fun d hd => Prod.ext ?_ rfl
    exact (fst_of_mem_dealNames (v := d.1.2) hd).symm

end Chains

namespace Grammar

variable {g : Grammar} {s : NameSupply}

section Splitting

variable (hg : g.WellFormed) (hs : s.Avoids g.nonTerminals)
include hg hs

theorem entries_binarize : (g.binarize s).grammar.productions.entries =
    Productions.shortenEntries g.productions.entries
      (s.issueMany (Word.totalLinks (g.rules.map Prod.snd))).1 ++
        (g.binarize s).links.map linkEntry := by
  refine OrderedMap.entries_insertAll_of_nodup (List.nodup_append.mpr ?_)
  have hkeys : ∀ Xs, (g.productions.shorten Xs).keys = g.productions.keys :=
    Productions.keys_shortenEntries g.productions.entries
  rw [hkeys, map_fst_linkEntry]
  refine ⟨g.productions.nodup, nodup_fst_links, fun A hA B hB heq => ?_⟩
  exact not_mem_links hs (hg.keys_mem A hA) (heq ▸ hB)

theorem expand_headRule {d : Rule × List NonTerminal} (hd : d ∈ g.dealt s) :
    (d.1.2.chainHead d.2).expand (meaningIn (g.linkMeanings s)) = d.1.2 :=
  Word.expand_chainHead (meaningIn_linkMeanings hd) fun _ hA =>
    meaningIn_linkMeanings_eq_none hs (hg.declares _ (fst_mem_rules_of_mem_dealt hd) _ hA)

theorem rules_binarize : (g.binarize s).grammar.rules =
    (g.dealt s).map headRule ++ (g.binarize s).links := by
  rw [rules, Productions.rules, entries_binarize hg hs, List.flatMap_append,
    flatMap_shortenEntries (σ := meaningIn (g.linkMeanings s)) _ _ fun d hd =>
      expand_headRule hg hs hd, List.flatMap_map]
  congr 1
  exact List.map_eq_flatMap.symm.trans (List.map_id _)

theorem keys_binarize : (g.binarize s).grammar.productions.keys =
    g.productions.keys ++ (g.binarize s).links.map Prod.fst := by
  rw [OrderedMap.keys, entries_binarize hg hs, List.map_append, map_fst_linkEntry,
    Productions.keys_shortenEntries]
  rfl

theorem toList_nonTerminals_binarize : (g.binarize s).grammar.nonTerminals.toList =
    g.nonTerminals.toList ++ (g.binarize s).links.map Prod.fst :=
  toList_nonTerminals_withProductions (keys_binarize hg hs) hg.keys_mem
    fun _ hA hmem => not_mem_links hs hmem hA

end Splitting

end Grammar

/-! ## Typing -/

namespace NormalForm

variable {k : Grammar}

theorem word_injective {v w : NormalWord} (h : v.word = w.word) : v = w := by
  have hok := NormalWord.ofWord_word v
  rw [h, NormalWord.ofWord_word] at hok
  exact (Except.ok.inj hok).symm

theorem fst_of_mem_entryRules {c : NormalForm} {e : NonTerminal × OrderedSet NormalWord}
    {r : Rule} (hr : r ∈ c.entryRules e) : r.1 = e.1 := by
  rcases List.mem_append.mp hr with hr | hr
  · obtain ⟨w, -, rfl⟩ := List.mem_map.mp hr
    rfl
  · rw [List.mem_ite_nil_right, List.mem_singleton, Bool.and_eq_true, decide_eq_true_iff] at hr
    rw [hr.2, hr.1.2]

theorem nodup_entryRules (c : NormalForm) (e : NonTerminal × OrderedSet NormalWord) :
    (c.entryRules e).Nodup := by
  refine List.nodup_append.mpr ⟨?_, ?_, fun r hr q hq heq => ?_⟩
  · exact e.2.nodup.map fun v w heq => word_injective (congrArg Prod.snd heq)
  · split
    · exact List.nodup_singleton _
    · exact List.nodup_nil
  · -- the empty word is no right-hand side of normal form
    obtain ⟨w, -, rfl⟩ := List.mem_map.mp hr
    rw [List.mem_ite_nil_right, List.mem_singleton] at hq
    rw [hq.2] at heq
    exact word_ne_nil w (congrArg Prod.snd heq)

theorem nodup_rules (c : NormalForm) : c.rules.Nodup := by
  refine List.nodup_append.mpr ⟨?_, ?_, fun r hr q hq heq => ?_⟩
  · split
    · exact List.nodup_singleton _
    · exact List.nodup_nil
  · exact nodup_flatMap_of_fst c.productions.nodup (fun e _ => c.nodup_entryRules e)
      fun e _ r hr => fst_of_mem_entryRules hr
  · obtain ⟨e, he, hq⟩ := List.mem_flatMap.mp hq
    rw [List.mem_ite_nil_right, List.mem_singleton, Bool.and_eq_true, decide_eq_true_iff] at hr
    refine hr.1.2 (OrderedMap.mem_keys.mpr ⟨e.2, ?_⟩)
    have hstart : c.start = e.1 := by rw [← fst_of_mem_entryRules hq, ← heq, hr.2]
    rw [hstart]
    exact he

/-- Typing moves at most the empty production. -/
theorem perm_rules_typed (hk : k.isNormal = true) : (typed k).rules.Perm k.rules := by
  refine (List.perm_ext_iff_of_nodup (nodup_rules _) k.nodup_rules).mpr fun ⟨A, v⟩ => ?_
  have hrule := Grammar.isNormal_iff.mp hk A v
  rw [mem_rules, erasable_typed]
  refine ⟨?_, fun hr => ?_⟩
  · rintro (⟨w, hw, rfl⟩ | ⟨rfl, rfl, hnil⟩)
    · exact has_typed_iff.mp hw
    · exact hnil
  · by_cases hv : v = []
    · have hstart := (Grammar.isNormalRule_iff.mp (hrule hr)).1 hv
      rw [hv, hstart] at hr
      exact .inr ⟨hv, hstart, hr⟩
    · obtain ⟨w, rfl⟩ := exists_word_of_isNormalRule (hrule hr) hv
      exact .inl ⟨w, has_typed_iff.mpr hr, rfl⟩

end NormalForm

end ChomskyForm
