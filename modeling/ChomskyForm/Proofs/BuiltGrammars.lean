import ChomskyForm.Objection
import ChomskyForm.Proofs.IssuedNames

/-!
# A draft that passes its checks has a well-formed grammar

`Draft.exists_of_build` : what is built is the grammar of a draft without fault.
`Draft.wellFormed_of_build` : this grammar is well formed, since each condition of
`Grammar.WellFormed` is one of the checks. `Draft.gapless_supply_of_build` : its own supply
issues consecutive numbers, since no name of it has the shape of an introduced one.
-/

namespace ChomskyForm

namespace Draft

theorem exists_of_build {d : Draft String} {g : Grammar} (h : d.build = .ok g) :
    ∃ d' : Draft Name, d.named? = some d' ∧ d'.fault? = none ∧ d'.grammar = g := by
  unfold build at h
  split at h
  · cases h
  · rename_i d' hd
    split at h
    · cases h
    · rename_i hfault
      cases h
      exact ⟨d', hd, hfault, rfl⟩

variable {d : Draft Name}

/-- A draft without fault passes every check. -/
theorem fault?_eq_none_iff : d.fault? = none ↔
    d.overlap? = none ∧ d.reserved? = none ∧ d.productions ≠ [] ∧ d.start ∈ d.variableSet ∧
      d.undefined? = none ∧ d.start ∈ d.headSet := by
  have hor : ∀ (a b : Option Fault), (a <|> b) = none ↔ a = none ∧ b = none := fun a b => by
    cases a <;> simp
  simp only [fault?, hor, Option.map_eq_none_iff, ite_eq_left_iff, ite_eq_right_iff,
    reduceCtorEq, imp_false, Decidable.not_not, ne_eq]

theorem keys_grammar : d.grammar.productions.keys = d.headSet.toList :=
  OrderedMap.keys_ofKeys _ d.headSet.nodup _

/-- The productions are the classified alternatives of the left-hand sides. -/
theorem mem_rules_grammar {A : NonTerminal} {w : Word} : (A, w) ∈ d.grammar.rules ↔
    A ∈ d.headSet ∧ ∃ v ∈ d.spellings A, v.map (classify d.variableSet) = w := by
  simp only [Grammar.rules, Productions.mem_rules, grammar, OrderedMap.ofKeys, List.mem_map,
    Prod.mk.injEq]
  refine ⟨fun h => ?_, fun h => ?_⟩
  · obtain ⟨_, ⟨B, hB, rfl, rfl⟩, hw⟩ := h
    obtain ⟨v, hv, hvw⟩ := List.mem_map.mp (OrderedSet.mem_ofList.mp hw)
    exact ⟨hB, v, hv, hvw⟩
  · obtain ⟨hA, v, hv, hw⟩ := h
    exact ⟨_, ⟨A, hA, rfl, rfl⟩, OrderedSet.mem_ofList.mpr (List.mem_map.mpr ⟨v, hv, hw⟩)⟩

theorem exists_mem_spellings {A : NonTerminal} (hA : A ∈ d.headSet) : ∃ v, v ∈ d.spellings A := by
  obtain ⟨p, hp, rfl⟩ := List.mem_map.mp (OrderedSet.mem_ofList.mp hA)
  exact ⟨_, List.mem_map_of_mem (List.mem_filter.mpr ⟨hp, by simp⟩)⟩

theorem spellings_eq_nil {A : NonTerminal} (hA : A ∉ d.headSet) : d.spellings A = [] := by
  rw [spellings_eq, given_eq_nil (mt mem_headSet.mpr hA), List.map_nil]

/-- Every left-hand side has its classified alternatives, and others have none. -/
theorem alternatives_grammar (A : NonTerminal) : d.grammar.alternatives A =
    .ofList ((d.spellings A).map (List.map (classify d.variableSet))) := by
  have hfind : d.grammar.productions.find? A = if A ∈ d.headSet.toList then
      some (.ofList ((d.spellings A).map (List.map (classify d.variableSet)))) else none :=
    OrderedMap.find?_ofKeys d.headSet.nodup _ A
  rw [Grammar.alternatives, hfind]
  split
  · rfl
  · rename_i hA
    rw [spellings_eq_nil hA]
    rfl

/-- In a draft without undefined symbols every symbol is in one of the alphabets. -/
theorem mem_alphabets (h : d.undefined? = none) {A : NonTerminal} (hA : A ∈ d.headSet)
    {v : List Name} (hv : v ∈ d.spellings A) {a : Name} (ha : a ∈ v) :
    a ∈ d.variableSet ∨ a ∈ d.letterSet := by
  unfold undefined? at h
  have hnone := List.findSome?_eq_none_iff.mp h A hA
  rw [Option.map_eq_none_iff, List.find?_eq_none] at hnone
  have hfound := hnone a (List.mem_flatten.mpr ⟨v, hv, ha⟩)
  rw [decide_eq_true_iff] at hfound
  by_cases hvar : a ∈ d.variableSet
  · exact .inl hvar
  · exact .inr (Decidable.byContradiction fun hlet => hfound ⟨hvar, hlet⟩)

theorem declares_classify {a : Name} (h : a ∈ d.variableSet ∨ a ∈ d.letterSet) :
    d.grammar.Declares (classify d.variableSet a) := by
  unfold classify
  split
  · rename_i hvar
    exact hvar
  · rename_i hvar
    exact h.resolve_left hvar

theorem wellFormed_grammar (h : d.fault? = none) : d.grammar.WellFormed := by
  obtain ⟨hoverlap, -, -, hstart, hundefined, -⟩ := fault?_eq_none_iff.mp h
  refine ⟨hstart, fun a ha hlet => ?_, fun A hA => ?_, fun r hr a ha => ?_, fun e he => ?_⟩
  · exact absurd (decide_eq_true ha) (List.find?_eq_none.mp hoverlap a hlet)
  · rw [keys_grammar] at hA
    exact OrderedSet.mem_ofList.mpr (List.mem_append_right _ (OrderedSet.mem_ofList.mp hA))
  · obtain ⟨hA, v, hv, hw⟩ := mem_rules_grammar.mp hr
    rw [← hw] at ha
    obtain ⟨b, hb, rfl⟩ := List.mem_map.mp ha
    exact declares_classify (mem_alphabets hundefined hA hv hb)
  · obtain ⟨A, hA, rfl⟩ := List.mem_map.mp he
    obtain ⟨v, hv⟩ := exists_mem_spellings hA
    refine List.ne_nil_of_mem (a := v.map (classify d.variableSet)) ?_
    exact OrderedSet.mem_ofList.mpr (List.mem_map_of_mem hv)

/-- What is built is well formed. -/
theorem wellFormed_of_build {d : Draft String} {g : Grammar} (h : d.build = .ok g) :
    g.WellFormed := by
  obtain ⟨d', -, hfault, rfl⟩ := exists_of_build h
  exact wellFormed_grammar hfault

theorem hasNumberedShape_eq_false (h : d.fault? = none) {a : Name}
    (ha : a ∈ d.variableSet.toList ++ d.letterSet.toList) :
    hasNumberedShape d.stem.text a.text = false := by
  have hreserved := (fault?_eq_none_iff.mp h).2.1
  exact Bool.eq_false_iff.mpr (List.find?_eq_none.mp hreserved a ha)

/-- No number is taken in the supply of a grammar that was built. -/
theorem gapless_supply_of_build {d : Draft String} {g : Grammar} (h : d.build = .ok g) :
    g.supply.Gapless := by
  obtain ⟨d', -, hfault, rfl⟩ := exists_of_build h
  refine NameSupply.gapless_avoiding fun t ht => ?_
  obtain ⟨a, ha, rfl⟩ := List.mem_map.mp ht
  exact hasNumberedShape_eq_false hfault ha

end Draft

end ChomskyForm
