import ChomskyForm.Isolation
import ChomskyForm.Proofs.IssuedNames
import ChomskyForm.Proofs.Simulation

/-!
# Isolation of terminals keeps the language

`Grammar.mem_rules_isolate` says where a production of the new grammar comes from : it is
an old one with helpers in it, or the production of a helper. This holds for every supply
of names. The converse is for left-hand sides that are no helpers.

With a supply that avoids the non-terminals, a helper stands for its terminal and for
nothing else (`Grammar.folds_isolate`), and the old non-terminals derive what they derived
(`Grammar.derives_isolate_iff`).
-/

namespace ChomskyForm

/-! ## Helpers in words -/

section Helpers

variable {helpers : List (Terminal × NonTerminal)}

/-- The production of a helper. -/
def helperRule (h : Terminal × NonTerminal) : Rule := (h.2, [.terminal h.1])

theorem map_fst_helperRule (l : List (Terminal × NonTerminal)) :
    (l.map helperRule).map Prod.fst = l.map Prod.snd := by
  rw [List.map_map]
  rfl

/-- A helper stands for its terminal. -/
theorem meaningIn_helperRule (hnodup : (helpers.map Prod.snd).Nodup) {t : Terminal}
    {X : NonTerminal} (hX : (t, X) ∈ helpers) :
    meaningIn (helpers.map helperRule) X = some [.terminal t] := by
  rw [← map_fst_helperRule] at hnodup
  exact meaningIn_of_mem hnodup (List.mem_map_of_mem (f := helperRule) hX)

theorem meaningIn_helperRule_eq_none {A : NonTerminal} (hA : A ∉ helpers.map Prod.snd) :
    meaningIn (helpers.map helperRule) A = none := by
  rw [← map_fst_helperRule] at hA
  exact meaningIn_eq_none hA

/-- A terminal is replaced by its helper if it has one. -/
theorem Symbol.isolate_terminal (helpers : List (Terminal × NonTerminal)) (t : Terminal) :
    (∃ X, (t, X) ∈ helpers ∧ isolate helpers (.terminal t) = .nonTerminal X) ∨
      (t ∉ helpers.map Prod.fst ∧ isolate helpers (.terminal t) = .terminal t) := by
  cases hf : helpers.find? fun h => h.1 = t with
  | some h =>
    have ht : h.1 = t := by simpa using List.find?_some hf
    refine .inl ⟨h.2, ht ▸ List.mem_of_find?_eq_some hf, ?_⟩
    rw [isolate, hf]
  | none =>
    refine .inr ⟨fun ht => ?_, by rw [isolate, hf]⟩
    obtain ⟨h, hmem, rfl⟩ := List.mem_map.mp ht
    simpa using List.find?_eq_none.mp hf h hmem

@[simp] theorem Word.length_isolate (w : Word) : (w.isolate helpers).length = w.length := by
  unfold isolate
  split
  · rfl
  · exact List.length_map _

theorem Word.isolate_of_length_lt {w : Word} (h : w.length < 2) : w.isolate helpers = w :=
  if_pos h

theorem Word.isolate_of_two_le {w : Word} (h : 2 ≤ w.length) :
    w.isolate helpers = w.map (Symbol.isolate helpers) :=
  if_neg (Nat.not_lt.mpr h)

theorem Word.isolate_eq_nil_iff {w : Word} : w.isolate helpers = [] ↔ w = [] := by
  rw [← List.length_eq_zero_iff, length_isolate, List.length_eq_zero_iff]

theorem Word.mem_of_mem_isolate {w : Word} {a : Symbol} (h : a ∈ w.isolate helpers) :
    a ∈ w ∨ ∃ X ∈ helpers.map Prod.snd, a = .nonTerminal X := by
  rcases Nat.lt_or_ge w.length 2 with hw | hw
  · rw [isolate_of_length_lt hw] at h
    exact .inl h
  · rw [isolate_of_two_le hw] at h
    obtain ⟨b, hb, rfl⟩ := List.mem_map.mp h
    cases b with
    | nonTerminal B => exact .inl hb
    | terminal t =>
      rcases Symbol.isolate_terminal helpers t with ⟨X, hX, heq⟩ | ⟨-, heq⟩
      · exact .inr ⟨X, List.mem_map_of_mem hX, heq⟩
      · rw [heq]
        exact .inl hb

/-- A short word is left as it is. -/
theorem Word.unit?_isolate (w : Word) : (w.isolate helpers).unit? = w.unit? := by
  rcases Nat.lt_or_ge w.length 2 with h | h
  · rw [isolate_of_length_lt h]
  · -- neither word is short enough
    have hlong : ∀ v : Word, 2 ≤ v.length → v.unit? = none := fun v hv => by
      rw [Option.eq_none_iff_forall_ne_some]
      intro A hA
      rw [unit?_eq_some_iff.mp hA, List.length_singleton] at hv
      omega
    have h' : 2 ≤ (w.isolate helpers).length := by rwa [length_isolate]
    rw [hlong w h, hlong _ h']

/-- Where helpers derive their terminals, a word with helpers derives what the word does. -/
theorem Yields.map_isolate {rules : List Rule}
    (hhelp : ∀ h ∈ helpers, helperRule h ∈ rules) :
    ∀ {w : Word} {u : Sentence}, Yields rules w u →
      Yields rules (w.map (Symbol.isolate helpers)) u
  | _, _, .nil => .nil
  | _, _, .terminal (t := t) hw => by
    have ih := hw.map_isolate hhelp
    rcases Symbol.isolate_terminal helpers t with ⟨X, hX, heq⟩ | ⟨-, heq⟩
    · rw [List.map_cons, heq]
      exact .nonTerminal (x := [t.text]) (hhelp _ hX) (.terminal .nil) ih
    · rw [List.map_cons, heq]
      exact .terminal ih
  | _, _, .nonTerminal hr hv hw => .nonTerminal hr hv (hw.map_isolate hhelp)

theorem Yields.isolate {rules : List Rule}
    (hhelp : ∀ h ∈ helpers, helperRule h ∈ rules) {w : Word} {u : Sentence}
    (h : Yields rules w u) : Yields rules (w.isolate helpers) u := by
  unfold Word.isolate
  split
  · exact h
  · exact h.map_isolate hhelp

/-- Helpers put in are taken out again. -/
theorem Word.expand_map_isolate (hnodup : (helpers.map Prod.snd).Nodup) : ∀ {w : Word},
    (∀ A, .nonTerminal A ∈ w → A ∉ helpers.map Prod.snd) →
      Word.expand (meaningIn (helpers.map helperRule)) (w.map (Symbol.isolate helpers)) = w
  | [], _ => rfl
  | .terminal t :: w, hw => by
    have ih := expand_map_isolate hnodup fun A hA => hw A (List.mem_cons_of_mem _ hA)
    rcases Symbol.isolate_terminal helpers t with ⟨X, hX, heq⟩ | ⟨-, heq⟩
    · rw [List.map_cons, heq, expand, ih, meaningIn_helperRule hnodup hX]
      rfl
    · rw [List.map_cons, heq, expand, ih]
  | .nonTerminal A :: w, hw => by
    have ih := expand_map_isolate hnodup fun B hB => hw B (List.mem_cons_of_mem _ hB)
    have hA := meaningIn_helperRule_eq_none (hw A List.mem_cons_self)
    rw [List.map_cons, Symbol.isolate, expand, ih, hA]
    rfl

theorem Word.expand_isolate (hnodup : (helpers.map Prod.snd).Nodup) {w : Word}
    (hw : ∀ A, .nonTerminal A ∈ w → A ∉ helpers.map Prod.snd) :
    (w.isolate helpers).expand (meaningIn (helpers.map helperRule)) = w := by
  unfold isolate
  split
  · exact expand_of_none fun A hA => meaningIn_helperRule_eq_none (hw A hA)
  · exact expand_map_isolate hnodup hw

end Helpers

/-! ## The pass -/

namespace Grammar

variable {g : Grammar} {s : NameSupply}

theorem mem_crowdedTerminals {t : Terminal} :
    t ∈ g.crowdedTerminals ↔ ∃ r ∈ g.rules, 2 ≤ r.2.length ∧ .terminal t ∈ r.2 := by
  have hsym : ∀ a : Symbol, a.terminal? = some t ↔ a = .terminal t := fun a => by
    cases a <;> simp [Symbol.terminal?]
  simp [crowdedTerminals, hsym, and_assoc]

theorem map_fst_helpers : (g.isolate s).helpers.map Prod.fst = g.crowdedTerminals.toList :=
  List.map_fst_zip (Nat.le_of_eq (NameSupply.length_issueMany _ s).symm)

theorem map_snd_helpers : (g.isolate s).helpers.map Prod.snd =
    (s.issueMany g.crowdedTerminals.toList.length).1 :=
  List.map_snd_zip (Nat.le_of_eq (NameSupply.length_issueMany _ s))

theorem nodup_snd_helpers : ((g.isolate s).helpers.map Prod.snd).Nodup := by
  rw [map_snd_helpers]
  exact NameSupply.nodup_issueMany _ s

theorem taken_isolate : (g.isolate s).supply.taken =
    s.taken ++ ((g.isolate s).helpers.map Prod.snd).map Name.text := by
  rw [map_snd_helpers]
  exact NameSupply.taken_issueMany _ s

theorem issued_isolate : (g.isolate s).supply.issued =
    s.issued ++ (g.isolate s).helpers.map Prod.snd := by
  rw [map_snd_helpers]
  exact NameSupply.issued_issueMany _ s

theorem not_mem_taken_of_mem_helpers {X : NonTerminal}
    (h : X ∈ (g.isolate s).helpers.map Prod.snd) : X.text ∉ s.taken := by
  rw [map_snd_helpers] at h
  exact NameSupply.not_mem_taken_of_mem_issueMany h

theorem map_fst_helperEntry (l : List (Terminal × NonTerminal)) :
    (l.map helperEntry).map Prod.fst = l.map Prod.snd := by
  rw [List.map_map]
  rfl

theorem mem_rules_mapValues {p : Productions} {f : Word → Word} {A : NonTerminal} {w : Word} :
    (A, w) ∈ Productions.rules (p.mapValues (OrderedSet.map f)) ↔
      ∃ v, (A, v) ∈ p.rules ∧ f v = w := by
  simp only [Productions.mem_rules, OrderedMap.mapValues, List.mem_map, Prod.mk.injEq]
  refine ⟨fun h => ?_, fun h => ?_⟩
  · obtain ⟨_, ⟨⟨B, ws⟩, he, rfl, rfl⟩, hw⟩ := h
    obtain ⟨v, hv, hvw⟩ := OrderedSet.mem_map.mp hw
    exact ⟨v, ⟨ws, he, hv⟩, hvw⟩
  · obtain ⟨v, ⟨ws, he, hv⟩, hw⟩ := h
    exact ⟨_, ⟨(A, ws), he, rfl, rfl⟩, OrderedSet.mem_map.mpr ⟨v, hv, hw⟩⟩

/-- Where a production comes from, whatever the supply. -/
theorem mem_rules_isolate {A : NonTerminal} {w : Word} (h : (A, w) ∈ (g.isolate s).grammar.rules) :
    (∃ v, (A, v) ∈ g.rules ∧ v.isolate (g.isolate s).helpers = w) ∨
      ∃ t, (t, A) ∈ (g.isolate s).helpers ∧ w = [.terminal t] := by
  obtain ⟨ws, he, hw⟩ := Productions.mem_rules.mp h
  rcases OrderedMap.mem_entries_of_mem_insertAll he with he | he
  · exact .inl (mem_rules_mapValues.mp (Productions.mem_rules.mpr ⟨ws, he, hw⟩))
  · obtain ⟨⟨t, X⟩, hmem, heq⟩ := List.mem_map.mp he
    cases heq
    exact .inr ⟨t, hmem, OrderedSet.mem_singleton.mp hw⟩

/-- A production whose left-hand side is no helper is kept, with helpers in it. -/
theorem isolate_mem_rules {A : NonTerminal} {v : Word}
    (hA : A ∉ (g.isolate s).helpers.map Prod.snd) (h : (A, v) ∈ g.rules) :
    (A, v.isolate (g.isolate s).helpers) ∈ (g.isolate s).grammar.rules := by
  obtain ⟨ws, he, hw⟩ := Productions.mem_rules.mp
    (mem_rules_mapValues (f := Word.isolate (g.isolate s).helpers).mpr ⟨v, h, rfl⟩)
  refine Productions.mem_rules.mpr ⟨ws, ?_, hw⟩
  rw [← map_fst_helperEntry] at hA
  exact (OrderedMap.mem_entries_insertAll_of_not_mem hA).mpr he

theorem helperRule_mem_rules {h : Terminal × NonTerminal} (hmem : h ∈ (g.isolate s).helpers) :
    helperRule h ∈ (g.isolate s).grammar.rules := by
  refine Productions.mem_rules.mpr
    ⟨.singleton [.terminal h.1], ?_, OrderedSet.mem_singleton.mpr rfl⟩
  refine OrderedMap.mem_entries_insertAll_of_mem ?_ (List.mem_map_of_mem hmem)
  rw [map_fst_helperEntry]
  exact nodup_snd_helpers

theorem mem_keys_isolate {A : NonTerminal} : A ∈ (g.isolate s).grammar.productions.keys ↔
    A ∈ g.productions.keys ∨ A ∈ (g.isolate s).helpers.map Prod.snd := by
  rw [← map_fst_helperEntry]
  refine OrderedMap.mem_keys_insertAll.trans ?_
  rw [OrderedMap.keys_mapValues]
  rfl

/-- No terminal is left next to another symbol, whatever the supply. -/
theorem isTerminal_of_mem_isolate {A : NonTerminal} {w : Word}
    (h : (A, w) ∈ (g.isolate s).grammar.rules) (hw : 2 ≤ w.length) {a : Symbol} (ha : a ∈ w) :
    a.isTerminal = false := by
  rcases mem_rules_isolate h with ⟨v, hr, rfl⟩ | ⟨t, -, rfl⟩
  · rw [Word.length_isolate] at hw
    rw [Word.isolate_of_two_le hw] at ha
    obtain ⟨b, hb, rfl⟩ := List.mem_map.mp ha
    cases b with
    | nonTerminal B => rfl
    | terminal t =>
      rcases Symbol.isolate_terminal (g.isolate s).helpers t with ⟨X, -, heq⟩ | ⟨ht, -⟩
      · rw [heq]
        rfl
      · rw [map_fst_helpers] at ht
        exact absurd (mem_crowdedTerminals.mpr ⟨_, hr, hw, hb⟩) ht
  · rw [List.length_singleton] at hw
    omega

/-- The symbols of a production are old ones and helpers. -/
theorem mem_of_mem_rules_isolate {A : NonTerminal} {w : Word} {a : Symbol}
    (h : (A, w) ∈ (g.isolate s).grammar.rules) (ha : a ∈ w) :
    (∃ r ∈ g.rules, a ∈ r.2) ∨
      ∃ X ∈ (g.isolate s).helpers.map Prod.snd, a = .nonTerminal X := by
  rcases mem_rules_isolate h with ⟨v, hr, rfl⟩ | ⟨t, ht, rfl⟩
  · exact (Word.mem_of_mem_isolate ha).imp_left fun ha => ⟨_, hr, ha⟩
  · have hcrowded : t ∈ (g.isolate s).helpers.map Prod.fst := List.mem_map_of_mem ht
    rw [map_fst_helpers] at hcrowded
    obtain ⟨r, hr, -, htr⟩ := mem_crowdedTerminals.mp hcrowded
    rw [List.mem_singleton.mp ha]
    exact .inl ⟨r, hr, htr⟩

theorem nil_mem_of_isolate {A : NonTerminal} (h : (A, []) ∈ (g.isolate s).grammar.rules) :
    (A, []) ∈ g.rules := by
  rcases mem_rules_isolate h with ⟨v, hr, hv⟩ | ⟨t, -, hw⟩
  · rwa [Word.isolate_eq_nil_iff.mp hv] at hr
  · exact absurd hw.symm (List.cons_ne_nil _ _)

theorem nil_mem_isolate {A : NonTerminal} (hA : A.text ∈ s.taken) (h : (A, []) ∈ g.rules) :
    (A, []) ∈ (g.isolate s).grammar.rules := by
  refine isolate_mem_rules (fun hX => not_mem_taken_of_mem_helpers hX hA) h

/-! ## The language -/

section Language

variable (hg : g.WellFormed) (hs : s.Avoids g.nonTerminals)

include hs in
theorem not_mem_helpers {A : NonTerminal} (hA : A ∈ g.nonTerminals) :
    A ∉ (g.isolate s).helpers.map Prod.snd :=
  fun h => not_mem_taken_of_mem_helpers h (hs A hA)

include hg hs

/-- Every production is one of the grammar with helpers in it, or that of a helper. -/
theorem folds_isolate : Folds (meaningIn ((g.isolate s).helpers.map helperRule))
    (g.isolate s).grammar.rules g.rules := by
  intro A w h
  rcases mem_rules_isolate h with ⟨v, hr, rfl⟩ | ⟨t, ht, rfl⟩
  · have hA := not_mem_helpers hs (hg.keys_mem A (fst_mem_keys hr))
    have hv : ∀ B, .nonTerminal B ∈ v → B ∉ (g.isolate s).helpers.map Prod.snd :=
      fun B hB => not_mem_helpers hs (hg.declares _ hr _ hB)
    rw [Word.expand_isolate nodup_snd_helpers hv]
    exact .inl ⟨meaningIn_helperRule_eq_none hA, hr⟩
  · exact .inr (meaningIn_helperRule nodup_snd_helpers ht)

theorem yields_isolate {w : Word} {u : Sentence} (h : Yields g.rules w u) :
    Yields (g.isolate s).grammar.rules w u := by
  refine h.simulate fun A v u hr hv => ?_
  have hA := not_mem_helpers hs (hg.keys_mem A (fst_mem_keys hr))
  exact .of_mem (isolate_mem_rules hA hr) (hv.isolate fun _ hh => helperRule_mem_rules hh)

/-- What is derived without empty productions still is. -/
theorem yields_solid_isolate {w : Word} {u : Sentence} (h : Yields (solid g.rules) w u) :
    Yields (solid (g.isolate s).grammar.rules) w u := by
  refine h.simulate fun A v u hr hv => ?_
  obtain ⟨hr, hne⟩ := mem_solid.mp hr
  have hA := not_mem_helpers hs (hg.keys_mem A (fst_mem_keys hr))
  have hne' : v.isolate (g.isolate s).helpers ≠ [] := fun h => hne (Word.isolate_eq_nil_iff.mp h)
  refine .of_mem (mem_solid.mpr ⟨isolate_mem_rules hA hr, hne'⟩) (hv.isolate fun h hh => ?_)
  exact mem_solid.mpr ⟨helperRule_mem_rules hh, List.cons_ne_nil _ _⟩

/-- The old non-terminals derive what they derived. -/
theorem derives_isolate_iff {A : NonTerminal} (hA : A ∈ g.nonTerminals) {u : Sentence} :
    (g.isolate s).grammar.Derives A u ↔ g.Derives A u := by
  have hnone := meaningIn_helperRule_eq_none (not_mem_helpers hs hA)
  exact ⟨(folds_isolate hg hs).yields_singleton hnone, yields_isolate hg hs⟩

end Language

end Grammar

end ChomskyForm
