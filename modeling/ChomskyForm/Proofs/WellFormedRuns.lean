import ChomskyForm.Pass
import ChomskyForm.Sample
import ChomskyForm.Proofs.BuiltGrammars
import ChomskyForm.Proofs.ChainLinks
import ChomskyForm.Proofs.EpsilonRemoval
import ChomskyForm.Proofs.TerminalIsolation
import ChomskyForm.Proofs.UnitRemoval

/-!
# Every grammar along a run is well formed

Each pass gives its grammar other productions and leaves the rest alone
(`Progress.exists_grammar_apply`), so that the start symbol, the terminals and the stem
stay and the non-terminals only grow at the end (`Grammar.Extends`).

That the result is well formed depends on the supply : a fresh name must be neither a
non-terminal nor a terminal. `Progress.Safe` couples the two : the grammar is well formed
and all its names are taken. Every pass keeps this (`Progress.Safe.apply`), and it holds
of a grammar that was built, with its own supply (`Progress.safe_start`).
-/

namespace ChomskyForm

namespace Grammar

variable {g h k : Grammar} {p : Productions}

/-! ## What no pass changes -/

/-- The same start symbol, terminals and stem, and perhaps more non-terminals at the end. -/
structure Extends (h g : Grammar) : Prop where
  start : h.start = g.start
  terminals : h.terminals = g.terminals
  stem : h.stem = g.stem
  nonTerminals : g.nonTerminals.toList <+: h.nonTerminals.toList

theorem Extends.refl (g : Grammar) : g.Extends g :=
  ⟨rfl, rfl, rfl, List.prefix_refl _⟩

theorem Extends.trans (hkh : k.Extends h) (hhg : h.Extends g) : k.Extends g :=
  ⟨hkh.start.trans hhg.start, hkh.terminals.trans hhg.terminals, hkh.stem.trans hhg.stem,
    hhg.nonTerminals.trans hkh.nonTerminals⟩

theorem extends_withProductions (g : Grammar) (p : Productions) :
    (g.withProductions p).Extends g := by
  obtain ⟨new, hnew, -⟩ := OrderedSet.exists_toList_insertAll p.keys g.nonTerminals
  exact ⟨rfl, rfl, rfl, ⟨new, hnew.symm⟩⟩

/-! ## Well-formed productions -/

theorem Declares.withProductions {a : Symbol} (ha : g.Declares a) (p : Productions) :
    (g.withProductions p).Declares a := by
  cases a with
  | terminal t => exact ha
  | nonTerminal A => exact mem_nonTerminals_withProductions.mpr (.inl ha)

/-- Other productions make a well-formed grammar if every left-hand side has one and is no
terminal, and their symbols are declared. -/
theorem WellFormed.withProductions (hg : g.WellFormed)
    (hkeys : ∀ A ∈ p.keys, A ∉ g.terminals ∧ ∃ w, (A, w) ∈ p.rules)
    (hdecl : ∀ r ∈ p.rules, ∀ a ∈ r.2, (g.withProductions p).Declares a) :
    (g.withProductions p).WellFormed where
  start_mem := mem_nonTerminals_withProductions.mpr (.inl hg.start_mem)
  disjoint A hA := by
    rcases mem_nonTerminals_withProductions.mp hA with hA | hA
    · exact hg.disjoint A hA
    · exact (hkeys A hA).1
  keys_mem A hA := mem_nonTerminals_withProductions.mpr (.inr hA)
  declares := hdecl
  nonempty e he := by
    obtain ⟨-, w, hw⟩ := hkeys e.1 (List.mem_map_of_mem he)
    obtain ⟨ws, he', hmem⟩ := Productions.mem_rules.mp hw
    rw [OrderedMap.eq_of_mem_entries he he']
    exact List.ne_nil_of_mem hmem

theorem WellFormed.exists_mem_rules (hg : g.WellFormed) {A : NonTerminal}
    (hA : A ∈ g.productions.keys) : ∃ w, (A, w) ∈ g.rules := by
  obtain ⟨ws, he⟩ := OrderedMap.mem_keys.mp hA
  obtain ⟨w, hw⟩ := List.exists_mem_of_ne_nil _ (hg.nonempty _ he)
  exact ⟨w, Productions.mem_rules.mpr ⟨ws, he, hw⟩⟩

theorem exists_mem_rules_filterMap {f : NonTerminal → OrderedSet Word → OrderedSet Word}
    {A : NonTerminal} (hA : A ∈ (p.filterMap fun A ws => (f A ws).nonempty?).keys) :
    ∃ w, (A, w) ∈ Productions.rules (p.filterMap fun A ws => (f A ws).nonempty?) := by
  obtain ⟨vs, he, w, hw⟩ := OrderedMap.exists_mem_of_mem_keys_filterMap hA
  exact ⟨w, Productions.mem_rules.mpr ⟨vs, he, hw⟩⟩

/-- A pass that only recomputes alternatives, and takes no symbol from elsewhere, keeps a
grammar well formed. -/
theorem WellFormed.withProductions_filterMap (hg : g.WellFormed)
    {f : NonTerminal → OrderedSet Word → OrderedSet Word}
    (hf : ∀ A w, (A, w) ∈ Productions.rules (g.productions.filterMap fun A ws =>
      (f A ws).nonempty?) → A ∈ g.productions.keys ∧ ∀ a ∈ w, ∃ r ∈ g.rules, a ∈ r.2) :
    (g.withProductions (g.productions.filterMap fun A ws => (f A ws).nonempty?)).WellFormed := by
  refine hg.withProductions (fun A hA => ?_) fun r hr a ha => ?_
  · obtain ⟨w, hw⟩ := exists_mem_rules_filterMap hA
    exact ⟨hg.disjoint A (hg.keys_mem A (hf A w hw).1), w, hw⟩
  · obtain ⟨q, hq, haq⟩ := (hf r.1 r.2 hr).2 a ha
    exact (hg.declares q hq a haq).withProductions _

theorem WellFormed.removeErasing (hg : g.WellFormed) (e : EmptySentence) :
    (g.removeErasing e).WellFormed := by
  refine hg.withProductions_filterMap fun A w hw => ?_
  refine ⟨?_, fun a ha => mem_of_mem_rules_removeErasing hw ha⟩
  rcases mem_rules_removeErasing.mp hw with ⟨-, v, hr, -⟩ | ⟨-, -, -, hA⟩
  · exact fst_mem_keys hr
  · obtain ⟨v, hr, -⟩ := derives_iff.mp hA
    exact fst_mem_keys hr

theorem WellFormed.removeUnits (hg : g.WellFormed) : g.removeUnits.WellFormed := by
  refine hg.withProductions_filterMap fun A w hw => ?_
  refine ⟨?_, fun a ha => mem_of_mem_rules_removeUnits hw ha⟩
  obtain ⟨-, B, hB, hr, -⟩ := mem_rules_removeUnits.mp hw
  rcases Relation.ReflTransGen.cases_head hB with rfl | ⟨C, hlead, -⟩
  · exact fst_mem_keys hr
  · exact UnitLeads.mem_keys hlead

variable {s : NameSupply}

theorem WellFormed.isolate (hg : g.WellFormed) (hn : s.Avoids g.nonTerminals)
    (ht : s.Avoids g.terminals) : (g.isolate s).grammar.WellFormed := by
  refine hg.withProductions (fun A hA => ?_) fun r hr a ha => ?_
  · rcases mem_keys_isolate.mp hA with hA | hX
    · have hA' := hg.keys_mem A hA
      obtain ⟨w, hw⟩ := hg.exists_mem_rules hA
      exact ⟨hg.disjoint A hA', _, isolate_mem_rules (not_mem_helpers hn hA') hw⟩
    · obtain ⟨h, hh, rfl⟩ := List.mem_map.mp hX
      exact ⟨fun hlet => not_mem_taken_of_mem_helpers hX (ht _ hlet), _, helperRule_mem_rules hh⟩
  · rcases mem_of_mem_rules_isolate hr ha with ⟨q, hq, haq⟩ | ⟨X, hX, rfl⟩
    · exact (hg.declares q hq a haq).withProductions _
    · exact mem_nonTerminals_withProductions.mpr (.inr (mem_keys_isolate.mpr (.inr hX)))

theorem WellFormed.binarize (hg : g.WellFormed) (hn : s.Avoids g.nonTerminals)
    (ht : s.Avoids g.terminals) : (g.binarize s).grammar.WellFormed := by
  refine hg.withProductions (fun A hA => ?_) fun r hr a ha => ?_
  · rcases mem_keys_binarize.mp hA with hA | hX
    · have hA' := hg.keys_mem A hA
      obtain ⟨w, hw⟩ := hg.exists_mem_rules hA
      obtain ⟨Xs, hd⟩ := exists_mem_dealt hw s
      exact ⟨hg.disjoint A hA', _, chainHead_mem_rules (not_mem_links hn hA') hd⟩
    · obtain ⟨l, hl, rfl⟩ := List.mem_map.mp hX
      exact ⟨fun hlet => not_mem_taken_of_mem_links hX (ht _ hlet), _, link_mem_rules hl⟩
  · rcases mem_of_mem_rules_binarize hr ha with ⟨q, hq, haq, -⟩ | ⟨X, hX, rfl⟩
    · exact (hg.declares q hq a haq).withProductions _
    · exact mem_nonTerminals_withProductions.mpr (.inr (mem_keys_binarize.mpr (.inr hX)))

/-- A well-formed grammar, with what the types of names, sets and maps say of it : no name
is empty and nothing is listed twice. -/
structure Tidy (g : Grammar) : Prop extends g.WellFormed where
  nonTerminals_ne : ∀ A ∈ g.nonTerminals, A.text ≠ ""
  terminals_ne : ∀ t ∈ g.terminals, t.text ≠ ""
  keys_nodup : g.productions.keys.Nodup
  alternatives_nodup : ∀ e ∈ g.productions.entries, e.2.toList.Nodup

theorem WellFormed.tidy (hg : g.WellFormed) : g.Tidy where
  toWellFormed := hg
  nonTerminals_ne A _ := A.text_ne
  terminals_ne t _ := t.text_ne
  keys_nodup := g.productions.nodup
  alternatives_nodup e _ := e.2.nodup

end Grammar

/-! ## Runs -/

namespace Progress

variable {s : Progress}

/-- A pass gives the grammar other productions. -/
theorem exists_grammar_apply (s : Progress) (p : Pass) :
    ∃ q, (s.apply p).grammar = s.grammar.withProductions q := by
  cases p <;> exact ⟨_, rfl⟩

theorem extends_apply (s : Progress) (p : Pass) : (s.apply p).grammar.Extends s.grammar := by
  obtain ⟨q, hq⟩ := s.exists_grammar_apply p
  rw [hq]
  exact Grammar.extends_withProductions _ q

theorem extends_run : ∀ (passes : List Pass) (s : Progress),
    (s.run passes).grammar.Extends s.grammar
  | [], s => .refl s.grammar
  | p :: passes, s => (extends_run passes (s.apply p)).trans (s.extends_apply p)

/-- What was taken stays taken. -/
theorem taken_subset_apply (s : Progress) (p : Pass) :
    s.supply.taken ⊆ (s.apply p).supply.taken := by
  cases p with
  | removeErasing e => exact List.Subset.refl _
  | removeUnits => exact List.Subset.refl _
  | isolate =>
    show _ ⊆ (s.grammar.isolate s.supply).supply.taken
    rw [Grammar.taken_isolate]
    exact List.subset_append_left _ _
  | binarize =>
    show _ ⊆ (s.grammar.binarize s.supply).supply.taken
    rw [Grammar.taken_binarize]
    exact List.subset_append_left _ _

/-- A well-formed grammar with a supply that issues none of its names. -/
structure Safe (s : Progress) : Prop where
  wellFormed : s.grammar.WellFormed
  nonTerminals : s.supply.Avoids s.grammar.nonTerminals
  terminals : s.supply.Avoids s.grammar.terminals

/-- Left-hand sides that are new were issued. -/
theorem Safe.taken_of_mem_keys (h : s.Safe) {p : Pass} {A : NonTerminal}
    (hA : A ∈ (s.apply p).grammar.productions.keys) : A.text ∈ (s.apply p).supply.taken := by
  have hold : A ∈ s.grammar.productions.keys → A.text ∈ (s.apply p).supply.taken := fun hA =>
    s.taken_subset_apply p (h.nonTerminals A (h.wellFormed.keys_mem A hA))
  cases p with
  | removeErasing e => exact hold (OrderedMap.mem_keys_of_mem_filterMap hA)
  | removeUnits => exact hold (OrderedMap.mem_keys_of_mem_filterMap hA)
  | isolate =>
    rcases Grammar.mem_keys_isolate.mp hA with hA | hX
    · exact hold hA
    · show _ ∈ (s.grammar.isolate s.supply).supply.taken
      rw [Grammar.taken_isolate]
      exact List.mem_append_right _ (List.mem_map_of_mem hX)
  | binarize =>
    rcases Grammar.mem_keys_binarize.mp hA with hA | hX
    · exact hold hA
    · show _ ∈ (s.grammar.binarize s.supply).supply.taken
      rw [Grammar.taken_binarize]
      exact List.mem_append_right _ (List.mem_map_of_mem hX)

/-- Every pass keeps the names of the grammar taken, and the grammar well formed. -/
theorem Safe.apply (h : s.Safe) (p : Pass) : (s.apply p).Safe where
  wellFormed := by
    cases p with
    | removeErasing e => exact h.wellFormed.removeErasing e
    | removeUnits => exact h.wellFormed.removeUnits
    | isolate => exact h.wellFormed.isolate h.nonTerminals h.terminals
    | binarize => exact h.wellFormed.binarize h.nonTerminals h.terminals
  nonTerminals A hA := by
    obtain ⟨q, hq⟩ := s.exists_grammar_apply p
    rw [hq] at hA
    rcases Grammar.mem_nonTerminals_withProductions.mp hA with hA | hA
    · exact s.taken_subset_apply p (h.nonTerminals A hA)
    · refine h.taken_of_mem_keys ?_
      rw [hq]
      exact hA
  terminals t ht := by
    rw [(s.extends_apply p).terminals] at ht
    exact s.taken_subset_apply p (h.terminals t ht)

theorem Safe.run : ∀ (passes : List Pass) {s : Progress}, s.Safe → (s.run passes).Safe
  | [], _, h => h
  | p :: passes, _, h => Safe.run passes (h.apply p)

theorem avoids_supply (g : Grammar) :
    g.supply.Avoids g.nonTerminals ∧ g.supply.Avoids g.terminals :=
  ⟨fun _ hA => List.mem_map_of_mem (List.mem_append_left _ hA),
    fun _ ht => List.mem_map_of_mem (List.mem_append_right _ ht)⟩

theorem safe_start {g : Grammar} (hg : g.WellFormed) : (start g).Safe :=
  ⟨hg, (avoids_supply g).1, (avoids_supply g).2⟩

theorem run_append (s : Progress) (earlier later : List Pass) :
    s.run (earlier ++ later) = (s.run earlier).run later :=
  List.foldl_append

/-- A grammar that was built is well formed, and so is every grammar along a run of passes
with its own supply. A run changes neither start symbol nor terminals nor stem, and it adds
non-terminals only at the end, each of them taken by then. -/
theorem wellFormed_along_run {d : Draft String} {g : Grammar} (h : d.build = .ok g) :
    g.Tidy ∧ ∀ earlier later : List Pass,
      let s := (start g).run earlier
      let t := (start g).run (earlier ++ later)
      t.grammar.Tidy ∧
        t.grammar.start = g.start ∧ t.grammar.terminals = g.terminals ∧
        t.grammar.stem = g.stem ∧
        g.nonTerminals.toList <+: s.grammar.nonTerminals.toList ∧
        s.grammar.nonTerminals.toList <+: t.grammar.nonTerminals.toList ∧
        ∀ A ∈ t.grammar.nonTerminals, A.text ∈ t.supply.taken := by
  have hg := Draft.wellFormed_of_build h
  refine ⟨hg.tidy, fun earlier later => ?_⟩
  have hsafe := Safe.run (earlier ++ later) (safe_start hg)
  have hext := extends_run (earlier ++ later) (start g)
  have hlater := extends_run later ((start g).run earlier)
  rw [← run_append] at hlater
  exact ⟨hsafe.wellFormed.tidy, hext.start, hext.terminals, hext.stem,
    (extends_run earlier (start g)).nonTerminals, hlater.nonTerminals, hsafe.nonTerminals⟩

/-- The grammar of parentheses, split before its empty production is removed. -/
theorem wellFormed_along_run_parentheses : ∃ g, Sample.parentheses.grammar = .ok g ∧ g.Tidy ∧
    let t := (start g).run ([.binarize] ++ [.removeErasing .retain, .isolate])
    t.grammar.Tidy ∧ (t.grammar.nonTerminals.toList.map Name.text = ["S", "X0", "X1", "X2", "X3"]) ∧
      ∀ A ∈ t.grammar.nonTerminals, A.text ∈ t.supply.taken := by
  refine ⟨_, rfl, ?_⟩
  obtain ⟨hg, hrun⟩ :=
    wellFormed_along_run (d := Draft.ofDeclarations "S" Sample.parentheses.declarations) rfl
  obtain ⟨ht, -, -, -, -, -, htaken⟩ := hrun [.binarize] [.removeErasing .retain, .isolate]
  exact ⟨hg, ht, rfl, htaken⟩

end Progress

end ChomskyForm
