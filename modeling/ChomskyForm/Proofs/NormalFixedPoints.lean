import ChomskyForm.Proofs.TypedRules
import ChomskyForm.Proofs.UnorderedPasses

/-!
# Grammars in Chomsky normal form are left alone

Each pass has a condition under which there is nothing for it to do, and then it returns the
grammar as it is, with every left-hand side and every alternative in its place : no empty
production (`Grammar.removeErasing_eq_self`), no unit production
(`Grammar.removeUnits_eq_self`), no crowded terminal (`Grammar.isolate_eq_self`), no word
longer than two (`Grammar.binarize_eq_self`). A grammar in Chomsky normal form satisfies all
but the first. So a conversion keeps what the first pass leaves, if that is in Chomsky
normal form (`Grammar.normalize_of_isNormal_removeErasing`).

With an empty production the first pass may find more to shorten. It does not if the start
symbol is on no right-hand side : nothing but the start symbol is nullable then
(`Grammar.eq_start_of_mem_nullable`).
-/

namespace ChomskyForm

/-! ## Nothing to replace -/

namespace Word

theorem variants_eq_singleton {E : List NonTerminal} : ∀ {w : Word},
    (∀ A, .nonTerminal A ∈ w → A ∉ E) → variants E w = [w]
  | [], _ => rfl
  | .terminal t :: w, h => by
    rw [variants, variants_eq_singleton fun A hA => h A (List.mem_cons_of_mem _ hA),
      List.map_singleton]
  | .nonTerminal A :: w, h => by
    rw [variants, variants_eq_singleton fun B hB => h B (List.mem_cons_of_mem _ hB),
      if_neg (h A List.mem_cons_self), List.append_nil, List.map_singleton]

theorem isolate_nil (w : Word) : w.isolate [] = w := by
  have hsymbol : ∀ a : Symbol, a.isolate [] = a := fun a => by cases a <;> rfl
  unfold isolate
  split
  · rfl
  · exact (List.map_congr_left fun a _ => hsymbol a).trans (List.map_id w)

theorem chainHead_nil : ∀ w : Word, w.chainHead [] = w
  | [] | [_] | [_, _] | _ :: _ :: _ :: _ => rfl

theorem chainLinks_nil : ∀ w : Word, w.chainLinks [] = []
  | [] | [_] | [_, _] | _ :: _ :: _ :: _ => rfl

theorem chainHeads_nil : ∀ ws : List Word, chainHeads ws [] = ws
  | [] => rfl
  | w :: ws => by rw [chainHeads, chainHead_nil, List.drop_nil, chainHeads_nil ws]

theorem allLinks_nil : ∀ ws : List Word, allLinks ws [] = []
  | [] => rfl
  | w :: ws => by rw [allLinks, chainLinks_nil, List.drop_nil, allLinks_nil ws, List.nil_append]

theorem totalLinks_eq_zero : ∀ {ws : List Word}, (∀ w ∈ ws, w.length ≤ 2) → totalLinks ws = 0
  | [], _ => rfl
  | w :: ws, h => by
    have hw := h w List.mem_cons_self
    have hrest := totalLinks_eq_zero fun v hv => h v (List.mem_cons_of_mem w hv)
    simp only [totalLinks, linkCount, hrest]
    omega

end Word

namespace Productions

theorem shortenEntries_nil : ∀ l : List (NonTerminal × OrderedSet Word), shortenEntries l [] = l
  | [] => rfl
  | (A, ws) :: l => by
    rw [shortenEntries, Word.chainHeads_nil, ws.ofList_toList, List.drop_nil, shortenEntries_nil l]

end Productions

namespace Grammar

variable {g : Grammar} {e : EmptySentence} {A : NonTerminal}

theorem Trim.withProductions_eq_self (hg : g.Trim) : g.withProductions g.productions = g :=
  Grammar.ext rfl (nonTerminals_withProductions_of_subset hg.keys_mem) rfl rfl rfl

/-- A pass that recomputes all alternatives to what they were changes nothing. -/
theorem Trim.withProductions_filterMap_eq_self (hg : g.Trim)
    {f : NonTerminal → OrderedSet Word → OrderedSet Word}
    (hf : ∀ e ∈ g.productions.entries, f e.1 e.2 = e.2) :
    g.withProductions (g.productions.filterMap fun A ws => (f A ws).nonempty?) = g := by
  have hself : (g.productions.filterMap fun A ws => (f A ws).nonempty?) = g.productions := by
    refine OrderedMap.filterMap_eq_self fun e he => ?_
    obtain ⟨w, hw⟩ := hg.exists_mem_rules e.1 (List.mem_map_of_mem he)
    obtain ⟨ws, hws, hmem⟩ := Productions.mem_rules.mp hw
    rw [OrderedMap.eq_of_mem_entries hws he] at hmem
    rw [OrderedSet.nonempty?_eq_some_iff]
    exact ⟨hf e he, List.ne_nil_of_mem hmem⟩
  rw [hself, hg.withProductions_eq_self]

/-! ## The passes -/

theorem nullable_eq_nil (h : g.erasing = []) : g.nullable = [] := by
  refine List.eq_nil_iff_forall_not_mem.mpr fun A hA => ?_
  obtain ⟨B, hB⟩ := (mem_nullable.mp hA).exists_empty (List.cons_ne_nil _ _) rfl
  have hmem := mem_erasing.mpr hB
  rw [h] at hmem
  exact List.not_mem_nil hmem

theorem removeErasing_eq_self (hg : g.Trim) (h : g.erasing = []) (e : EmptySentence) :
    g.removeErasing e = g := by
  refine hg.withProductions_filterMap_eq_self fun d hd => ?_
  have hkeep : ¬ g.keepsEmpty e g.nullable d.1 = true := by
    simp [keepsEmpty, nullable_eq_nil h]
  -- no alternative is empty, and each is its only variant
  have hvariants : ∀ w : Word, w.variants [] = [w] := fun w =>
    Word.variants_eq_singleton fun _ _ => List.not_mem_nil
  have hne : ∀ w ∈ d.2.toList, w ≠ [] := by
    rintro w hw rfl
    have hmem : d.1 ∈ g.erasing := mem_erasing.mpr (Productions.mem_rules.mpr ⟨d.2, hd, hw⟩)
    simp [h] at hmem
  rw [if_neg hkeep, shortenings, nullable_eq_nil h, List.flatMap_congr fun w _ => hvariants w,
    List.flatMap_singleton', List.filter_eq_self.mpr (by simpa using hne), d.2.ofList_toList]

/-- Without unit productions a closure has nothing but its root. -/
theorem UnitFree.toList_unitClosure (h : g.UnitFree) (A : NonTerminal) :
    (g.unitClosure A).toList = [A] := by
  refine List.perm_singleton.mp ((List.perm_ext_iff_of_nodup (g.unitClosure A).nodup
    (List.nodup_singleton A)).mpr fun B => ?_)
  rw [OrderedSet.mem_toList, mem_unitClosure, List.mem_singleton]
  refine ⟨fun hB => ?_, fun hB => hB ▸ .refl⟩
  rcases Relation.ReflTransGen.cases_head hB with rfl | ⟨C, hlead, -⟩
  · rfl
  · exact absurd (h A _ hlead) (by simp [Word.unit?])

theorem removeUnits_eq_self (hg : g.Trim) (h : g.UnitFree) : g.removeUnits = g := by
  refine hg.withProductions_filterMap_eq_self (f := fun A _ => _) fun d hd => ?_
  have halternatives : g.alternatives d.1 = d.2 := by
    rw [alternatives, OrderedMap.find?_eq_some_iff.mpr hd, Option.getD_some]
  have hunit : ∀ w ∈ d.2.toList, w.unit? = none := fun w hw =>
    h d.1 w (Productions.mem_rules.mpr ⟨d.2, hd, hw⟩)
  rw [h.toList_unitClosure, List.flatMap_singleton, takenOver, halternatives,
    List.filter_eq_self.mpr fun w hw => by simp [hunit w hw], d.2.ofList_toList]

theorem isolate_eq_self (hg : g.Trim) (h : g.Uncrowded) (s : NameSupply) :
    g.isolate s = ⟨[], g, s⟩ := by
  have hnone : g.crowdedTerminals.toList = [] :=
    List.eq_nil_iff_forall_not_mem.mpr fun t ht => by
      obtain ⟨r, hr, hlen, hmem⟩ := mem_crowdedTerminals.mp ht
      simpa [Symbol.isTerminal] using h r.1 r.2 hr hlen _ hmem
  have hsame : g.productions.mapValues (OrderedSet.map (Word.isolate [])) = g.productions := by
    simp [OrderedMap.mapValues, OrderedSet.map_eq_self Word.isolate_nil]
  have hgrammar : g.withProductions ((g.productions.mapValues (OrderedSet.map
      (Word.isolate []))).insertAll []) = g := by
    rw [hsame]
    exact hg.withProductions_eq_self
  rw [isolate, hnone]
  exact congrArg (Isolation.mk [] · s) hgrammar

theorem binarize_eq_self (hg : g.Trim) (h : ∀ r ∈ g.rules, r.2.length ≤ 2) (s : NameSupply) :
    g.binarize s = ⟨[], g, s⟩ := by
  have hnone : Word.totalLinks (g.rules.map Prod.snd) = 0 :=
    Word.totalLinks_eq_zero (List.forall_mem_map.mpr h)
  have hsame : g.productions.shorten [] = g.productions :=
    OrderedMap.ext (Productions.shortenEntries_nil _)
  have hgrammar : g.withProductions ((g.productions.shorten []).insertAll []) = g := by
    rw [hsame]
    exact hg.withProductions_eq_self
  rw [binarize, hnone]
  show Binarization.mk (Word.allLinks _ []) (g.withProductions ((g.productions.shorten []).insertAll
    ((Word.allLinks _ []).map linkEntry))) s = _
  rw [Word.allLinks_nil]
  exact congrArg (Binarization.mk [] · s) hgrammar

/-! ## Chomsky normal form -/

theorem erasing_eq_nil (h : g.isNormal = true) (hnone : (g.start, []) ∉ g.rules) :
    g.erasing = [] := by
  refine List.eq_nil_iff_forall_not_mem.mpr fun A hA => ?_
  have hr := mem_erasing.mp hA
  rw [(isNormal_iff_conditions.mp h).1 A hr] at hr
  exact hnone hr

/-- A conversion keeps what the first pass leaves, if that is in Chomsky normal form. -/
theorem normalize_of_isNormal_removeErasing (h : (g.removeErasing e).isNormal = true) :
    ∃ n, g.normalize e = .ok n ∧
      n.stages.map Prod.snd = g :: List.replicate 4 (g.removeErasing e) ∧
      n.introduced = [] ∧ n.result = NormalForm.typed (g.removeErasing e) := by
  have ht := g.trim_removeErasing e
  obtain ⟨-, hunitFree, huncrowded, hshort⟩ := isNormal_iff_conditions.mp h
  have hunits := removeUnits_eq_self ht hunitFree
  have hisolated : g.isolated e = ⟨[], g.removeErasing e, g.supply⟩ := by
    rw [isolated, hunits, isolate_eq_self ht huncrowded]
  have hbinarized : g.binarized e = ⟨[], g.removeErasing e, g.supply⟩ := by
    rw [binarized, hisolated]
    exact binarize_eq_self ht hshort g.supply
  refine ⟨g.normalization e, g.normalize_eq e, ?_, ?_, ?_⟩
  · rw [stages_normalization, hunits, hisolated, hbinarized]
    rfl
  · rw [Normalization.introduced, binarization_normalization, hbinarized]
    rfl
  · rw [result_normalization, hbinarized]

/-! ## The empty production of the start symbol -/

/-- If the start symbol alone has an empty production and is on no right-hand side, then no
other non-terminal derives the empty sentence. -/
theorem eq_start_of_mem_nullable (hnil : g.NilAtStart)
    (hstart : ∀ r ∈ g.rules, .nonTerminal g.start ∉ r.2) (hA : A ∈ g.nullable) : A = g.start := by
  by_contra hne
  have hsolid : Yields (solid g.rules) [.nonTerminal A] [] :=
    hnil.yields_solid hstart (mem_nullable.mp hA) (by simpa using Ne.symm hne)
  exact hsolid.ne_nil_of_solid (List.cons_ne_nil _ _) rfl

/-- The empty production goes to the end of the alternatives, and nothing else changes. -/
theorem alike_removeErasing (hg : g.Trim) (hnil : g.NilAtStart)
    (hstart : ∀ r ∈ g.rules, .nonTerminal g.start ∉ r.2) (hmem : (g.start, []) ∈ g.rules) :
    (g.removeErasing .retain).Alike g := by
  have hvariants : ∀ A v, (A, v) ∈ g.rules → v.variants g.nullable = [v] := fun A v hr =>
    Word.variants_eq_singleton fun B hB hnullable =>
      hstart _ hr (eq_start_of_mem_nullable hnil hstart hnullable ▸ hB)
  have hempty : g.Derives g.start [] := .of_mem hmem .nil
  refine .of_rules (g.trim_removeErasing .retain) hg rfl ?_ (fun _ => Iff.rfl) rfl fun A w => ?_
  · have hkeys : ∀ A ∈ (g.removeErasing .retain).productions.keys, A ∈ g.nonTerminals :=
      fun A hA => hg.keys_mem A (OrderedMap.mem_keys_of_mem_filterMap hA)
    exact fun A => mem_nonTerminals_withProductions.trans (or_iff_left_of_imp (hkeys A))
  · rw [mem_rules_removeErasing]
    constructor
    · rintro (⟨-, v, hv, hw⟩ | ⟨rfl, rfl, -, -⟩)
      · rw [hvariants A v hv, List.mem_singleton] at hw
        exact hw ▸ hv
      · exact hmem
    · intro hr
      by_cases hw : w = []
      · subst hw
        obtain rfl := hnil A hr
        exact .inr ⟨rfl, rfl, rfl, hempty⟩
      · exact .inl ⟨hw, w, hr, by simp [hvariants A w hr]⟩

end Grammar

/-! ## Typing -/

/-- Without the empty production typing keeps the productions in order. -/
theorem NormalForm.rules_typed {k : Grammar} (hk : k.isNormal = true) (h : k.erasing = []) :
    (typed k).rules = k.rules := by
  have hnone : (k.start, []) ∉ k.rules := fun hr => by
    simpa [h] using Grammar.mem_erasing.mpr hr
  have hnone' : (k.start, []) ∉ (typed k).rules := mt (perm_rules_typed hk).mem_iff.mp hnone
  rw [← List.erase_of_not_mem hnone', erase_rules_typed hk, List.erase_of_not_mem hnone]

namespace Grammar

variable {g : Grammar}

/-- Without the empty production nothing changes, not even an order. -/
theorem exists_normalize_of_erasing_eq_nil (hg : g.Trim) (hnormal : g.isNormal = true)
    (h : g.erasing = []) (e : EmptySentence) : ∃ n, g.normalize e = .ok n ∧
      n.stages.map Prod.snd = List.replicate 5 g ∧ n.introduced = [] ∧
      n.result = NormalForm.typed g ∧ n.result.rules = g.rules := by
  have hself := removeErasing_eq_self hg h e
  obtain ⟨n, hn, hstages, hintroduced, hresult⟩ :=
    normalize_of_isNormal_removeErasing (g := g) (e := e) (hself.symm ▸ hnormal)
  rw [hself] at hstages hresult
  refine ⟨n, hn, hstages, hintroduced, hresult, ?_⟩
  rw [hresult, NormalForm.rules_typed hnormal h]

/-- A grammar in Chomsky normal form, built or reached by passes, is a fixed point of
conversion. If the start symbol has an empty production but is on no right-hand side, this
holds but for the order of its alternatives, as long as the empty sentence is retained. The
last stage of a conversion is such a grammar, so that to convert it again changes nothing if
it has no empty production. -/
theorem normalize_normal (hg : g.Reachable) :
    (g.isNormal = true → g.erasing = [] → ∀ e, ∃ n, g.normalize e = .ok n ∧
      n.stages.map Prod.snd = List.replicate 5 g ∧ n.introduced = [] ∧
      n.result.rules = g.rules) ∧
    (g.isNormal = true → (g.start, []) ∈ g.rules →
      (∀ r ∈ g.rules, .nonTerminal g.start ∉ r.2) → ∃ n, g.normalize .retain = .ok n ∧
        (∀ stage ∈ n.stages, stage.2.Alike g) ∧ n.introduced = [] ∧
        n.result.rules.Perm g.rules) ∧
    ∀ e n, g.normalize e = .ok n → n.result.erasable = false → ∀ e',
      ∃ n', n.binarization.grammar.normalize e' = .ok n' ∧
        n'.stages.map Prod.snd = List.replicate 5 n.binarization.grammar ∧
        n'.introduced = [] ∧ n'.result = n.result ∧
        n'.result.rules = n.binarization.grammar.rules := by
  refine ⟨fun hnormal h e => ?_, fun hnormal hmem hstart => ?_, fun e n hn herasable e' => ?_⟩
  · obtain ⟨n, hn, hstages, hintroduced, -, hrules⟩ :=
      exists_normalize_of_erasing_eq_nil hg.trim hnormal h e
    exact ⟨n, hn, hstages, hintroduced, hrules⟩
  · obtain ⟨hnil, -⟩ := isNormal_iff_conditions.mp hnormal
    have halike := alike_removeErasing hg.trim hnil hstart hmem
    have hnormal' : (g.removeErasing .retain).isNormal = true := by
      rw [isNormal_iff] at hnormal ⊢
      exact fun A w hr => hnormal A w (halike.mem_rules_iff.mp hr)
    obtain ⟨n, hn, hstages, hintroduced, hresult⟩ :=
      normalize_of_isNormal_removeErasing hnormal'
    refine ⟨n, hn, fun stage hstage => ?_, hintroduced, ?_⟩
    · have hgrammar := List.mem_map_of_mem (f := Prod.snd) hstage
      rw [hstages, List.mem_cons] at hgrammar
      rcases hgrammar with h | h
      · rw [h]
        exact .refl g
      · rw [List.eq_of_mem_replicate h]
        exact halike
    · rw [hresult]
      exact (NormalForm.perm_rules_typed hnormal').trans halike.perm_rules
  · rw [normalize_eq, Except.ok.injEq] at hn
    subst hn
    have hnormal := g.isNormal_binarized e
    have hnone : ((g.binarized e).grammar.start, []) ∉ (g.binarized e).grammar.rules := by
      rw [← NormalForm.erasable_typed, Bool.not_eq_true]
      exact herasable
    have ht : (g.binarized e).grammar.Trim := ((trim_removeUnits _).isolate _).binarize _
    exact exists_normalize_of_erasing_eq_nil ht hnormal (erasing_eq_nil hnormal hnone) e'

/-- The empty production is given first and listed last, which makes the stages equal only
without regard to order. Once it is dropped nothing changes any more. -/
theorem normalize_normal_reorders : ∃ g, (Draft.ofDeclarations "S" [.terminals ["a", "b"],
      .erasing "S", .production "S" ["A", "B"], .production "A" ["a"],
      .production "B" ["b"]]).build = .ok g ∧ g.isNormal = true ∧ (g.start, []) ∈ g.rules ∧
    (∃ n, g.normalize .retain = .ok n ∧ (∀ stage ∈ n.stages, stage.2.Alike g) ∧
      g.removeErasing .retain ≠ g ∧ n.introduced = [] ∧ n.result.rules.Perm g.rules) ∧
    (let k := g.removeErasing .drop
      ∃ n, k.normalize .retain = .ok n ∧ n.stages.map Prod.snd = List.replicate 5 k ∧
        n.result.rules = k.rules) ∧
    ∃ n n', g.normalize .drop = .ok n ∧ n.result.erasable = false ∧
      n.binarization.grammar.normalize .retain = .ok n' ∧ n'.result = n.result := by
  obtain ⟨g, hbuild, hnormal, hmem, hstart, hfirst, hnormal', hnone⟩ : ∃ g,
      (Draft.ofDeclarations "S" [.terminals ["a", "b"], .erasing "S",
        .production "S" ["A", "B"], .production "A" ["a"],
        .production "B" ["b"]]).build = .ok g ∧ g.isNormal = true ∧
      (g.start, []) ∈ g.rules ∧ (∀ r ∈ g.rules, .nonTerminal g.start ∉ r.2) ∧
      g.removeErasing .retain ≠ g ∧ (g.removeErasing .drop).isNormal = true ∧
      (g.removeErasing .drop).erasing = [] :=
    ⟨_, rfl, by decide +kernel, by decide +kernel, by decide +kernel, by decide +kernel,
      by decide +kernel, by decide +kernel⟩
  have hg := Reachable.build hbuild
  obtain ⟨-, hretain, hagain⟩ := normalize_normal hg
  obtain ⟨n, hn, hstages, hintroduced, hperm⟩ := hretain hnormal hmem hstart
  obtain ⟨hsame, -⟩ := normalize_normal (hg.pass g.supply (.removeErasing .drop))
  obtain ⟨m, hm, hstages', -, hrules⟩ := hsame hnormal' hnone .retain
  have hdrop := g.normalize_eq .drop
  have herasable : (g.normalization .drop).result.erasable = false := by
    rw [result_normalization, ← Bool.not_eq_true, NormalForm.erasable_typed, start_binarized,
      nil_mem_binarized_iff hg.start_mem]
    simp
  obtain ⟨n', hn', -, -, hresult, -⟩ := hagain .drop _ hdrop herasable .retain
  exact ⟨g, hbuild, hnormal, hmem, ⟨n, hn, hstages, hfirst, hintroduced, hperm⟩,
    ⟨m, hm, hstages', hrules⟩, _, n', hdrop, herasable, hn', hresult⟩

end Grammar

end ChomskyForm
