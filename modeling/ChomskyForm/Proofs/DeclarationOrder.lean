import ChomskyForm.Proofs.BuildVerdicts

/-!
# The order of declarations does not matter

What a draft holds is what its declarations add, one after the other (`Draft.foldl_adds`), and
the last stem that is set (`Draft.stem_foldl`). Declarations in another order, or repeated, thus
lead to drafts that say the same (`Draft.Alike`).

Whether a rule is broken depends on what a draft says only, though not the name that is reported
(`Draft.Alike.exists_objection`), and so does the grammar, up to order
(`Draft.Alike.alike_of_describes`). `Draft.build_ofDeclarations_alike` puts this together.
-/

namespace ChomskyForm

namespace Declaration

/-! ## What a declaration adds -/

/-- The non-terminals that are declared. -/
def newNonTerminals : Declaration → List String
  | .nonTerminals names => names
  | _ => []

/-- The terminals that are declared. -/
def newTerminals : Declaration → List String
  | .terminals names => names
  | _ => []

/-- The production that is given. -/
def newProductions : Declaration → List (String × List String)
  | .production lhs rhs => [(lhs, rhs)]
  | .erasing lhs => [(lhs, [Word.emptyMark])]
  | _ => []

/-- The stem that is set. -/
def stem? : Declaration → Option String
  | .stem text => some text
  | _ => none

end Declaration

namespace Draft

/-- A list that every step adds to holds in the end what the steps have added. -/
theorem foldl_adds {σ α β : Type} (part : σ → List β) {step : σ → α → σ} {new : α → List β}
    (h : ∀ s a, part (step s a) = part s ++ new a) : ∀ (l : List α) (s : σ),
      part (l.foldl step s) = part s ++ l.flatMap new
  | [], s => (List.append_nil _).symm
  | a :: l, s => by
    rw [List.foldl_cons, foldl_adds part h l, h, List.flatMap_cons, List.append_assoc]

section Collected

variable (start : String) (l : List Declaration)

theorem nonTerminals_ofDeclarations :
    (ofDeclarations start l).nonTerminals = l.flatMap Declaration.newNonTerminals :=
  foldl_adds nonTerminals (fun d c => by
    cases c <;> simp [declare, Declaration.newNonTerminals]) l (blank start)

theorem terminals_ofDeclarations :
    (ofDeclarations start l).terminals = l.flatMap Declaration.newTerminals :=
  foldl_adds terminals (fun d c => by
    cases c <;> simp [declare, Declaration.newTerminals]) l (blank start)

theorem productions_ofDeclarations :
    (ofDeclarations start l).productions = l.flatMap Declaration.newProductions :=
  foldl_adds productions (fun d c => by
    cases c <;> simp [declare, Declaration.newProductions]) l (blank start)

end Collected

theorem start_foldl : ∀ (l : List Declaration) (d : Draft String),
    (l.foldl declare d).start = d.start
  | [], _ => rfl
  | c :: l, d => by
    rw [List.foldl_cons, start_foldl l]
    cases c <;> rfl

/-- The last stem that is set counts. -/
theorem stem_foldl : ∀ (l : List Declaration) (d : Draft String),
    (l.foldl declare d).stem = (l.filterMap Declaration.stem?).getLast?.getD d.stem
  | [], _ => rfl
  | c :: l, d => by
    rw [List.foldl_cons, stem_foldl l]
    cases c with
    | stem text =>
      rw [List.filterMap_cons, Declaration.stem?, List.getLast?_cons]
      rfl
    | nonTerminals names => rfl
    | terminals names => rfl
    | production lhs rhs => rfl
    | erasing lhs => rfl

section Mentioned

variable {d : Draft String}

theorem mentioned_of_mem_declared {a : String} (ha : a ∈ d.variableList ++ d.terminals) :
    a ∈ d.mentioned := by
  rw [List.mem_append] at ha
  exact mem_mentioned.mpr (.inr (.inr (or_assoc.mp (.inl ha))))

theorem mentioned_of_mem_uses {p : String × String} (hp : p ∈ d.uses) :
    p.1 ∈ d.mentioned ∧ p.2 ∈ d.mentioned := by
  simp only [uses, List.mem_flatMap, List.mem_eraseDups, List.mem_map, given, List.mem_filter] at hp
  obtain ⟨A, hA, a, ⟨rhs, ⟨q, ⟨hq, -⟩, rfl⟩, ha⟩, rfl⟩ := hp
  have hrhs : a ∈ q.2 := (List.mem_filter.mp ha).1
  exact ⟨mem_mentioned.mpr (.inr (.inr (.inr (.inr ⟨q, hq, hrhs⟩)))),
    mentioned_of_mem_declared (List.mem_append_left _ (List.mem_append_right _ hA))⟩

end Mentioned

/-! ## Drafts that say the same -/

/-- The same names and productions, where order and repetition do not count. -/
structure Alike (d e : Draft String) : Prop where
  start : d.start = e.start
  nonTerminals : ∀ a, a ∈ d.nonTerminals ↔ a ∈ e.nonTerminals
  terminals : ∀ a, a ∈ d.terminals ↔ a ∈ e.terminals
  productions : ∀ p, p ∈ d.productions ↔ p ∈ e.productions
  stem : d.stem = e.stem

theorem Alike.symm {d e : Draft String} (h : d.Alike e) : e.Alike d :=
  ⟨h.start.symm, fun a => (h.nonTerminals a).symm, fun a => (h.terminals a).symm,
    fun p => (h.productions p).symm, h.stem.symm⟩

/-- Declarations that are not about the stem add the same wherever they stand. -/
theorem mem_flatMap_congr {β : Type} {new : Declaration → List β} {l m : List Declaration}
    (hstem : ∀ text, new (.stem text) = []) (h : ∀ c, c.stem? = none → (c ∈ l ↔ c ∈ m)) (b : β) :
    b ∈ l.flatMap new ↔ b ∈ m.flatMap new := by
  have hnone : ∀ c, b ∈ new c → c.stem? = none := fun c hc => by
    cases c with
    | stem text =>
      rw [hstem] at hc
      exact absurd hc List.not_mem_nil
    | nonTerminals names => rfl
    | terminals names => rfl
    | production lhs rhs => rfl
    | erasing lhs => rfl
  rw [List.mem_flatMap, List.mem_flatMap]
  exact ⟨fun ⟨c, hc, hb⟩ => ⟨c, (h c (hnone c hb)).mp hc, hb⟩,
    fun ⟨c, hc, hb⟩ => ⟨c, (h c (hnone c hb)).mpr hc, hb⟩⟩

theorem alike_ofDeclarations (start : String) {l m : List Declaration}
    (h : ∀ c, c.stem? = none → (c ∈ l ↔ c ∈ m))
    (hstem : (l.filterMap Declaration.stem?).getLast? = (m.filterMap Declaration.stem?).getLast?) :
    (ofDeclarations start l).Alike (ofDeclarations start m) where
  start := (start_foldl l _).trans (start_foldl m _).symm
  nonTerminals a := by
    rw [nonTerminals_ofDeclarations, nonTerminals_ofDeclarations]
    exact mem_flatMap_congr (fun _ => rfl) h a
  terminals a := by
    rw [terminals_ofDeclarations, terminals_ofDeclarations]
    exact mem_flatMap_congr (fun _ => rfl) h a
  productions p := by
    rw [productions_ofDeclarations, productions_ofDeclarations]
    exact mem_flatMap_congr (fun _ => rfl) h p
  stem := by
    rw [ofDeclarations, ofDeclarations, stem_foldl, stem_foldl, hstem]

namespace Alike

variable {d e : Draft String} (h : d.Alike e)

include h

theorem mem_heads {a : String} : a ∈ d.heads ↔ a ∈ e.heads := by
  simp only [heads, List.mem_map, h.productions]

theorem mem_variableList {a : String} : a ∈ d.variableList ↔ a ∈ e.variableList := by
  simp only [variableList, List.mem_append, h.nonTerminals, h.mem_heads]

theorem mem_mentioned {a : String} : a ∈ d.mentioned ↔ a ∈ e.mentioned := by
  simp only [Draft.mem_mentioned, h.stem, h.start, h.mem_variableList, h.terminals, h.productions]

theorem mem_given {A : String} {rhs : List String} : rhs ∈ d.given A ↔ rhs ∈ e.given A := by
  simp only [given, List.mem_map, List.mem_filter, h.productions]

theorem mem_uses {p : String × String} : p ∈ d.uses ↔ p ∈ e.uses := by
  simp only [uses, List.mem_flatMap, List.mem_eraseDups, List.mem_map, h.mem_heads, h.mem_given]

theorem productions_eq_nil_iff : d.productions = [] ↔ e.productions = [] := by
  simp only [List.eq_nil_iff_forall_not_mem, h.productions]

/-- The same rules are broken, if all that is mentioned has a name. -/
theorem exists_objection (hne : "" ∉ e.mentioned) {n : Nat} {f : Fault} (hf : d.Objection n f) :
    ∃ f', e.Objection n f' ∧ f'.kind = f.kind := by
  -- the first text that breaks a rule may be another one in `e`, and has to be a name as well
  have hname : ∀ s ∈ e.mentioned, ∃ a : Name, a.text = s := fun s hs =>
    ⟨⟨s, fun heq => hne (heq ▸ hs)⟩, rfl⟩
  cases hf with
  | emptyName hempty => exact absurd (h.mem_mentioned.mp hempty) hne
  | alphabetOverlap hfirst =>
    obtain ⟨ha, hvar⟩ := hfirst.holds
    obtain ⟨b, hb⟩ := exists_first (p := (· ∈ e.variableList))
      ⟨_, (h.terminals _).mp ha, h.mem_variableList.mp hvar⟩
    obtain ⟨b, rfl⟩ := hname b (mentioned_of_mem_declared (List.mem_append_right _ hb.holds.1))
    exact ⟨_, .alphabetOverlap hb, rfl⟩
  | reservedName hstem hfirst =>
    obtain ⟨ha, hshape⟩ := hfirst.holds
    rw [List.mem_append, h.mem_variableList, h.terminals, ← List.mem_append] at ha
    rw [h.stem] at hstem hshape
    obtain ⟨b, hb⟩ := exists_first ⟨_, ha, hshape⟩
    obtain ⟨b, rfl⟩ := hname b (mentioned_of_mem_declared hb.holds.1)
    exact ⟨_, .reservedName hstem hb, rfl⟩
  | noProductions hstart hnil =>
    exact ⟨_, .noProductions (hstart.trans h.start) (h.productions_eq_nil_iff.mp hnil), rfl⟩
  | unknownStart hstart hvar =>
    rw [h.start] at hstart hvar
    exact ⟨_, .unknownStart hstart (mt h.mem_variableList.mpr hvar), rfl⟩
  | undefinedSymbol hfirst =>
    obtain ⟨ha, hvar, hlet⟩ := hfirst.holds
    obtain ⟨⟨b, B⟩, hb⟩ := exists_first (p := fun p => p.1 ∉ e.variableList ∧ p.1 ∉ e.terminals)
      ⟨_, h.mem_uses.mp ha, mt h.mem_variableList.mpr hvar, mt (h.terminals _).mpr hlet⟩
    obtain ⟨hb', hB⟩ := mentioned_of_mem_uses hb.holds.1
    obtain ⟨b, rfl⟩ := hname b hb'
    obtain ⟨B, rfl⟩ := hname B hB
    exact ⟨_, .undefinedSymbol hb, rfl⟩
  | barrenStart hstart hhead =>
    rw [h.start] at hstart hhead
    exact ⟨_, .barrenStart hstart (mt h.mem_heads.mpr hhead), rfl⟩

omit h in
/-- Names whose texts are the same, up to order and repetition, are the same names. -/
theorem mem_iff_of_map_text {l m : List Name} {s t : List String}
    (hl : l.map Name.text = s.eraseDups) (hm : m.map Name.text = t.eraseDups)
    (hst : ∀ a, a ∈ s ↔ a ∈ t) (a : Name) : a ∈ l ↔ a ∈ m := by
  rw [← mem_map_text, hl, List.mem_eraseDups, hst, ← List.mem_eraseDups, ← hm, mem_map_text]

/-- The same grammar is described, up to order. -/
theorem alike_of_describes {g k : Grammar} (hg : d.Describes g) (hk : e.Describes k) :
    g.Alike k where
  start := Name.ext (hg.start.trans (h.start.trans hk.start.symm))
  nonTerminals := mem_iff_of_map_text hg.nonTerminals hk.nonTerminals fun _ => h.mem_variableList
  terminals := mem_iff_of_map_text hg.terminals hk.terminals h.terminals
  keys := mem_iff_of_map_text hg.keys hk.keys fun _ => h.mem_heads
  alternatives A w := by
    have hkinded : d.kinded = e.kinded := funext fun a => by
      simp only [kinded, h.mem_variableList]
    have hmem : ∀ (s : OrderedSet Word), w ∈ s ↔
        w.map Symbol.kinded ∈ s.toList.map (List.map Symbol.kinded) := fun s =>
      (List.mem_map_of_injective fun _ _ => Word.kinded_inj).symm
    rw [hmem, hmem, hg.alternatives, hk.alternatives, hkinded, List.mem_eraseDups,
      List.mem_eraseDups, List.mem_map, List.mem_map]
    simp only [h.mem_given]
  stem := Name.ext (hg.stem.trans (h.stem.trans hk.stem.symm))

/-- Drafts that say the same are rejected for faults of one kind, or both have grammars. -/
theorem build_alike : (∃ f f', d.build = .error f ∧ e.build = .error f' ∧ f.kind = f'.kind) ∨
    ∃ g k, d.build = .ok g ∧ e.build = .ok k ∧ g.Alike k := by
  by_cases hempty : "" ∈ d.mentioned
  · have hbuild : ∀ d : Draft String, "" ∈ d.mentioned → d.build = .error .emptyName := fun d hd =>
      build_eq_error_iff.mpr ⟨0, .emptyName hd, fun m hm => absurd hm (Nat.not_lt_zero m)⟩
    exact .inl ⟨_, _, hbuild d hempty, hbuild e (h.mem_mentioned.mp hempty), rfl⟩
  · have hempty' : "" ∉ e.mentioned := mt h.mem_mentioned.mpr hempty
    cases hd : d.build with
    | error f =>
      obtain ⟨n, hn, hbefore⟩ := build_eq_error_iff.mp hd
      obtain ⟨f', hf', hkind⟩ := h.exists_objection hempty' hn
      -- an objection to `e` that comes before would be one to `d` in the same place
      refine .inl ⟨f, f', rfl, build_eq_error_iff.mpr ⟨n, hf', fun m hm g hg => ?_⟩, hkind.symm⟩
      obtain ⟨g', hg', -⟩ := h.symm.exists_objection hempty hg
      exact hbefore m hm g' hg'
    | ok g =>
      obtain ⟨hnone, hg⟩ := build_eq_ok_iff.mp hd
      cases he : e.build with
      | error f =>
        obtain ⟨n, hn, -⟩ := build_eq_error_iff.mp he
        obtain ⟨f', hf', -⟩ := h.symm.exists_objection hempty hn
        exact absurd hf' (hnone n f')
      | ok k => exact .inr ⟨g, k, rfl, rfl, h.alike_of_describes hg (describes_of_build he)⟩

end Alike

/-- The order of the declarations counts for the stem only, and a repeated declaration changes
nothing : descriptions that agree in this are rejected for faults of one kind, or have grammars
that are equal without regard to order. -/
theorem build_ofDeclarations_alike (start : String) {l m : List Declaration}
    (h : ∀ c, c.stem? = none → (c ∈ l ↔ c ∈ m))
    (hstem : (l.filterMap Declaration.stem?).getLast? = (m.filterMap Declaration.stem?).getLast?) :
    (∃ f f', (ofDeclarations start l).build = .error f ∧
      (ofDeclarations start m).build = .error f' ∧ f.kind = f'.kind) ∨
    ∃ g k, (ofDeclarations start l).build = .ok g ∧ (ofDeclarations start m).build = .ok k ∧
      g.Alike k :=
  (alike_ofDeclarations start h hstem).build_alike

/-- Everything is moved, and the empty production of `S` is given twice. -/
theorem build_ofDeclarations_alike_shuffled :
    let l := [.stem "Y", .nonTerminals ["A"], .terminals ["a", "b"],
      .production "S" ["A", "ε", "b"], .production "S" ["a"], .erasing "S",
      .production "A" ["a"], .stem "N"]
    let m := [.erasing "S", .production "A" ["a"], .production "S" ["a"], .stem "Y", .stem "N",
      .terminals ["a", "b"], .production "S" ["A", "ε", "b"], .erasing "S", .nonTerminals ["A"]]
    (∀ c, c.stem? = none → (c ∈ l ↔ c ∈ m)) ∧
      (l.filterMap Declaration.stem?).getLast? = (m.filterMap Declaration.stem?).getLast? ∧
      ∃ g k, (ofDeclarations "S" l).build = .ok g ∧ (ofDeclarations "S" m).build = .ok k ∧
        g.Alike k := by
  intro l m
  have hmem : ∀ c, c.stem? = none → (c ∈ l ↔ c ∈ m) := fun c _ => by
    simp only [l, m, List.mem_cons, List.not_mem_nil, or_false]
    tauto
  refine ⟨hmem, rfl, (build_ofDeclarations_alike "S" hmem rfl).resolve_left ?_⟩
  rintro ⟨f, -, hf, -⟩
  have hok : (ofDeclarations "S" l).build.isOk = true := by decide +kernel
  rw [hf] at hok
  cases hok

end Draft

end ChomskyForm
