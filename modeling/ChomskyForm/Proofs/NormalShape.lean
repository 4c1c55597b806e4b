import ChomskyForm.Normalization
import ChomskyForm.Proofs.PassOrder

/-!
# Conversion always ends in Chomsky normal form

The normal form is a conjunction of four conditions (`Grammar.isNormal_iff_conditions`), one
for each pass : only the start symbol has an empty production, no production is a unit
production, a terminal stands alone, and no right-hand side is longer than two. Each pass
brings about its own and keeps the others, with any supply of names, so that even a fresh
name that replaces an entry does no harm (`Grammar.isNormal_passes`).

For the grammars that passes reach from one that was built (`Grammar.Reachable`), the
start symbol is a non-terminal. That is all it takes for the supply of the grammar not to
touch the empty production (`Grammar.nil_mem_binarized_iff`).
-/

namespace ChomskyForm

namespace Grammar

variable {g : Grammar}

/-! ## The start symbol -/

theorem start_isolate (g : Grammar) (s : NameSupply) : (g.isolate s).grammar.start = g.start := rfl

theorem start_binarize (g : Grammar) (s : NameSupply) :
    (g.binarize s).grammar.start = g.start := rfl

/-! ## The shape, pass by pass -/

theorem isNormalRule_iff {start A : NonTerminal} {w : Word} :
    isNormalRule start (A, w) = true ↔ (w = [] → A = start) ∧ w.unit? = none ∧
      (2 ≤ w.length → ∀ a ∈ w, a.isTerminal = false) ∧ w.length ≤ 2 := by
  rcases w with _ | ⟨a, _ | ⟨b, _ | ⟨c, w⟩⟩⟩
  · simp [isNormalRule, Word.unit?]
  · cases a <;> simp [isNormalRule, Word.unit?, Symbol.isTerminal]
  · simp [isNormalRule, Word.unit?]
  · simp [isNormalRule]

theorem isNormal_iff : g.isNormal = true ↔
    ∀ A w, (A, w) ∈ g.rules → isNormalRule g.start (A, w) = true := by
  rw [isNormal, List.all_eq_true]
  exact ⟨fun h A w => h (A, w), fun h r => h r.1 r.2⟩

/-- The condition that removal of unit productions brings about. -/
def UnitFree (g : Grammar) : Prop := ∀ A w, (A, w) ∈ g.rules → w.unit? = none

/-- The condition that isolation of terminals brings about. -/
def Uncrowded (g : Grammar) : Prop :=
  ∀ A w, (A, w) ∈ g.rules → 2 ≤ w.length → ∀ a ∈ w, a.isTerminal = false

theorem unitFree_removeUnits (g : Grammar) : g.removeUnits.UnitFree :=
  fun _ _ hr => (mem_rules_removeUnits.mp hr).1

theorem UnitFree.isolate (h : g.UnitFree) (s : NameSupply) : (g.isolate s).grammar.UnitFree := by
  intro A w hr
  rcases mem_rules_isolate hr with ⟨v, hv, rfl⟩ | ⟨t, -, rfl⟩
  · rw [Word.unit?_isolate]
    exact h A v hv
  · rfl

theorem UnitFree.binarize (h : g.UnitFree) (s : NameSupply) :
    (g.binarize s).grammar.UnitFree := by
  intro A w hr
  rcases mem_rules_binarize hr with ⟨v, Xs, hd, rfl⟩ | hl
  · rw [Word.unit?_chainHead]
    exact h A v (fst_mem_rules_of_mem_dealt hd)
  · obtain ⟨d, -, hl⟩ := mem_links_binarize.mp hl
    have hlen := Word.two_le_length_of_mem_chainLinks hl
    rw [Option.eq_none_iff_forall_ne_some]
    intro B hB
    rw [Word.unit?_eq_some_iff.mp hB, List.length_singleton] at hlen
    omega

theorem uncrowded_isolate (g : Grammar) (s : NameSupply) : (g.isolate s).grammar.Uncrowded :=
  fun _ _ hr hw _ ha => isTerminal_of_mem_isolate hr hw ha

theorem Uncrowded.binarize (h : g.Uncrowded) (s : NameSupply) :
    (g.binarize s).grammar.Uncrowded := by
  intro A w hr hw a ha
  rcases mem_of_mem_rules_binarize hr ha with ⟨r, hr', har, hle⟩ | ⟨X, -, rfl⟩
  · exact h r.1 r.2 hr' (Nat.le_trans hw hle) a har
  · rfl

/-- One condition for each pass. -/
theorem isNormal_iff_conditions : g.isNormal = true ↔
    g.NilAtStart ∧ g.UnitFree ∧ g.Uncrowded ∧ ∀ r ∈ g.rules, r.2.length ≤ 2 := by
  rw [isNormal_iff]
  constructor
  · intro h
    have hrule := fun A w hr => isNormalRule_iff.mp (h A w hr)
    exact ⟨fun A hr => (hrule A [] hr).1 rfl, fun A w hr => (hrule A w hr).2.1,
      fun A w hr => (hrule A w hr).2.2.1, fun r hr => (hrule r.1 r.2 hr).2.2.2⟩
  · rintro ⟨hnil, hunit, huncrowded, hshort⟩ A w hr
    refine isNormalRule_iff.mpr ⟨?_, hunit A w hr, huncrowded A w hr, hshort _ hr⟩
    rintro rfl
    exact hnil A hr

/-- Splitting words is the last of the four steps. -/
theorem isNormal_binarize (hnil : g.NilAtStart) (hunit : g.UnitFree) (huncrowded : g.Uncrowded)
    (s : NameSupply) : (g.binarize s).grammar.isNormal = true :=
  isNormal_iff_conditions.mpr ⟨hnil.binarize s, hunit.binarize s, huncrowded.binarize s,
    fun _ hr => length_le_of_mem_binarize hr⟩

/-- The four passes one after another, with any supplies of names. -/
theorem isNormal_passes (g : Grammar) (e : EmptySentence) (s₁ s₂ : NameSupply) :
    (((g.removeErasing e).removeUnits.isolate s₁).grammar.binarize s₂).grammar.isNormal = true :=
  isNormal_binarize ((g.nilAtStart_removeErasing e).removeUnits.isolate s₁)
    ((unitFree_removeUnits _).isolate s₁) (uncrowded_isolate _ s₁) s₂

end Grammar

/-! ## Typing cannot fail -/

namespace NormalForm

/-- A production is typed if it has one of the shapes. -/
theorem misfit?_eq_none_iff {start : NonTerminal} {r : Rule} :
    misfit? start r = none ↔ Grammar.isNormalRule start r = true := by
  obtain ⟨A, w⟩ := r
  rcases w with _ | ⟨_ | _, _ | ⟨_ | _, _ | ⟨c, w⟩⟩⟩ <;>
    simp [misfit?, Grammar.isNormalRule, NormalWord.ofWord, Symbol.isTerminal]

theorem ofGrammar_of_isNormal {g : Grammar} (h : g.isNormal = true) :
    ofGrammar g = .ok (typed g) := by
  have hnone : g.rules.findSome? (misfit? g.start) = none := by
    rw [List.findSome?_eq_none_iff]
    exact fun r hr => misfit?_eq_none_iff.mpr (List.all_eq_true.mp h r hr)
  rw [ofGrammar, hnone]

/-- What is typed is in Chomsky normal form. -/
theorem of_ofGrammar {g : Grammar} {c : NormalForm} (h : ofGrammar g = .ok c) :
    g.isNormal = true ∧ typed g = c := by
  unfold ofGrammar at h
  cases hnone : g.rules.findSome? (misfit? g.start) with
  | some fault =>
    rw [hnone] at h
    cases h
  | none =>
    rw [hnone] at h
    cases h
    rw [List.findSome?_eq_none_iff] at hnone
    exact ⟨List.all_eq_true.mpr fun r hr => misfit?_eq_none_iff.mp (hnone r hr), rfl⟩

theorem erasable_typed {g : Grammar} :
    (typed g).erasable = true ↔ (g.start, []) ∈ g.rules := by
  rw [← Grammar.mem_alternatives]
  exact decide_eq_true_iff

end NormalForm

namespace Grammar

variable {g : Grammar} {e : EmptySentence}

/-- The third stage of a conversion. -/
def isolated (g : Grammar) (e : EmptySentence) : Isolation :=
  (g.removeErasing e).removeUnits.isolate g.supply

/-- The last stage of a conversion before its result is typed. -/
def binarized (g : Grammar) (e : EmptySentence) : Binarization :=
  (g.isolated e).grammar.binarize (g.isolated e).supply

theorem isNormal_binarized (g : Grammar) (e : EmptySentence) :
    (g.binarized e).grammar.isNormal = true :=
  g.isNormal_passes e g.supply (g.isolated e).supply

/-- All stages of a conversion. -/
def normalization (g : Grammar) (e : EmptySentence) : Normalization :=
  ⟨g, g.removeErasing e, (g.removeErasing e).removeUnits, g.isolated e, g.binarized e,
    NormalForm.typed (g.binarized e).grammar⟩

theorem withoutUnits_normalization (g : Grammar) (e : EmptySentence) :
    (g.normalization e).withoutUnits = (g.removeErasing e).removeUnits := rfl

theorem stages_normalization (g : Grammar) (e : EmptySentence) : (g.normalization e).stages =
    [("original", g), ("without ε productions", g.removeErasing e),
     ("without unit productions", (g.removeErasing e).removeUnits),
     ("isolated terminals", (g.isolated e).grammar),
     ("binarized", (g.binarized e).grammar)] := rfl

theorem binarization_normalization (g : Grammar) (e : EmptySentence) :
    (g.normalization e).binarization = g.binarized e := rfl

theorem result_normalization (g : Grammar) (e : EmptySentence) :
    (g.normalization e).result = NormalForm.typed (g.binarized e).grammar := rfl

/-- Conversion succeeds, whatever the grammar. -/
theorem normalize_eq (g : Grammar) (e : EmptySentence) :
    g.normalize e = .ok (g.normalization e) := by
  have htyped := NormalForm.ofGrammar_of_isNormal (g.isNormal_binarized e)
  unfold normalize
  extract_lets _ _ _ b
  have hb : b = g.binarized e := rfl
  rw [← hb] at htyped
  simp only [htyped]
  rfl

theorem exists_normalize (g : Grammar) (e : EmptySentence) : ∃ n, g.normalize e = .ok n ∧
    n.binarization = g.binarized e ∧ n.result = NormalForm.typed (g.binarized e).grammar :=
  ⟨g.normalization e, g.normalize_eq e, rfl, rfl⟩

/-! ## The empty production -/

/-- The grammars that passes reach from one that was built. Each pass may have a supply of
its own. -/
inductive Reachable : Grammar → Prop
  | build {d : Draft String} {g : Grammar} : d.build = .ok g → Reachable g
  | pass {g : Grammar} (s : NameSupply) (p : Pass) : Reachable g →
      Reachable ((Progress.mk g s).apply p).grammar

theorem Reachable.start_mem : ∀ {g : Grammar}, g.Reachable → g.start ∈ g.nonTerminals
  | _, .build h => (Draft.wellFormed_of_build h).start_mem
  | _, .pass (g := g) s p h => by
    have hext := Progress.extends_apply ⟨g, s⟩ p
    rw [hext.start]
    exact hext.nonTerminals.subset h.start_mem

/-- The supply of the grammar leaves the empty production of the start symbol alone. -/
theorem nil_mem_binarized_iff (h : g.start ∈ g.nonTerminals) {A : NonTerminal} :
    (A, []) ∈ (g.binarized e).grammar.rules ↔ A = g.start ∧ e = .retain ∧ g.Generates [] := by
  have hunits : (A, []) ∈ (g.removeErasing e).removeUnits.rules ↔
      A = g.start ∧ e = .retain ∧ g.Generates [] :=
    nil_mem_rules_removeUnits.trans nil_mem_rules_removeErasing
  refine ⟨fun hA => hunits.mp (nil_mem_of_isolate (nil_mem_of_binarize hA)), fun hA => ?_⟩
  have htaken : A.text ∈ g.supply.taken := hA.1 ▸ (Progress.avoids_supply g).1 _ h
  have htaken' : A.text ∈ (g.isolated e).supply.taken := by
    rw [isolated, taken_isolate]
    exact List.mem_append_left _ htaken
  exact nil_mem_binarize htaken' (nil_mem_isolate htaken (hunits.mpr hA))

theorem start_binarized (g : Grammar) (e : EmptySentence) :
    (g.binarized e).grammar.start = g.start := by
  rw [binarized, start_binarize, isolated, start_isolate]
  rfl

/-- A conversion ends in Chomsky normal form, also of a grammar that passes have changed
with supplies of any kind. There is an empty production left exactly if the empty sentence
is to be retained and the start symbol derives it. The normal form does not depend on the
supplies at all. -/
theorem normalize_isNormal (hg : g.Reachable) (e : EmptySentence) :
    (∃ n, g.normalize e = .ok n ∧ n.binarization.grammar.isNormal = true ∧
      ((∃ A, (A, []) ∈ n.binarization.grammar.rules) ↔ e = .retain ∧ g.Generates []) ∧
      (n.result.erasable = true ↔ e = .retain ∧ g.Generates [])) ∧
    ∀ s₁ s₂ : NameSupply, (((g.removeErasing e).removeUnits.isolate s₁).grammar.binarize
      s₂).grammar.isNormal = true := by
  refine ⟨?_, g.isNormal_passes e⟩
  obtain ⟨n, hn, hbinarized, hresult⟩ := g.exists_normalize e
  have hnil : ∀ A, (A, []) ∈ (g.binarized e).grammar.rules ↔
      A = g.start ∧ e = .retain ∧ g.Generates [] :=
    fun _ => nil_mem_binarized_iff hg.start_mem
  refine ⟨n, hn, ?_, ?_, ?_⟩
  · rw [hbinarized]
    exact g.isNormal_binarized e
  · rw [hbinarized]
    exact ⟨fun ⟨A, hA⟩ => ((hnil A).mp hA).2, fun he => ⟨g.start, (hnil _).mpr ⟨rfl, he⟩⟩⟩
  · rw [hresult, NormalForm.erasable_typed, start_binarized]
    exact (hnil _).trans (and_iff_right rfl)

/-- The grammar of parentheses, isolated and split with two supplies that issue the same
names : the links replace the helpers. -/
theorem normalize_isNormal_parentheses : ∃ g, Sample.parentheses.grammar = .ok g ∧
    let s := NameSupply.avoiding g.stem []
    let h := ((Progress.mk g s).apply .isolate).grammar
    let k := ((Progress.mk h s).apply .binarize).grammar
    k.nonTerminals.toList.map Name.text = ["S", "X0", "X1"] ∧
      ∃ n, k.normalize .retain = .ok n ∧ n.binarization.grammar.isNormal = true ∧
        n.result.erasable = true := by
  refine ⟨_, rfl, ?_⟩
  intro s h k
  have hbuild : (Draft.ofDeclarations "S" Sample.parentheses.declarations).build = .ok _ := rfl
  have hk : k.Reachable := .pass s .binarize (.pass s .isolate (.build hbuild))
  have hnil : k.Generates [] := .of_mem (v := []) (by decide +kernel) .nil
  obtain ⟨⟨n, hn, hnormal, -, herasable⟩, -⟩ := normalize_isNormal hk .retain
  exact ⟨by decide +kernel, n, hn, hnormal, herasable.mpr ⟨rfl, hnil⟩⟩

end Grammar

end ChomskyForm
