import ChomskyForm.Proofs.ChartRecognition
import ChomskyForm.Proofs.NormalShape
import ChomskyForm.Proofs.TableRecognition

/-!
# Conversion keeps the sentences that are recognised

The table recogniser of the result and the chart recogniser of the grammar are compared by
what they decide. The chart decides the language (`Grammar.recognizes_iff`). The table
leaves the empty production out, so that it decides the language of a cleared grammar
(`Grammar.Cleared.recognizes_typed`). The last grammar of a conversion is cleared
(`Grammar.cleared_binarized`), and so is every grammar in Chomsky normal form whose start
symbol is on no right-hand side (`Grammar.cleared_of_isNormal`).

So both say the same of every sentence, but for the empty one if it was dropped
(`Grammar.recognizes_binarized_eq`).
-/

namespace ChomskyForm

namespace NormalForm

variable {k : Grammar} {u : Sentence} {A : NonTerminal}

/-! ## Typed productions -/

theorem mem_normalWords {ws : OrderedSet Word} {w : NormalWord} :
    w ∈ normalWords ws ↔ w.word ∈ ws := by
  rw [normalWords, OrderedSet.mem_ofList, List.mem_filterMap]
  refine ⟨fun ⟨v, hv, hw⟩ => ?_, fun hw => ⟨w.word, hw, by rw [NormalWord.ofWord_word]; rfl⟩⟩
  cases hv' : NormalWord.ofWord v with
  | error _ =>
    rw [hv'] at hw
    cases hw
  | ok w' =>
    rw [hv'] at hw
    cases hw
    rwa [NormalWord.ofWord_eq_ok_iff.mp hv'] at hv

theorem has_typed_iff {w : NormalWord} : (typed k).Has A w ↔ (A, w.word) ∈ k.rules := by
  rw [Grammar.rules, Productions.mem_rules]
  simp only [Has, typed, OrderedMap.mem_entries_filterMap, OrderedSet.nonempty?_eq_some_iff]
  refine ⟨?_, ?_⟩
  · rintro ⟨vs, ⟨ws, he, rfl, -⟩, hw⟩
    exact ⟨ws, he, mem_normalWords.mp hw⟩
  · rintro ⟨ws, he, hw⟩
    have hmem := mem_normalWords.mpr hw
    exact ⟨normalWords ws, ⟨ws, he, rfl, List.ne_nil_of_mem hmem⟩, hmem⟩

theorem exists_word_of_isNormalRule {start : NonTerminal} : ∀ {v : Word},
    Grammar.isNormalRule start (A, v) = true → v ≠ [] → ∃ w : NormalWord, v = w.word
  | [], _, hv => absurd rfl hv
  | [.terminal t], _, _ => ⟨.terminal t, rfl⟩
  | [.nonTerminal B, .nonTerminal C], _, _ => ⟨.pair B C, rfl⟩
  | [.nonTerminal _], h, _ => nomatch h
  | [.terminal _, _], h, _ => nomatch h
  | [.nonTerminal _, .terminal _], h, _ => nomatch h
  | _ :: _ :: _ :: _, h, _ => nomatch h

/-- Typing loses no production of a grammar in Chomsky normal form. -/
theorem mem_solid_typed (hk : k.isNormal = true) {r : Rule} :
    r ∈ solid (typed k).rules ↔ r ∈ solid k.rules := by
  obtain ⟨A, v⟩ := r
  rw [mem_solid_rules, mem_solid]
  simp only [has_typed_iff]
  refine ⟨?_, fun ⟨hr, hv⟩ => ?_⟩
  · rintro ⟨w, hw, rfl⟩
    exact ⟨hw, word_ne_nil w⟩
  · have hrule := Grammar.isNormal_iff.mp hk A v hr
    obtain ⟨w, rfl⟩ := exists_word_of_isNormalRule hrule hv
    exact ⟨w, hr, rfl⟩

/-- The table of a typed grammar decides what the grammar derives without empty productions. -/
theorem recognizes_typed_iff (hk : k.isNormal = true) (hu : u ≠ []) :
    (typed k).recognizes u = true ↔ Yields (solid k.rules) [.nonTerminal k.start] u := by
  rw [recognizes_iff hu]
  exact ⟨Yields.mono fun _ => (mem_solid_typed hk).mp,
    Yields.mono fun _ => (mem_solid_typed hk).mpr⟩

end NormalForm

namespace Grammar

/-! ## The start symbol on the right-hand side -/

/-- A word without the start symbol needs none of its empty productions, if the start symbol
is on no right-hand side. -/
theorem NilAtStart.yields_solid {g : Grammar} (hnil : g.NilAtStart)
    (hstart : ∀ r ∈ g.rules, .nonTerminal g.start ∉ r.2) : ∀ {w : Word} {u : Sentence},
      Yields g.rules w u → .nonTerminal g.start ∉ w → Yields (solid g.rules) w u
  | _, _, .nil, _ => .nil
  | _, _, .terminal h, hw =>
    .terminal (hnil.yields_solid hstart h fun hmem => hw (List.mem_cons_of_mem _ hmem))
  | _, _, .nonTerminal (A := A) (v := v) hr hv hrest, hw => by
    have hA : A ≠ g.start := fun hA => hw (hA ▸ List.mem_cons_self)
    have hne : v ≠ [] := fun hv => hA (hnil A (hv ▸ hr))
    exact .nonTerminal (mem_solid.mpr ⟨hr, hne⟩) (hnil.yields_solid hstart hv (hstart _ hr))
      (hnil.yields_solid hstart hrest fun hmem => hw (List.mem_cons_of_mem _ hmem))

/-- In Chomsky normal form the empty production is needed for nothing but the empty
sentence, if there is none, or if the start symbol is on no right-hand side. -/
theorem cleared_of_isNormal {g : Grammar} (hg : g.isNormal = true)
    (h : g.erasing = [] ∨ ∀ r ∈ g.rules, .nonTerminal g.start ∉ r.2) : g.Cleared := by
  obtain ⟨hnil, -⟩ := isNormal_iff_conditions.mp hg
  refine ⟨hnil, fun u hu hgen => ?_⟩
  rcases h with hnone | hstart
  · exact yields_solid_of_derives (.inl hnone) hu hgen
  · obtain ⟨v, hr, hv⟩ := yields_singleton_iff.mp hgen
    have hne : v ≠ [] := fun hnil => hu (yields_nil_iff.mp (hnil ▸ hv))
    exact .of_mem (mem_solid.mpr ⟨hr, hne⟩) (hnil.yields_solid hstart hv (hstart _ hr))

/-- The table of a cleared grammar in Chomsky normal form decides its language. -/
theorem Cleared.recognizes_typed {g : Grammar} (hc : g.Cleared) (hg : g.isNormal = true)
    (u : Sentence) : (NormalForm.typed g).recognizes u = g.recognizes u := by
  rw [Bool.eq_iff_iff, recognizes_iff]
  by_cases hu : u = []
  · subst hu
    rw [NormalForm.recognizes_nil, NormalForm.erasable_typed, hc.generates_nil_iff]
  · rw [NormalForm.recognizes_typed_iff hg hu]
    exact ⟨Yields.of_solid, hc.yields_solid u hu⟩

variable {g : Grammar} {e : EmptySentence} {u : Sentence}

/-! ## The last grammar of a conversion -/

/-- A conversion is a run of passes. -/
theorem run_eq_binarized (g : Grammar) (e : EmptySentence) :
    (Progress.start g).run [.removeErasing e, .removeUnits, .isolate, .binarize] =
      ⟨(g.binarized e).grammar, (g.binarized e).supply⟩ := rfl

theorem grammar_binarized (g : Grammar) (e : EmptySentence) : (g.binarized e).grammar =
    ((Progress.start g).run [.removeErasing e, .removeUnits, .isolate, .binarize]).grammar := by
  rw [run_eq_binarized]

theorem cleared_binarized (hg : g.WellFormed) (e : EmptySentence) :
    (g.binarized e).grammar.Cleared := by
  have hsafe := (Progress.safe_start hg).apply (.removeErasing e)
  have hrun := hsafe.cleared_run [.removeUnits, .isolate, .binarize] (g.cleared_removeErasing e)
  rwa [← Progress.run_cons, ← grammar_binarized] at hrun

/-- The language before typing. -/
theorem generates_binarized_iff (hg : g.WellFormed) :
    (g.binarized e).grammar.Generates u ↔ g.Generates u ∧ (u = [] → e = .retain) := by
  have hrun := (Progress.safe_start hg).generates_run (u := u)
    [.removeErasing e, .removeUnits, .isolate, .binarize] (by simp [Pass.erases])
  rw [← grammar_binarized] at hrun
  have hdrop : Pass.removeErasing .drop ∉
      [Pass.removeErasing e, .removeUnits, .isolate, .binarize] ↔ e = .retain := by
    cases e <;> decide
  rwa [hdrop] at hrun

/-- What the table recogniser says of the result of a conversion. -/
theorem recognizes_binarized_iff (hg : g.WellFormed) :
    (NormalForm.typed (g.binarized e).grammar).recognizes u = true ↔
      g.Generates u ∧ (u = [] → e = .retain) := by
  rw [(cleared_binarized hg e).recognizes_typed (g.isNormal_binarized e), recognizes_iff,
    generates_binarized_iff hg]

/-- The two recognisers say the same of a sentence that is not dropped. -/
theorem recognizes_binarized_eq (hg : g.WellFormed) (hu : u = [] → e = .retain) :
    (NormalForm.typed (g.binarized e).grammar).recognizes u = g.recognizes u := by
  rw [Bool.eq_iff_iff, recognizes_binarized_iff hg, recognizes_iff]
  exact and_iff_left hu

theorem recognizes_binarized_drop_nil (hg : g.WellFormed) :
    (NormalForm.typed (g.binarized .drop).grammar).recognizes [] = false := by
  rw [← Bool.not_eq_true, recognizes_binarized_iff hg]
  exact fun ⟨_, hdrop⟩ => nomatch hdrop rfl

end Grammar

end ChomskyForm
