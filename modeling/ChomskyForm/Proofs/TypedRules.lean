import ChomskyForm.Typing
import ChomskyForm.Proofs.CheckedLoops
import ChomskyForm.Proofs.ProductionLists

/-!
# Typing loses nothing

A pass that types each production when it is met ends at the first that does not fit, and has
typed them all if there is none (`NormalForm.ofGrammarInTurn_eq_ofGrammar`).

Typing takes the empty production of the start symbol out of the map and notes it in a flag.
All that is left of the productions stays in its place (`NormalForm.solid_rules_typed`), also
where a left-hand side is dropped because it had nothing but the empty production. When the
productions are listed again, the empty one has a place of its own
(`NormalForm.emptyLast_rules`).

`NormalForm.ofGrammar_lossless` : the grammars that are typed are those in Chomsky normal
form, and of any other the first production that does not fit is reported.
-/

namespace ChomskyForm

namespace NormalForm

variable {k : Grammar}

/-! ## Typing in one pass -/

/-- A word is typed unless there is something wrong with it. -/
theorem typeWord_eq (start A : NonTerminal) (s : Bool × OrderedSet NormalWord) (w : Word) :
    typeWord start A s w = okUnless (misfit? start (A, w))
      (s.1 || decide (w = [] ∧ A = start),
        s.2.insertAll (NormalWord.ofWord w).toOption.toList) := by
  unfold typeWord misfit?
  by_cases hempty : w = [] ∧ A = start
  · rw [if_pos hempty, if_pos hempty, decide_eq_true hempty, Bool.or_true, hempty.1]
    rfl
  · rw [if_neg hempty, if_neg hempty, decide_eq_false hempty, Bool.or_false]
    cases NormalWord.ofWord w <;> rfl

/-- Alternatives are typed unless there is something wrong with one of them. -/
theorem typeEntry_eq (start : NonTerminal)
    (s : Bool × OrderedMap NonTerminal (OrderedSet NormalWord))
    (e : NonTerminal × OrderedSet Word) :
    typeEntry start s e = okUnless (e.2.toList.findSome? fun w => misfit? start (e.1, w))
      (s.1 || e.2.toList.any fun w => w = [] ∧ e.1 = start,
        s.2.insert? e.1 (normalWords e.2).nonempty?) := by
  have hwords : e.2.toList.foldl
      (fun vs w => vs.insertAll (NormalWord.ofWord w).toOption.toList) .empty = normalWords e.2 := by
    rw [normalWords, List.filterMap_eq_flatMap_toList]
    exact List.foldl_flatMap.symm
  have hfold : e.2.toList.foldl (fun s w => (s.1 || decide (w = [] ∧ e.1 = start),
      s.2.insertAll (NormalWord.ofWord w).toOption.toList)) (s.1, .empty) =
        (s.1 || e.2.toList.any fun w => w = [] ∧ e.1 = start, normalWords e.2) := by
    rw [← hwords]
    exact foldl_noting fun _ _ _ => rfl
  rw [typeEntry, foldlM_okUnless fun w _ s => typeWord_eq start e.1 s w, hfold]
  cases e.2.toList.findSome? fun w => misfit? start (e.1, w) <;> rfl

/-- The pass reports what is found beforehand, and otherwise types every production. -/
theorem ofGrammarInTurn_eq_ofGrammar (g : Grammar) : ofGrammarInTurn g = ofGrammar g := by
  have hreason : g.rules.findSome? (misfit? g.start) = g.productions.entries.findSome? fun e =>
      e.2.toList.findSome? fun w => misfit? g.start (e.1, w) := by
    rw [Grammar.rules, Productions.rules, findSome?_flatMap]
    simp only [List.findSome?_map, Function.comp_def]
  have herasable : (g.productions.entries.any fun e => e.2.toList.any fun w =>
      w = [] ∧ e.1 = g.start) = decide ([] ∈ g.alternatives g.start) := by
    rw [Bool.eq_iff_iff, decide_eq_true_iff, Grammar.mem_alternatives, Grammar.rules,
      Productions.mem_rules]
    simp only [List.any_eq_true, decide_eq_true_iff]
    constructor
    · rintro ⟨e, he, w, hw, rfl, hstart⟩
      exact ⟨e.2, hstart ▸ he, hw⟩
    · rintro ⟨ws, he, hempty⟩
      exact ⟨_, he, [], hempty, rfl, rfl⟩
  have hproductions : g.productions.entries.foldl
      (fun p e => p.insert? e.1 (normalWords e.2).nonempty?) .empty = (typed g).productions :=
    (OrderedMap.filterMap_eq_foldl (fun _ ws => (normalWords ws).nonempty?) g.productions).symm
  have hfold : g.productions.entries.foldl (fun s e =>
      (s.1 || e.2.toList.any fun w => w = [] ∧ e.1 = g.start,
        s.2.insert? e.1 (normalWords e.2).nonempty?)) (false, .empty) =
        ((typed g).erasable, (typed g).productions) := by
    rw [← hproductions]
    exact (foldl_noting fun _ _ _ => rfl).trans (congrArg (·, _) herasable)
  rw [ofGrammarInTurn, foldlM_okUnless fun e _ s => typeEntry_eq g.start s e,
    hfold, ofGrammar, hreason]
  cases g.productions.entries.findSome? fun e =>
    e.2.toList.findSome? fun w => misfit? g.start (e.1, w) <;> rfl

/-! ## Alternatives -/

theorem map_word_filterMap : ∀ {ws : List Word}, (∀ w ∈ ws, w ≠ [] → ∃ v : NormalWord, w = v.word) →
    (ws.filterMap fun w => (NormalWord.ofWord w).toOption).map NormalWord.word =
      ws.filter fun w => !w.isEmpty
  | [], _ => rfl
  | [] :: ws, h => @map_word_filterMap ws fun w hw => h w (List.mem_cons_of_mem _ hw)
  | (a :: w) :: ws, h => by
    obtain ⟨v, hv⟩ := h _ List.mem_cons_self (List.cons_ne_nil a w)
    have hrest := map_word_filterMap fun w hw => h w (List.mem_cons_of_mem _ hw)
    have hread : (NormalWord.ofWord (a :: w)).toOption = some v := by
      rw [hv, NormalWord.ofWord_word]
      rfl
    simp only [List.filterMap_cons, hread, List.map_cons, hrest, ← hv]
    rfl

/-- Typing keeps the order of the alternatives, and leaves the empty word out. -/
theorem map_word_normalWords {ws : OrderedSet Word}
    (h : ∀ w ∈ ws, w ≠ [] → ∃ v : NormalWord, w = v.word) :
    (normalWords ws).toList.map NormalWord.word = ws.toList.filter fun w => !w.isEmpty := by
  have hwords := map_word_filterMap h
  have hnodup : ((ws.toList.filterMap fun w =>
      (NormalWord.ofWord w).toOption).map NormalWord.word).Nodup := hwords ▸ ws.nodup.filter _
  rw [normalWords, OrderedSet.toList_ofList_of_nodup (List.Nodup.of_map _ hnodup), hwords]

/-! ## Lists of productions -/

theorem solid_entryRules (c : NormalForm) (e : NonTerminal × OrderedSet NormalWord) :
    solid (c.entryRules e) = e.2.toList.map fun w => (e.1, w.word) := by
  have hword : ∀ r ∈ e.2.toList.map fun w => (e.1, w.word), (!r.2.isEmpty) = true := by
    intro r hr
    obtain ⟨w, -, rfl⟩ := List.mem_map.mp hr
    simpa using word_ne_nil w
  rw [entryRules, solid, List.filter_append, List.filter_eq_self.mpr hword]
  split <;> simp

/-- The productions other than the empty one are those of the map, in order. -/
theorem solid_rules (c : NormalForm) : solid c.rules =
    c.productions.entries.flatMap fun e => e.2.toList.map fun w => (e.1, w.word) := by
  have hfirst : solid (if c.erasable && c.start ∉ c.productions.keys then [(c.start, [])]
      else []) = [] := by split <;> rfl
  have hentries : solid (c.productions.entries.flatMap c.entryRules) =
      c.productions.entries.flatMap fun e => e.2.toList.map fun w => (e.1, w.word) := by
    rw [solid, List.filter_flatMap]
    exact List.flatMap_congr fun e _ => c.solid_entryRules e
  rw [← hentries, rules, solid, List.filter_append]
  exact (congrArg (· ++ _) hfirst).trans (List.nil_append _)

/-- Typing keeps the productions in order, but for the empty one. -/
theorem solid_rules_typed (hk : k.isNormal = true) : solid (typed k).rules = solid k.rules := by
  have hentry : ∀ d ∈ k.productions.entries,
      (((normalWords d.2).nonempty?.map (d.1, ·)).toList.flatMap fun e =>
        e.2.toList.map fun w => (e.1, w.word)) = solid (d.2.toList.map (d.1, ·)) := fun d hd => by
    have hwords := @map_word_normalWords d.2 fun w hw hne => by
      have hr : (d.1, w) ∈ k.rules := Productions.mem_rules.mpr ⟨d.2, hd, hw⟩
      exact exists_word_of_isNormalRule (Grammar.isNormal_iff.mp hk _ _ hr) hne
    have hlist : (normalWords d.2).toList.map (fun w => (d.1, w.word)) =
        solid (d.2.toList.map (d.1, ·)) := by
      calc (normalWords d.2).toList.map (fun w => (d.1, w.word))
          = ((normalWords d.2).toList.map NormalWord.word).map (d.1, ·) := List.map_map.symm
        _ = (d.2.toList.filter fun w => !w.isEmpty).map (d.1, ·) := by rw [hwords]
        _ = solid (d.2.toList.map (d.1, ·)) := by
          rw [solid, List.filter_map]
          rfl
    rw [← hlist, OrderedSet.nonempty?]
    split
    · rename_i hempty
      simp [List.isEmpty_iff.mp hempty]
    · simp
  have hentries : (typed k).productions.entries = k.productions.entries.filterMap fun d =>
      (normalWords d.2).nonempty?.map (d.1, ·) := rfl
  rw [solid_rules, hentries, List.filterMap_eq_flatMap_toList, List.flatMap_assoc,
    List.flatMap_congr hentry, Grammar.rules, Productions.rules, solid, List.filter_flatMap]
  rfl

/-! ## The place of the empty production -/

/-- The empty production of `S` comes right after the other productions of `S`, or first of
all if there are no others. -/
inductive EmptyLast (S : NonTerminal) : List Rule → Prop
  | alone {rest : List Rule} : (∀ r ∈ rest, r.1 ≠ S) → EmptyLast S ((S, []) :: rest)
  | after {before own rest : List Rule} : (∀ r ∈ before, r.1 ≠ S) → (∀ r ∈ rest, r.1 ≠ S) →
      own ≠ [] → (∀ r ∈ own, r.1 = S ∧ r.2 ≠ []) →
        EmptyLast S (before ++ own ++ (S, []) :: rest)

theorem fst_ne_of_mem_flatMap {c : NormalForm} {S : NonTerminal}
    {l : List (NonTerminal × OrderedSet NormalWord)} (hS : S ∉ l.map Prod.fst) {r : Rule}
    (hr : r ∈ l.flatMap c.entryRules) : r.1 ≠ S := by
  obtain ⟨e, he, hr⟩ := List.mem_flatMap.mp hr
  rw [fst_of_mem_entryRules hr]
  exact fun heq => hS (heq ▸ List.mem_map_of_mem he)

theorem emptyLast_rules {c : NormalForm} (herasable : c.erasable = true)
    (hne : ∀ e ∈ c.productions.entries, e.2.toList ≠ []) : EmptyLast c.start c.rules := by
  by_cases hkey : c.start ∈ c.productions.keys
  · obtain ⟨ws, he⟩ := OrderedMap.mem_keys.mp hkey
    obtain ⟨before, rest, hsplit⟩ := List.append_of_mem he
    have hnodup := c.productions.nodup
    rw [hsplit, List.map_append, List.map_cons, List.nodup_middle, List.nodup_cons,
      List.mem_append, not_or] at hnodup
    have hrules : c.rules = before.flatMap c.entryRules ++
        ws.toList.map (fun w => (c.start, w.word)) ++
          (c.start, []) :: rest.flatMap c.entryRules := by
      simp [rules, hkey, hsplit, entryRules, herasable]
    rw [hrules]
    refine .after (fun r => fst_ne_of_mem_flatMap hnodup.1.1)
      (fun r => fst_ne_of_mem_flatMap hnodup.1.2) ?_ fun r hr => ?_
    · simpa using hne _ he
    · obtain ⟨w, -, rfl⟩ := List.mem_map.mp hr
      exact ⟨rfl, word_ne_nil w⟩
  · have hrules : c.rules = (c.start, []) :: c.productions.entries.flatMap c.entryRules := by
      simp [rules, hkey, herasable]
    rw [hrules]
    exact .alone fun r => fst_ne_of_mem_flatMap hkey

theorem emptyLast_rules_typed (h : (k.start, []) ∈ k.rules) :
    EmptyLast k.start (typed k).rules := by
  refine emptyLast_rules (c := typed k) (erasable_typed.mpr h) fun e he => ?_
  obtain ⟨ws, -, hws⟩ := OrderedMap.mem_entries_filterMap.mp he
  exact (OrderedSet.nonempty?_eq_some_iff.mp hws).2

/-! ## What is typed, and what is reported -/

/-- Without the one empty production there are the same productions in the same order. -/
theorem erase_rules_typed (hk : k.isNormal = true) :
    (typed k).rules.erase (k.start, []) = k.rules.erase (k.start, []) := by
  have hsolid : ∀ l : List Rule, l.Nodup → (∀ r ∈ l, Grammar.isNormalRule k.start r = true) →
      l.erase (k.start, []) = solid l := fun l hl hnormal => by
    rw [hl.erase_eq_filter, solid]
    refine List.filter_congr fun r hr => ?_
    have hnil := (Grammar.isNormalRule_iff.mp (hnormal r hr)).1
    by_cases hempty : r.2 = []
    · have heq : r = (k.start, []) := Prod.ext (hnil hempty) hempty
      simp [heq]
    · have hne : r ≠ (k.start, []) := fun heq => hempty (heq ▸ rfl)
      rw [bne_iff_ne.mpr hne, List.isEmpty_eq_false_iff.mpr hempty]
      rfl
  have hnormal : ∀ r ∈ k.rules, Grammar.isNormalRule k.start r = true := fun r =>
    Grammar.isNormal_iff.mp hk r.1 r.2
  rw [hsolid _ (nodup_rules _) fun r hr => hnormal r ((perm_rules_typed hk).mem_iff.mp hr),
    hsolid _ k.nodup_rules hnormal, solid_rules_typed hk]

theorem mem_erasing_typed (hk : k.isNormal = true) {A : NonTerminal} :
    A ∈ (typed k).erasing ↔ A ∈ k.erasing := by
  have hnil := (Grammar.isNormal_iff_conditions.mp hk).1
  rw [Grammar.mem_erasing, erasing, List.mem_ite_nil_right, erasable_typed, List.mem_singleton]
  refine ⟨fun ⟨hr, hA⟩ => ?_, fun hr => ?_⟩
  · rw [hA]
    exact hr
  · obtain rfl := hnil A hr
    exact ⟨hr, rfl⟩

/-- The report of a production that does not fit names it. -/
theorem exists_misfit {start : NonTerminal} {r : Rule} {fault : Fault}
    (h : misfit? start r = some fault) : ∃ misfit, NormalWord.ofWord r.2 = .error misfit ∧
      fault = .notNormal r.1 r.2 misfit := by
  unfold misfit? at h
  split at h
  · cases h
  · split at h
    · cases h
    · rename_i misfit hread
      exact ⟨misfit, hread, (Option.some.inj h).symm⟩

/-- The first production that does not fit is reported. -/
theorem ofGrammar_of_not_isNormal (h : k.isNormal = false) : ∃ before r rest misfit,
    k.rules = before ++ r :: rest ∧
      (∀ q ∈ before, Grammar.isNormalRule k.start q = true) ∧
      Grammar.isNormalRule k.start r = false ∧ NormalWord.ofWord r.2 = .error misfit ∧
      ofGrammar k = .error (.notNormal r.1 r.2 misfit) := by
  cases hfound : k.rules.findSome? (misfit? k.start) with
  | none =>
    have hnormal : k.isNormal = true := List.all_eq_true.mpr fun r hr =>
      misfit?_eq_none_iff.mp (List.findSome?_eq_none_iff.mp hfound r hr)
    rw [h] at hnormal
    exact absurd hnormal Bool.false_ne_true
  | some fault =>
    have herror : ofGrammar k = .error fault := by rw [ofGrammar, hfound]
    obtain ⟨before, r, rest, hrules, hr, hbefore⟩ := List.findSome?_eq_some_iff.mp hfound
    obtain ⟨misfit, hread, rfl⟩ := exists_misfit hr
    refine ⟨before, r, rest, misfit, hrules, fun q hq => misfit?_eq_none_iff.mp (hbefore q hq), ?_,
      hread, herror⟩
    rw [← Bool.not_eq_true, ← misfit?_eq_none_iff, hr]
    exact Option.some_ne_none _

/-- A grammar is typed exactly if it is in Chomsky normal form, in one pass or after a search for
productions that do not fit. Its productions are then all there, in order but for the empty one,
which comes last among those of the start symbol. If it is not, the first production without one
of the shapes is reported. -/
theorem ofGrammar_lossless (g : Grammar) :
    ofGrammarInTurn g = ofGrammar g ∧
    ((g.isNormal = true ∧ ∃ c, ofGrammar g = .ok c ∧ c.rules.Perm g.rules ∧
      c.rules.length = g.rules.length ∧
      c.rules.erase (g.start, []) = g.rules.erase (g.start, []) ∧
      ((g.start, []) ∈ g.rules → EmptyLast g.start c.rules) ∧
      ∀ A, A ∈ c.erasing ↔ A ∈ g.erasing) ∨
    (g.isNormal = false ∧ ∃ before r rest misfit, g.rules = before ++ r :: rest ∧
      (∀ q ∈ before, Grammar.isNormalRule g.start q = true) ∧
      Grammar.isNormalRule g.start r = false ∧ NormalWord.ofWord r.2 = .error misfit ∧
      ofGrammar g = .error (.notNormal r.1 r.2 misfit))) := by
  refine ⟨ofGrammarInTurn_eq_ofGrammar g, ?_⟩
  cases hg : g.isNormal with
  | true =>
    have hperm := perm_rules_typed hg
    exact .inl ⟨rfl, typed g, ofGrammar_of_isNormal hg, hperm, hperm.length_eq,
      erase_rules_typed hg, emptyLast_rules_typed, fun A => mem_erasing_typed hg⟩
  | false => exact .inr ⟨rfl, ofGrammar_of_not_isNormal hg⟩

/-- The start symbol is the last left-hand side and has no other production. -/
example : ∃ g c, (Draft.ofDeclarations "S" [.terminals ["a"], .production "A" ["a"],
      .erasing "S"]).build = .ok g ∧ ofGrammar g = .ok c ∧
    g.presentation.listing = "A -> a\nS -> ε\n" ∧ c.presentation.listing = "S -> ε\nA -> a\n" :=
  ⟨_, _, rfl, rfl, by decide +kernel, by decide +kernel⟩

end NormalForm

end ChomskyForm
