import Mathlib.Data.List.Basic
import ChomskyForm.Presentation
import ChomskyForm.Proofs.WellFormedRuns

/-!
# A listing determines its productions

A line of a listing is a row of texts with single spaces between them : the left-hand side, the
arrow, and the names of the word or the mark of the empty word (`Presentation.lineTexts`). If no
name holds a space or a newline, the rows are read back from the listing (`readRows_listing`).

A row may still stand for two productions. A name could be that of a terminal or of a
non-terminal, but the alphabets are disjoint, so the non-terminals tell
(`Grammar.WellFormed.eq_classify`). And the mark of the empty word could be the name of a symbol.
A symbol with this name stands in no production (`Grammar.Unmarked`) : the construction of a
grammar skips the mark, and introduced names have a number at their end, so that no pass brings
it in (`Progress.unmarked_apply`).
-/

namespace ChomskyForm

/-! ## Reading rows of texts -/

/-- The texts between the spaces of each line. What follows the last newline is no line. -/
def readRows (s : String) : List (List String) :=
  (s.toList.splitOn '\n').dropLast.map fun line => (line.splitOn ' ').map String.ofList

/-- A row of texts as a line. -/
def rowLine (row : List String) : String := " ".intercalate row ++ "\n"

/-- The text has neither spaces nor newlines. -/
def IsPlain (s : String) : Prop := ' ' ∉ s.toList ∧ '\n' ∉ s.toList

instance (s : String) : Decidable (IsPlain s) := inferInstanceAs (Decidable (_ ∧ _))

theorem mem_intercalate_singleton {α : Type} {x c : α} : ∀ {ls : List (List α)},
    c ∈ [x].intercalate ls → c = x ∨ ∃ l ∈ ls, c ∈ l
  | [], h => nomatch h
  | [l], h => by
    rw [List.intercalate_singleton] at h
    exact .inr ⟨l, List.mem_singleton_self l, h⟩
  | l :: m :: ls, h => by
    rw [List.intercalate_cons_cons, List.mem_append, List.mem_append, List.mem_singleton] at h
    rcases h with (h | h) | h
    · exact .inr ⟨l, List.mem_cons_self, h⟩
    · exact .inl h
    · exact (mem_intercalate_singleton h).imp_right fun ⟨k, hk, hc⟩ =>
        ⟨k, List.mem_cons_of_mem l hk, hc⟩

/-- Lines that end in a separator are those between separators, with nothing after the last. -/
theorem flatMap_append_singleton {α : Type} (x : α) : ∀ ls : List (List α),
    (ls.flatMap fun l => l ++ [x]) = [x].intercalate (ls ++ [[]])
  | [] => rfl
  | l :: ls => by
    have hne : ls ++ [[]] ≠ [] := List.append_ne_nil_of_right_ne_nil ls (List.cons_ne_nil _ _)
    rw [List.flatMap_cons, flatMap_append_singleton x ls, List.cons_append,
      List.intercalate_cons_of_ne_nil hne]

theorem toList_join_rowLine (rows : List (List String)) :
    (String.join (rows.map rowLine)).toList =
      (rows.map fun row => [' '].intercalate (row.map String.toList)).flatMap
        fun l => l ++ ['\n'] := by
  rw [String.toList_join, List.flatMap_map, List.flatMap_map]
  refine List.flatMap_congr fun row _ => ?_
  rw [rowLine, String.toList_append, String.toList_intercalate]
  rfl

/-- Rows that are not empty are read back. -/
theorem readRows_join {rows : List (List String)} (hne : ∀ row ∈ rows, row ≠ [])
    (hplain : ∀ row ∈ rows, ∀ t ∈ row, IsPlain t) :
    readRows (String.join (rows.map rowLine)) = rows := by
  have hlines : ∀ l ∈ (rows.map fun row => [' '].intercalate (row.map String.toList)) ++ [[]],
      '\n' ∉ l := by
    intro l hl hmem
    rcases List.mem_append.mp hl with hl | hl
    · obtain ⟨row, hrow, rfl⟩ := List.mem_map.mp hl
      rcases mem_intercalate_singleton hmem with h | ⟨cs, hcs, h⟩
      · exact absurd h (by decide)
      · obtain ⟨t, ht, rfl⟩ := List.mem_map.mp hcs
        exact (hplain row hrow t ht).2 h
    · rw [List.mem_singleton.mp hl] at hmem
      exact nomatch hmem
  have hread : ∀ row ∈ rows,
      (([' '].intercalate (row.map String.toList)).splitOn ' ').map String.ofList = row := by
    intro row hrow
    rw [List.splitOn_intercalate ' ' _ (by simpa using hne row hrow), List.map_map]
    · refine (List.map_congr_left fun t _ => ?_).trans (List.map_id row)
      exact String.ofList_toList
    · intro l hl
      obtain ⟨t, ht, rfl⟩ := List.mem_map.mp hl
      exact (hplain row hrow t ht).1
  rw [readRows, toList_join_rowLine, flatMap_append_singleton,
    List.splitOn_intercalate '\n' hlines (by simp), List.dropLast_concat, List.map_map]
  exact (List.map_congr_left hread).trans (List.map_id rows)

/-! ## The rows of a listing -/

namespace Presentation

/-- The texts that stand for a word. -/
def wordTexts (w : Word) : List String :=
  if w.isEmpty then [Word.emptyMark] else w.map Symbol.text

/-- The texts that stand for a production. -/
def lineTexts (r : Rule) : List String := r.1.text :: "->" :: wordTexts r.2

theorem wordTexts_ne_nil (w : Word) : wordTexts w ≠ [] := by
  unfold wordTexts
  split
  · exact List.cons_ne_nil _ _
  · rename_i hne
    exact fun hnil => hne (List.isEmpty_iff.mpr (List.map_eq_nil_iff.mp hnil))

theorem text_eq_intercalate (w : Word) : w.text = " ".intercalate (wordTexts w) := by
  unfold Word.text wordTexts
  split
  · exact String.intercalate_singleton.symm
  · rfl

theorem listingLine_eq (r : Rule) : listingLine r = rowLine (lineTexts r) := by
  have harrow : " -> " = " " ++ "->" ++ " " := by decide
  rw [listingLine, rowLine, lineTexts, String.intercalate_cons_cons,
    String.intercalate_cons_of_ne_nil (wordTexts_ne_nil r.2), text_eq_intercalate, harrow]
  simp only [String.append_assoc]

end Presentation

/-- A list is told by its images if they tell its elements. -/
theorem eq_of_map_eq_map {α β : Type} {f : α → β} : ∀ {l m : List α},
    (∀ a ∈ l, ∀ b ∈ m, f a = f b → a = b) → l.map f = m.map f → l = m
  | [], [], _, _ => rfl
  | a :: l, b :: m, hf, h => by
    obtain ⟨hhead, htail⟩ := List.cons.inj h
    rw [hf a List.mem_cons_self b List.mem_cons_self hhead, eq_of_map_eq_map
      (fun c hc d hd => hf c (List.mem_cons_of_mem a hc) d (List.mem_cons_of_mem b hd)) htail]

namespace Grammar

open Presentation

variable {g h : Grammar}

/-- No name of the grammar has spaces or newlines. -/
def Plain (g : Grammar) : Prop :=
  ∀ a ∈ g.nonTerminals.toList ++ g.terminals.toList, IsPlain a.text

instance (g : Grammar) : Decidable g.Plain := inferInstanceAs (Decidable (∀ _ ∈ _, _))

/-- No symbol of a production is named like the mark of the empty word. -/
def Unmarked (g : Grammar) : Prop := ∀ r ∈ g.rules, ∀ a ∈ r.2, a.text ≠ Word.emptyMark

theorem Declares.mem_append {a : Symbol} (h : g.Declares a) :
    a.name ∈ g.nonTerminals.toList ++ g.terminals.toList := by
  cases a with
  | terminal t => exact List.mem_append_right _ h
  | nonTerminal A => exact List.mem_append_left _ h

theorem WellFormed.plain_lineTexts (hg : g.WellFormed) (hplain : g.Plain) {r : Rule}
    (hr : r ∈ g.rules) : ∀ t ∈ lineTexts r, IsPlain t := by
  have hword : ∀ t ∈ r.2.map Symbol.text, IsPlain t := fun t ht => by
    obtain ⟨a, ha, rfl⟩ := List.mem_map.mp ht
    exact hplain a.name (hg.declares r hr a ha).mem_append
  intro t ht
  simp only [lineTexts, List.mem_cons] at ht
  rcases ht with rfl | rfl | ht
  · exact hplain r.1 (List.mem_append_left _ (hg.keys_mem _ (fst_mem_keys hr)))
  · exact ⟨by decide, by decide⟩
  · unfold wordTexts at ht
    split at ht
    · rw [List.mem_singleton.mp ht]
      exact ⟨by decide, by decide⟩
    · exact hword t ht

/-- The rows of a listing are read back. -/
theorem WellFormed.readRows_listing (hg : g.WellFormed) (hplain : g.Plain) :
    readRows g.presentation.listing = g.rules.map lineTexts := by
  have hlisting : g.presentation.listing = String.join ((g.rules.map lineTexts).map rowLine) := by
    rw [List.map_map]
    exact congrArg String.join (List.map_congr_left fun r _ => listingLine_eq r)
  rw [hlisting]
  refine readRows_join (fun row hrow => ?_) fun row hrow t ht => ?_
  · obtain ⟨r, -, rfl⟩ := List.mem_map.mp hrow
    exact List.cons_ne_nil _ _
  · obtain ⟨r, hr, rfl⟩ := List.mem_map.mp hrow
    exact hg.plain_lineTexts hplain hr t ht

/-- The non-terminals tell what a name in a production stands for. -/
theorem WellFormed.eq_classify (hg : g.WellFormed) {a : Symbol} (ha : g.Declares a) :
    a = Draft.classify g.nonTerminals a.name := by
  cases a with
  | terminal t => exact (if_neg fun hmem => hg.disjoint t hmem ha).symm
  | nonTerminal A => exact (if_pos ha).symm

theorem WellFormed.word_eq (hg : g.WellFormed) {r : Rule} (hr : r ∈ g.rules) :
    r.2 = (r.2.map Symbol.name).map (Draft.classify g.nonTerminals) := by
  rw [List.map_map]
  exact (List.map_id r.2).symm.trans
    (List.map_congr_left fun a ha => hg.eq_classify (hg.declares r hr a ha))

/-- The mark of the empty word stands for the empty word. -/
theorem Unmarked.names_eq {r q : Rule} (hg : g.Unmarked) (hh : h.Unmarked) (hr : r ∈ g.rules)
    (hq : q ∈ h.rules) (heq : lineTexts r = lineTexts q) :
    r.2.map Symbol.name = q.2.map Symbol.name := by
  have hmark : ∀ {k : Grammar} {p : Rule}, k.Unmarked → p ∈ k.rules →
      p.2.map Symbol.text ≠ [Word.emptyMark] := fun hk hp hone => by
    obtain ⟨a, ha, htext⟩ := List.mem_map.mp (hone ▸ List.mem_singleton_self Word.emptyMark)
    exact hk _ hp a ha htext
  have htexts : r.2.map Symbol.text = q.2.map Symbol.text := by
    have hrest : wordTexts r.2 = wordTexts q.2 := (List.cons.inj (List.cons.inj heq).2).2
    unfold wordTexts at hrest
    split at hrest <;> split at hrest
    · rename_i hnil hnil'
      rw [List.isEmpty_iff.mp hnil, List.isEmpty_iff.mp hnil']
    · exact absurd hrest.symm (hmark hh hq)
    · exact absurd hrest (hmark hg hr)
    · exact hrest
  have hname : ∀ a b : Name, a.text = b.text → a = b := fun _ _ => Name.ext
  refine (List.map_inj_right hname).mp ?_
  rw [List.map_map, List.map_map]
  exact htexts

/-- Two productions on equal lines are equal if the grammars have the same non-terminals. -/
theorem eq_of_lineTexts_eq {r q : Rule} (hg : g.WellFormed) (hh : h.WellFormed)
    (hgm : g.Unmarked) (hhm : h.Unmarked) (hN : g.nonTerminals.SameElements h.nonTerminals)
    (hr : r ∈ g.rules) (hq : q ∈ h.rules) (heq : lineTexts r = lineTexts q) : r = q := by
  have hclassify : Draft.classify g.nonTerminals = Draft.classify h.nonTerminals :=
    funext fun a => by simp only [Draft.classify, hN a]
  refine Prod.ext (Name.ext (List.cons.inj heq).1) ?_
  rw [hg.word_eq hr, hh.word_eq hq, hgm.names_eq hhm hr hq heq, hclassify]

end Grammar

/-! ## No production has the mark in it -/

theorem Name.numbered_text_ne_emptyMark (stem : Name) (k : Nat) :
    (stem.numbered k).text ≠ Word.emptyMark := by
  obtain ⟨digits, hdigits, -, htext⟩ := hasNumberedShape_iff.mp (hasNumberedShape_numbered stem k)
  intro hmark
  have hstem : stem.text.toList ≠ [] := fun hnil => stem.text_ne (String.toList_eq_nil_iff.mp hnil)
  have hlist : ['ε'] = stem.text.toList ++ digits := by
    have htoList := congrArg String.toList (hmark.symm.trans htext)
    rwa [String.toList_append, String.toList_ofList] at htoList
  have hlen := congrArg List.length hlist
  rw [List.length_append, List.length_singleton] at hlen
  have hpos := List.length_pos_iff.mpr hstem
  have hpos' := List.length_pos_iff.mpr hdigits
  omega

namespace Draft

/-- Marks are skipped when a grammar is built. -/
theorem unmarked_of_build {d : Draft String} {g : Grammar} (h : d.build = .ok g) : g.Unmarked := by
  obtain ⟨d', -, -, rfl⟩ := exists_of_build h
  intro r hr a ha
  obtain ⟨-, v, hv, hw⟩ := mem_rules_grammar.mp hr
  rw [← hw] at ha
  obtain ⟨b, hb, rfl⟩ := List.mem_map.mp ha
  obtain ⟨p, -, rfl⟩ := List.mem_map.mp hv
  have hname : (classify d'.variableSet b).text = b.text := by
    unfold classify
    split <;> rfl
  rw [hname]
  exact of_decide_eq_true (List.mem_filter.mp hb).2

end Draft

namespace Progress

variable {s : Progress}

/-- A symbol in a production was in a production before, or it was introduced. -/
theorem mem_of_mem_rules_apply {p : Pass} {r : Rule} {a : Symbol}
    (hr : r ∈ (s.apply p).grammar.rules) (ha : a ∈ r.2) :
    (∃ q ∈ s.grammar.rules, a ∈ q.2) ∨ ∃ k, a = .nonTerminal (s.supply.stem.numbered k) := by
  cases p with
  | removeErasing e => exact .inl (Grammar.mem_of_mem_rules_removeErasing hr ha)
  | removeUnits => exact .inl (Grammar.mem_of_mem_rules_removeUnits hr ha)
  | isolate =>
    refine (Grammar.mem_of_mem_rules_isolate hr ha).imp_right fun ⟨X, hX, heq⟩ => ?_
    rw [Grammar.map_snd_helpers] at hX
    obtain ⟨k, rfl⟩ := NameSupply.exists_numbered_of_mem_issueMany hX
    exact ⟨k, heq⟩
  | binarize =>
    refine (Grammar.mem_of_mem_rules_binarize hr ha).imp
      (fun ⟨q, hq, haq, _⟩ => ⟨q, hq, haq⟩) fun ⟨X, hX, heq⟩ => ?_
    rw [Grammar.map_fst_links] at hX
    obtain ⟨k, rfl⟩ := NameSupply.exists_numbered_of_mem_issueMany hX
    exact ⟨k, heq⟩

theorem unmarked_apply (h : s.grammar.Unmarked) (p : Pass) : (s.apply p).grammar.Unmarked := by
  intro r hr a ha
  rcases mem_of_mem_rules_apply hr ha with ⟨q, hq, haq⟩ | ⟨k, rfl⟩
  · exact h q hq a haq
  · exact Name.numbered_text_ne_emptyMark _ k

theorem unmarked_run : ∀ (passes : List Pass) {s : Progress}, s.grammar.Unmarked →
    (s.run passes).grammar.Unmarked
  | [], _, h => h
  | p :: passes, _, h => unmarked_run passes (unmarked_apply h p)

end Progress

namespace Grammar

/-- Two grammars, each made by passes from one that was built, have the same productions in the
same order if they have the same non-terminals and one listing, and if their names have neither
spaces nor newlines. The mark of the empty word and the arrow may be names like any other, and
the terminals need not be compared. -/
theorem rules_eq_of_listing_eq {d e : Draft String} {k l : Grammar} (hk : d.build = .ok k)
    (hl : e.build = .ok l) (ps qs : List Pass) :
    let g := ((Progress.start k).run ps).grammar
    let h := ((Progress.start l).run qs).grammar
    g.nonTerminals.SameElements h.nonTerminals → g.Plain → h.Plain →
      g.presentation.listing = h.presentation.listing → g.rules = h.rules := by
  intro g h hN hplain hplain' hlisting
  have hg : g.WellFormed :=
    (Progress.Safe.run ps (Progress.safe_start (Draft.wellFormed_of_build hk))).wellFormed
  have hh : h.WellFormed :=
    (Progress.Safe.run qs (Progress.safe_start (Draft.wellFormed_of_build hl))).wellFormed
  have hgm : g.Unmarked := Progress.unmarked_run ps (Draft.unmarked_of_build hk)
  have hhm : h.Unmarked := Progress.unmarked_run qs (Draft.unmarked_of_build hl)
  refine eq_of_map_eq_map (f := Presentation.lineTexts)
    (fun r hr q hq => eq_of_lineTexts_eq hg hh hgm hhm hN hr hq) ?_
  rw [← hg.readRows_listing hplain, ← hh.readRows_listing hplain', hlisting]

/-- The start symbol is named like the arrow, and a terminal like the mark of the empty word. -/
def arrowDraft : Draft String :=
  .ofDeclarations "->" [.nonTerminals ["N"], .terminals ["b", "ε"], .production "->" ["N"],
    .production "N" ["->", "ε", "b"], .erasing "N"]

/-- The same declared in another order, with no unit production and no mark. -/
def arrowDraft' : Draft String :=
  .ofDeclarations "->" [.terminals ["ε", "b"], .production "->" ["->", "b"],
    .production "N" ["->", "b"], .erasing "N"]

/-- The non-terminals and the terminals are listed in different orders, the productions are not. -/
theorem rules_eq_of_listing_eq_arrow :
    ∃ k l, arrowDraft.build = .ok k ∧ arrowDraft'.build = .ok l ∧
      let g := ((Progress.start k).run [.removeUnits]).grammar
      let h := ((Progress.start l).run []).grammar
      g.nonTerminals.SameElements h.nonTerminals ∧ g.nonTerminals ≠ h.nonTerminals ∧
        g.Plain ∧ h.Plain ∧ g.presentation.listing = "-> -> -> b\nN -> -> b\nN -> ε\n" ∧
        h.presentation.listing = g.presentation.listing ∧ g.rules = h.rules := by
  refine ⟨_, _, rfl, rfl, ?_⟩
  intro g h
  have hN : g.nonTerminals.SameElements h.nonTerminals := by decide +kernel
  have hplain : g.Plain := by decide +kernel
  have hplain' : h.Plain := by decide +kernel
  have hlisting : g.presentation.listing = h.presentation.listing := by decide +kernel
  have hrules := rules_eq_of_listing_eq (d := arrowDraft) (e := arrowDraft') rfl rfl
    [.removeUnits] [] hN hplain hplain' hlisting
  exact ⟨hN, by decide +kernel, hplain, hplain', by decide +kernel, hlisting.symm, hrules⟩

/-- A space in a name can hide what the productions are. -/
example : ∃ k l, (Draft.ofDeclarations "S" [.terminals ["a", "a a"],
      .production "S" ["a", "a"]]).build = .ok k ∧
    (Draft.ofDeclarations "S" [.terminals ["a", "a a"], .production "S" ["a a"]]).build = .ok l ∧
    k.presentation.listing = l.presentation.listing ∧ k.rules ≠ l.rules :=
  ⟨_, _, rfl, rfl, by decide +kernel, by decide +kernel⟩

end Grammar

end ChomskyForm
