import ChomskyForm.HelperTable
import ChomskyForm.Proofs.NormalFixedPoints
import ChomskyForm.Proofs.SpelledChains

/-!
# Isolation is undone by putting the terminals back

First the table that grows while words are being rewritten. What it holds depends only on the
terminals met so far (`HelperTable.holding`), and an entry stays as it was made. So a word
that is rewritten early has the helpers that it would have in the end
(`HelperTable.replace_holding`), and the walk through all productions does what isolation does
with a table made beforehand (`Grammar.isolateInTurn_eq_isolate`).

Then the way back. The isolated grammar knows what a helper stands for, from its production.
Replacing the helpers gives the old words, so that no two alternatives have become one, and
the old left-hand sides with their alternatives in the old order
(`Grammar.restored_helpers`).
-/

namespace ChomskyForm

/-! ## The table in the making -/

namespace HelperTable

variable {s : NameSupply} {S S' : OrderedSet Terminal}

/-- The table in which the given terminals have been entered, in this order. -/
def holding (s : NameSupply) (S : OrderedSet Terminal) : HelperTable :=
  ⟨S.toList.zip (s.issueMany S.toList.length).1, (s.issueMany S.toList.length).2⟩

theorem map_fst_holding (s : NameSupply) (S : OrderedSet Terminal) :
    (holding s S).helpers.map Prod.fst = S.toList :=
  List.map_fst_zip (Nat.le_of_eq (NameSupply.length_issueMany _ s).symm)

/-- A terminal that is not in the table is entered at its end. -/
theorem holding_insert {t : Terminal} (ht : t ∉ S) : holding s (S.insert t) =
    ⟨(holding s S).helpers ++ [(t, (holding s S).supply.issue.1)],
      (holding s S).supply.issue.2⟩ := by
  have hlength := (NameSupply.length_issueMany S.toList.length s).symm
  rw [holding, OrderedSet.toList_insert_of_not_mem ht, List.length_append, List.length_singleton,
    NameSupply.issueMany_succ, List.zip_append hlength]
  rfl

theorem find?_holding_of_not_mem {t : Terminal} (ht : t ∉ S) :
    ((holding s S).helpers.find? fun h => h.1 = t) = none := by
  rw [List.find?_eq_none]
  intro h hh heq
  have hmem : h.1 ∈ (holding s S).helpers.map Prod.fst := List.mem_map_of_mem hh
  rw [map_fst_holding, of_decide_eq_true heq] at hmem
  exact ht hmem

/-- What is in the table stays where it is. -/
theorem helpers_prefix_insertAll : ∀ (l : List Terminal) (S : OrderedSet Terminal),
    (holding s S).helpers <+: (holding s (S.insertAll l)).helpers
  | [], _ => List.prefix_refl _
  | t :: l, S => by
    refine .trans ?_ (helpers_prefix_insertAll l (S.insert t))
    by_cases ht : t ∈ S
    · have hsame : S.insert t = S := OrderedSet.insert_of_mem ht
      exact hsame.symm ▸ List.prefix_refl _
    · rw [holding_insert ht]
      exact List.prefix_append _ _

/-- A terminal is entered unless it is in the table, and has the entry that it keeps. -/
theorem helper_holding (s : NameSupply) (S : OrderedSet Terminal) (t : Terminal) :
    ∃ X, (holding s S).helper t = (X, holding s (S.insert t)) ∧
      ((holding s (S.insert t)).helpers.find? fun h => h.1 = t) = some (t, X) := by
  by_cases ht : t ∈ S
  · rw [OrderedSet.insert_of_mem ht]
    obtain ⟨h, hh, rfl⟩ : ∃ h ∈ (holding s S).helpers, h.1 = t := by
      rwa [← List.mem_map, map_fst_holding]
    cases hf : (holding s S).helpers.find? fun d => d.1 = h.1 with
    | none => simpa using List.find?_eq_none.mp hf h hh
    | some d =>
      have hd : d.1 = h.1 := by simpa using List.find?_some hf
      exact ⟨d.2, by rw [helper, hf], congrArg some (Prod.ext hd rfl)⟩
  · have hnone := find?_holding_of_not_mem (s := s) ht
    refine ⟨(holding s S).supply.issue.1, ?_, ?_⟩
    · rw [helper, hnone, holding_insert ht]
    · rw [holding_insert ht, List.find?_append, hnone]
      simp

/-! ## Rewriting with the table -/

end HelperTable

/-- The terminals of a right-hand side that need a helper. -/
def Word.crowded (w : Word) : List Terminal :=
  if w.length < 2 then [] else w.filterMap Symbol.terminal?

namespace HelperTable

variable {s : NameSupply} {H : List (Terminal × NonTerminal)}

/-- Symbols are replaced as they would be with all of a later table. -/
theorem replace_holding : ∀ {w : Word} {S : OrderedSet Terminal},
    (holding s (S.insertAll (w.filterMap Symbol.terminal?))).helpers <+: H →
      replace w (holding s S) =
        (w.map (Symbol.isolate H), holding s (S.insertAll (w.filterMap Symbol.terminal?)))
  | [], _, _ => rfl
  | .terminal t :: w, S, hH => by
    obtain ⟨X, hX, hfound⟩ := helper_holding s S t
    have hkeep := helpers_prefix_insertAll (s := s) (w.filterMap Symbol.terminal?) (S.insert t)
    have hsymbol : Symbol.isolate H (.terminal t) = .nonTerminal X := by
      rw [Symbol.isolate, (hkeep.trans hH).find?_eq_some hfound]
    have hrest := replace_holding (S := S.insert t) hH
    rw [replace, hX]
    simp only [hrest, List.map_cons, hsymbol]
    rfl
  | .nonTerminal A :: w, S, hH => by
    have hrest := replace_holding (w := w) hH
    rw [replace, hrest]
    rfl

theorem rewrite_holding {w : Word} {S : OrderedSet Terminal}
    (hH : (holding s (S.insertAll w.crowded)).helpers <+: H) :
    (holding s S).rewrite w = (w.isolate H, holding s (S.insertAll w.crowded)) := by
  unfold rewrite Word.isolate Word.crowded at *
  split
  · rfl
  · rename_i hw
    rw [if_neg hw] at hH
    exact replace_holding hH

theorem rewriteAll_holding : ∀ {ws : List Word} {vs : OrderedSet Word} {S : OrderedSet Terminal},
    (holding s (S.insertAll (ws.flatMap Word.crowded))).helpers <+: H →
      Productions.rewriteAll rewrite ws vs (holding s S) = (vs.insertAll (ws.map (Word.isolate H)),
        holding s (S.insertAll (ws.flatMap Word.crowded)))
  | [], _, _, _ => rfl
  | w :: ws, vs, S, hH => by
    rw [List.flatMap_cons, OrderedSet.insertAll_append] at hH ⊢
    have hkeep := helpers_prefix_insertAll (s := s) (ws.flatMap Word.crowded)
      (S.insertAll w.crowded)
    rw [Productions.rewriteAll, rewrite_holding (hkeep.trans hH)]
    exact rewriteAll_holding hH

theorem rewriteEntries_holding : ∀ {l : List (NonTerminal × OrderedSet Word)} {p : Productions}
    {S : OrderedSet Terminal},
    (holding s (S.insertAll (l.flatMap fun e => e.2.toList.flatMap Word.crowded))).helpers <+: H →
      Productions.rewriteEntries rewrite l p (holding s S) =
        (p.insertAll (l.map fun e => (e.1, e.2.map (Word.isolate H))),
          holding s (S.insertAll (l.flatMap fun e => e.2.toList.flatMap Word.crowded)))
  | [], _, _, _ => rfl
  | (A, ws) :: l, p, S, hH => by
    rw [List.flatMap_cons, OrderedSet.insertAll_append] at hH ⊢
    have hkeep := helpers_prefix_insertAll (s := s)
      (l.flatMap fun e => e.2.toList.flatMap Word.crowded)
      (S.insertAll (ws.toList.flatMap Word.crowded))
    have hrest := rewriteEntries_holding (p := p.insert A (ws.map (Word.isolate H))) hH
    rw [Productions.rewriteEntries, rewriteAll_holding (hkeep.trans hH)]
    exact hrest

end HelperTable

namespace Grammar

variable {g : Grammar} {s : NameSupply}

theorem crowdedTerminals_eq (g : Grammar) : g.crowdedTerminals =
    .ofList (g.productions.entries.flatMap fun e => e.2.toList.flatMap Word.crowded) := by
  have hfilter : ∀ rs : List Rule, ((rs.filter fun r => 2 ≤ r.2.length).flatMap fun r =>
      r.2.filterMap Symbol.terminal?) = rs.flatMap fun r => r.2.crowded := fun rs => by
    induction rs with
    | nil => rfl
    | cons r rs ih =>
      rcases Nat.lt_or_ge r.2.length 2 with hr | hr
      · rw [List.filter_cons_of_neg (by simpa using hr), ih, List.flatMap_cons, Word.crowded,
          if_pos hr, List.nil_append]
      · rw [List.filter_cons_of_pos (by simpa using hr), List.flatMap_cons, ih, List.flatMap_cons,
          Word.crowded, if_neg (Nat.not_lt.mpr hr)]
  rw [crowdedTerminals, hfilter, rules, Productions.rules, List.flatMap_assoc]
  simp only [List.flatMap_map]

/-- The table that grows is in the end the one that is made beforehand. -/
theorem isolateInTurn_eq_isolate (g : Grammar) (s : NameSupply) :
    g.isolateInTurn s = g.isolate s := by
  have hwalk := HelperTable.rewriteEntries_holding (s := s) (l := g.productions.entries)
    (p := .empty) (S := .empty) (List.prefix_refl _)
  have hcrowded : OrderedSet.insertAll .empty (g.productions.entries.flatMap fun e =>
      e.2.toList.flatMap Word.crowded) = g.crowdedTerminals := g.crowdedTerminals_eq.symm
  have hblank : HelperTable.holding s .empty = ⟨[], s⟩ := rfl
  have hmap : OrderedMap.insertAll .empty (g.productions.entries.map fun e =>
      (e.1, e.2.map (Word.isolate (HelperTable.holding s g.crowdedTerminals).helpers))) =
      g.productions.mapValues
        (OrderedSet.map (Word.isolate (HelperTable.holding s g.crowdedTerminals).helpers)) :=
    OrderedMap.insertAll_entries (g.productions.mapValues _)
  rw [hcrowded, hmap, hblank] at hwalk
  rw [isolateInTurn, hwalk]
  rfl

/-! ## Reading the helpers back -/

end Grammar

/-- A terminal replaced by its helper. -/
def Symbol.standIn (helper : Terminal → NonTerminal) : Symbol → Symbol
  | .terminal t => .nonTerminal (helper t)
  | .nonTerminal A => .nonTerminal A

/-- Every terminal replaced by its helper, in a word of two or more symbols. -/
def Word.standIn (helper : Terminal → NonTerminal) (w : Word) : Word :=
  if w.length < 2 then w else w.map (Symbol.standIn helper)

namespace Grammar

/-- The productions of the other left-hand sides, with each of the names replaced by its
production. -/
def restored (h : Grammar) (names : List NonTerminal) : Productions :=
  h.productions.filterMap fun A ws =>
    if A ∈ names then none else some (ws.map (Word.expand (h.linkMeaning names)))

variable {g : Grammar} {s : NameSupply}

theorem crowdedTerminals_toList (g : Grammar) : g.crowdedTerminals.toList =
    ((g.rules.filter fun r => 2 ≤ r.2.length).flatMap fun r =>
      r.2.filterMap Symbol.terminal?).eraseDups := OrderedSet.toList_ofList _

/-- The table of helpers is the graph of a function on the crowded terminals. -/
theorem exists_helper (g : Grammar) (s : NameSupply) : ∃ helper : Terminal → NonTerminal,
    (g.isolate s).helpers = g.crowdedTerminals.toList.map fun t => (t, helper t) := by
  obtain ⟨helper, hhelper, -⟩ := exists_renaming id g.crowdedTerminals.nodup
    (NameSupply.length_issueMany g.crowdedTerminals.toList.length s).symm
  refine ⟨helper, eq_of_map_fst_snd ?_ ?_⟩
  · rw [map_fst_helpers, List.map_map]
    exact (List.map_id _).symm
  · rw [map_snd_helpers, List.map_map, ← hhelper]
    rfl

theorem isolate_eq_standIn {helper : Terminal → NonTerminal}
    (hhelper : (g.isolate s).helpers = g.crowdedTerminals.toList.map fun t => (t, helper t))
    {r : Rule} (hr : r ∈ g.rules) : r.2.isolate (g.isolate s).helpers = r.2.standIn helper := by
  unfold Word.isolate Word.standIn
  split
  · rfl
  · rename_i hlong
    refine List.map_congr_left fun a ha => ?_
    cases a with
    | nonTerminal A => rfl
    | terminal t =>
      have ht : t ∈ g.crowdedTerminals :=
        mem_crowdedTerminals.mpr ⟨r, hr, Nat.not_lt.mp hlong, ha⟩
      rcases Symbol.isolate_terminal (g.isolate s).helpers t with ⟨X, hX, heq⟩ | ⟨hnot, -⟩
      · rw [hhelper] at hX
        obtain ⟨u, -, hu⟩ := List.mem_map.mp hX
        cases hu
        exact heq
      · rw [map_fst_helpers] at hnot
        exact absurd ht hnot

section Reading

variable (hg : g.WellFormed) (hs : s.Avoids g.nonTerminals)
include hg hs

/-- In the isolated grammar each helper has the production of its terminal. -/
theorem linkMeaning_isolate : (g.isolate s).grammar.linkMeaning
    ((g.isolate s).helpers.map Prod.snd) = meaningIn ((g.isolate s).helpers.map helperRule) := by
  funext X
  by_cases hX : X ∈ (g.isolate s).helpers.map Prod.snd
  · obtain ⟨x, hx, rfl⟩ := List.mem_map.mp hX
    have hentry : helperEntry x ∈ (g.isolate s).grammar.productions.entries := by
      rw [entries_isolate hg hs]
      exact List.mem_append_right _ (List.mem_map_of_mem hx)
    have halternatives : (g.isolate s).grammar.alternatives x.2 = .singleton [.terminal x.1] := by
      rw [alternatives, OrderedMap.find?_eq_some_iff.mpr hentry, Option.getD_some]
    rw [linkMeaning, if_pos hX, halternatives, meaningIn_helperRule nodup_snd_helpers hx]
    rfl
  · rw [linkMeaning, if_neg hX, meaningIn_helperRule_eq_none hX]

/-- Rewritten alternatives are read back in their old order. -/
theorem map_expand_map_isolate {e : NonTerminal × OrderedSet Word}
    (he : e ∈ g.productions.entries) :
    (e.2.map (Word.isolate (g.isolate s).helpers)).map
      (Word.expand (meaningIn ((g.isolate s).helpers.map helperRule))) = e.2 := by
  have hback : e.2.toList.map (Word.expand (meaningIn ((g.isolate s).helpers.map helperRule)) ∘
      Word.isolate (g.isolate s).helpers) = e.2.toList := by
    conv_rhs => rw [← List.map_id e.2.toList]
    refine List.map_congr_left fun w hw => ?_
    exact expand_isolate hg hs (Productions.mem_rules.mpr ⟨e.2, he, hw⟩)
  rw [OrderedSet.map, toList_map_isolate hg hs he, List.map_map, hback, e.2.ofList_toList]

theorem restored_helpers : (g.isolate s).grammar.restored ((g.isolate s).helpers.map Prod.snd) =
    g.productions := by
  refine OrderedMap.ext ?_
  rw [restored, linkMeaning_isolate hg hs]
  simp only [OrderedMap.filterMap, entries_isolate hg hs, List.filterMap_append,
    List.filterMap_map]
  -- the old left-hand sides are read back, and the helpers are left out
  have hold : ∀ e ∈ g.productions.entries, e.1 ∉ (g.isolate s).helpers.map Prod.snd := fun e he =>
    not_mem_helpers hs (hg.keys_mem e.1 (List.mem_map_of_mem he))
  have hhelpers : ∀ x ∈ (g.isolate s).helpers, x.2 ∈ (g.isolate s).helpers.map Prod.snd :=
    fun x hx => List.mem_map_of_mem hx
  rw [List.filterMap_congr (g := some) fun e he => ?_, List.filterMap_some,
    List.filterMap_eq_nil_iff.mpr fun x hx => ?_, List.append_nil]
  · simp [helperEntry, hhelpers x hx]
  · simp [hold e he, map_expand_map_isolate hg hs he]

end Reading

/-- Isolation is undone by putting the terminals back for their helpers. Whether the helpers are
drawn in turn or beforehand, each crowded terminal has one, in the order in which the terminals
first occur. In the long words these terminals are replaced and nothing else, every left-hand
side and every alternative stays in its place, and the productions of the helpers come last.
There is nothing left to isolate then. -/
theorem restored_isolate (hg : g.WellFormed) (hs : s.Avoids g.nonTerminals) :
    let h := (g.isolate s).grammar
    let crowded := ((g.rules.filter fun r => 2 ≤ r.2.length).flatMap fun r =>
      r.2.filterMap Symbol.terminal?).eraseDups
    g.isolateInTurn s = g.isolate s ∧
    ∃ helper : Terminal → NonTerminal,
      (g.isolate s).supply.issued = s.issued ++ crowded.map helper ∧
      (crowded.map helper).Nodup ∧
      (∀ r ∈ h.rules, 2 ≤ r.2.length → ∀ a ∈ r.2, a.isTerminal = false) ∧
      h.productions.entries.map (fun e => (e.1, e.2.toList)) =
        g.productions.entries.map (fun e => (e.1, e.2.toList.map (Word.standIn helper))) ++
          crowded.map (fun t => (helper t, [[.terminal t]])) ∧
      h.restored (crowded.map helper) = g.productions ∧
      ∀ s', h.isolate s' = ⟨[], h, s'⟩ := by
  intro h crowded
  refine ⟨g.isolateInTurn_eq_isolate s, ?_⟩
  obtain ⟨helper, hhelper⟩ := g.exists_helper s
  have hcrowded : g.crowdedTerminals.toList = crowded := g.crowdedTerminals_toList
  have hnames : (g.isolate s).helpers.map Prod.snd = crowded.map helper := by
    rw [hhelper, List.map_map, hcrowded]
    rfl
  refine ⟨helper, ?_, ?_, fun r hr hlong a ha => isTerminal_of_mem_isolate hr hlong ha, ?_, ?_, ?_⟩
  · rw [issued_isolate, hnames]
  · rw [← hnames]
    exact nodup_snd_helpers
  · rw [entries_isolate hg hs, List.map_append, List.map_map, List.map_map, hhelper, hcrowded,
      List.map_map]
    congr 1
    refine List.map_congr_left fun e he => Prod.ext rfl ?_
    have hwords := toList_map_isolate hg hs he
    rw [← hcrowded, ← hhelper]
    refine hwords.trans (List.map_congr_left fun w hw => ?_)
    exact isolate_eq_standIn hhelper (Productions.mem_rules.mpr ⟨e.2, he, hw⟩)
  · rw [← hnames]
    exact restored_helpers hg hs
  · exact isolate_eq_self (hg.trim.isolate s) (uncrowded_isolate g s)

/-- The supply has issued a name before, which is no helper. Both terminals are shared by two
left-hand sides, and the short production is left alone. -/
theorem restored_isolate_sums : ∃ g, (Draft.ofDeclarations "S" [.terminals ["+", "n"],
      .production "S" ["S", "+", "T"], .production "S" ["n"],
      .production "T" ["n", "+", "n"]]).build = .ok g ∧
    let s := g.supply.issue.2
    let h := (g.isolate s).grammar
    h.rules.map (fun r => (r.1.text, Word.text r.2)) = [("S", "S X1 T"), ("S", "n"),
        ("T", "X2 X1 X2"), ("X1", "+"), ("X2", "n")] ∧
      ∃ names, names.map Name.text = ["X1", "X2"] ∧ h.restored names = g.productions ∧
        g.isolateInTurn s = g.isolate s ∧ ∀ s', h.isolate s' = ⟨[], h, s'⟩ := by
  obtain ⟨g, hbuild, hissued, hrules⟩ : ∃ g, (Draft.ofDeclarations "S" [.terminals ["+", "n"],
      .production "S" ["S", "+", "T"], .production "S" ["n"],
      .production "T" ["n", "+", "n"]]).build = .ok g ∧
      (g.isolate g.supply.issue.2).supply.issued.map Name.text =
        g.supply.issue.2.issued.map Name.text ++ ["X1", "X2"] ∧
      (g.isolate g.supply.issue.2).grammar.rules.map (fun r => (r.1.text, Word.text r.2)) =
        [("S", "S X1 T"), ("S", "n"), ("T", "X2 X1 X2"), ("X1", "+"), ("X2", "n")] :=
    ⟨_, rfl, by decide +kernel, by decide +kernel⟩
  have hs : g.supply.issue.2.Avoids g.nonTerminals := fun A hA =>
    List.mem_append_left _ ((Progress.avoids_supply g).1 A hA)
  obtain ⟨hturn, helper, hnames, -, -, -, hrestored, hagain⟩ :=
    restored_isolate (Draft.wellFormed_of_build hbuild) hs
  rw [hnames, List.map_append] at hissued
  exact ⟨g, hbuild, hrules, _, List.append_cancel_left hissued, hrestored, hturn, hagain⟩

end Grammar

end ChomskyForm
