import Mathlib.Data.List.Perm.Basic
import Mathlib.Logic.Function.Basic
import ChomskyForm.Renaming
import ChomskyForm.Proofs.UnorderedPasses

/-!
# The passes that draw names, up to a renaming

Which terminal gets which helper, and which production which links, depends on the order of
the productions and on the supply. Two runs on grammars that a renaming takes to one
another (`Grammar.RenamesTo`) issue as many names, and the renaming extends to them : a
helper goes to the helper of the same terminal, and the links of a production go, one by
one, to the links of its counterpart (`Grammar.exists_renaming_helpers`,
`Grammar.exists_renaming_shares`). The passes commute with every renaming that does so
(`Grammar.RenamesTo.isolate`, `Grammar.RenamesTo.binarize`).

The counterparts are found by listing the second run in the order of the first
(`exists_perm_of_perm_map`).
-/

namespace ChomskyForm

/-! ## Lists -/

/-- A rearrangement of the images comes from one of the list. -/
theorem exists_perm_of_perm_map {α β : Type} {f : α → β} {m : List β} {l : List α}
    (h : m.Perm (l.map f)) : ∃ k : List α, k.map f = m ∧ k.Perm l := by
  have himage : List.Forall₂ (fun b a => b = f a) (l.map f) l :=
    List.forall₂_map_left_iff.mpr (List.forall₂_same.mpr fun _ _ => rfl)
  obtain ⟨k, hk, hperm⟩ := List.perm_comp_forall₂ h himage
  refine ⟨k, ?_, hperm⟩
  rw [← List.forall₂_map_right_iff, List.forall₂_eq_eq_eq] at hk
  exact hk.symm

/-- A list of pairs is known from its two columns. -/
theorem eq_of_map_fst_snd {α β : Type} {l m : List (α × β)} (hfst : l.map Prod.fst = m.map Prod.fst)
    (hsnd : l.map Prod.snd = m.map Prod.snd) : l = m := by
  rw [List.zip_of_prod hfst hsnd]
  exact (List.zip_of_prod rfl rfl).symm

/-- A renaming can be changed on distinct names as one likes. -/
theorem exists_renaming (ρ : NonTerminal → NonTerminal) : ∀ {Xs Ys : List NonTerminal},
    Xs.Nodup → Xs.length = Ys.length →
      ∃ σ : NonTerminal → NonTerminal, Xs.map σ = Ys ∧ ∀ A, A ∉ Xs → σ A = ρ A
  | [], [], _, _ => ⟨ρ, rfl, fun _ _ => rfl⟩
  | X :: Xs, Y :: Ys, hX, hlen => by
    rw [List.nodup_cons] at hX
    obtain ⟨σ, hσ, hρ⟩ := exists_renaming ρ hX.2 (Nat.succ.inj hlen)
    have hXs : Xs.map (Function.update σ X Y) = Ys := by
      rw [← hσ]
      refine List.map_congr_left fun A hA => Function.update_of_ne ?_ _ _
      rintro rfl
      exact hX.1 hA
    refine ⟨Function.update σ X Y, ?_, fun A hA => ?_⟩
    · rw [List.map_cons, Function.update_self, hXs]
    · rw [List.mem_cons, not_or] at hA
      rw [Function.update_of_ne hA.1, hρ A hA.2]

/-! ## Helpers in renamed words -/

section Helpers

variable {σ : NonTerminal → NonTerminal} {helpers others : List (Terminal × NonTerminal)}
  (hperm : (helpers.map (Prod.map id σ)).Perm others) (hnodup : (others.map Prod.fst).Nodup)
include hperm hnodup

theorem Symbol.rename_isolate_terminal (t : Terminal) :
    (isolate helpers (.terminal t)).rename σ = isolate others (.terminal t) := by
  have hkeys : t ∈ others.map Prod.fst ↔ t ∈ helpers.map Prod.fst := by
    rw [← (hperm.map Prod.fst).mem_iff, List.map_map]
    rfl
  rcases isolate_terminal helpers t with ⟨X, hX, hl⟩ | ⟨ht, hl⟩
  · have hσX : (t, σ X) ∈ others :=
      hperm.mem_iff.mp (List.mem_map_of_mem (f := Prod.map id σ) hX)
    rcases isolate_terminal others t with ⟨Y, hY, hr⟩ | ⟨ht, -⟩
    · have hone := List.inj_on_of_nodup_map hnodup hσX hY rfl
      rw [hl, hr]
      exact congrArg Symbol.nonTerminal (congrArg Prod.snd hone)
    · exact absurd (List.mem_map_of_mem (f := Prod.fst) hσX) ht
  · rcases isolate_terminal others t with ⟨Y, hY, -⟩ | ⟨-, hr⟩
    · exact absurd (hkeys.mp (List.mem_map_of_mem (f := Prod.fst) hY)) ht
    · rw [hl, hr]
      rfl

theorem Word.rename_isolate (w : Word) :
    (w.isolate helpers).rename σ = (w.rename σ).isolate others := by
  rcases Nat.lt_or_ge w.length 2 with hw | hw
  · rw [isolate_of_length_lt hw, isolate_of_length_lt (by rwa [length_rename])]
  · rw [isolate_of_two_le hw, isolate_of_two_le (by rwa [length_rename]), rename, rename,
      List.map_map, List.map_map]
    refine List.map_congr_left fun a _ => ?_
    cases a with
    | terminal t => exact Symbol.rename_isolate_terminal hperm hnodup t
    | nonTerminal A => rfl

end Helpers

/-! ## Renamed chains -/

namespace Word

variable {σ : NonTerminal → NonTerminal}

theorem linkCount_rename (w : Word) : (w.rename σ).linkCount = w.linkCount := by
  rw [linkCount, length_rename, linkCount]

theorem rename_chainHead : ∀ (w : Word) (Xs : List NonTerminal),
    (w.chainHead Xs).rename σ = (w.rename σ).chainHead (Xs.map σ)
  | _ :: _ :: _ :: _, _ :: _ => rfl
  | [], _ | [_], _ | [_, _], _ | _ :: _ :: _ :: _, [] => rfl

theorem map_chainLinks : ∀ (w : Word) (Xs : List NonTerminal),
    (w.chainLinks Xs).map (renameRule σ) = (w.rename σ).chainLinks (Xs.map σ)
  | _ :: t :: u :: w, X :: Xs => by
    rw [chainLinks, List.map_cons, map_chainLinks, renameRule, rename_chainHead]
    rfl
  | [], _ | [_], _ | [_, _], _ | _ :: _ :: _ :: _, [] => rfl

/-- A chain uses no more names than it has links. -/
theorem chainHead_take : ∀ (w : Word) (Xs : List NonTerminal),
    w.chainHead (Xs.take w.linkCount) = w.chainHead Xs
  | _ :: _ :: _ :: _, _ :: _ => rfl
  | [], _ | [_], _ | [_, _], _ | _ :: _ :: _ :: _, [] => rfl

theorem chainLinks_take : ∀ (w : Word) (Xs : List NonTerminal),
    w.chainLinks (Xs.take w.linkCount) = w.chainLinks Xs
  | _ :: t :: u :: w, X :: Xs => by
    have hhead := chainHead_take (t :: u :: w) Xs
    have hlinks := chainLinks_take (t :: u :: w) Xs
    show (X, chainHead (t :: u :: w) (Xs.take w.length)) ::
      chainLinks (t :: u :: w) (Xs.take w.length) = _
    exact congrArg₂ List.cons (congrArg (Prod.mk X) hhead) hlinks
  | [], _ | [_], _ | [_, _], _ | _ :: _ :: _ :: _, [] => rfl

end Word

namespace Grammar

variable {g h : Grammar} {s t : NameSupply} {ρ σ : NonTerminal → NonTerminal}

/-! ## Renamed grammars -/

theorem Alike.renamesTo (hgh : g.Alike h) : g.RenamesTo id h where
  start := hgh.start
  nonTerminals := by
    rw [List.map_id]
    exact hgh.nonTerminals.perm
  terminals := hgh.terminals
  rules := by
    rw [renameRule_id, List.map_id]
    exact hgh.perm_rules

theorem renameRule_congr (hg : g.WellFormed) (hσ : ∀ A ∈ g.nonTerminals, σ A = ρ A) {r : Rule}
    (hr : r ∈ g.rules) : renameRule σ r = renameRule ρ r :=
  Prod.ext (hσ _ (hg.keys_mem _ (fst_mem_keys hr)))
    (Word.rename_congr fun A hA => hσ A (hg.declares r hr _ hA))

namespace RenamesTo

/-- Only the non-terminals of the grammar count. -/
theorem congr (hgh : g.RenamesTo ρ h) (hg : g.WellFormed)
    (hσ : ∀ A ∈ g.nonTerminals, σ A = ρ A) : g.RenamesTo σ h where
  start := (hσ _ hg.start_mem).trans hgh.start
  nonTerminals := by
    rw [List.map_congr_left hσ]
    exact hgh.nonTerminals
  terminals := hgh.terminals
  rules := by
    rw [List.map_congr_left fun r hr => renameRule_congr hg hσ hr]
    exact hgh.rules

theorem injOn (hgh : g.RenamesTo ρ h) {A B : NonTerminal} (hA : A ∈ g.nonTerminals)
    (hB : B ∈ g.nonTerminals) (hAB : ρ A = ρ B) : A = B :=
  List.inj_on_of_nodup_map (hgh.nonTerminals.nodup_iff.mpr h.nonTerminals.nodup) hA hB hAB

theorem mem_rules_iff (hgh : g.RenamesTo ρ h) {r : Rule} :
    r ∈ h.rules ↔ ∃ q ∈ g.rules, renameRule ρ q = r :=
  hgh.rules.mem_iff.symm.trans List.mem_map

theorem crowdedTerminals (hgh : g.RenamesTo ρ h) :
    g.crowdedTerminals.SameElements h.crowdedTerminals := by
  intro t
  rw [mem_crowdedTerminals, mem_crowdedTerminals]
  refine ⟨fun ⟨q, hq, hlen, ht⟩ => ?_, fun ⟨r, hr, hlen, ht⟩ => ?_⟩
  · refine ⟨renameRule ρ q, hgh.mem_rules_iff.mpr ⟨q, hq, rfl⟩, ?_, Word.terminal_mem_rename.mpr ht⟩
    rwa [renameRule, Word.length_rename]
  · obtain ⟨q, hq, rfl⟩ := hgh.mem_rules_iff.mp hr
    rw [renameRule, Word.length_rename] at hlen
    exact ⟨q, hq, hlen, Word.terminal_mem_rename.mp ht⟩

end RenamesTo

/-! ## Isolation -/

/-- The helper of a terminal goes to the helper of the same terminal. -/
theorem exists_renaming_helpers (hgh : g.RenamesTo ρ h) (hs : s.Avoids g.nonTerminals) :
    ∃ σ : NonTerminal → NonTerminal, (∀ A ∈ g.nonTerminals, σ A = ρ A) ∧
      ((g.isolate s).helpers.map (Prod.map id σ)).Perm (h.isolate t).helpers := by
  have hterminals := hgh.crowdedTerminals.perm
  rw [← map_fst_helpers (s := s), ← map_fst_helpers (s := t)] at hterminals
  obtain ⟨others, hfst, hperm⟩ := exists_perm_of_perm_map hterminals
  have hlen : ((g.isolate s).helpers.map Prod.snd).length = (others.map Prod.snd).length := by
    simpa using (congrArg List.length hfst).symm
  obtain ⟨σ, hσ, hρ⟩ := exists_renaming ρ nodup_snd_helpers hlen
  refine ⟨σ, fun A hA => hρ A (not_mem_helpers hs hA), ?_⟩
  rw [eq_of_map_fst_snd (l := (g.isolate s).helpers.map (Prod.map id σ)) (m := others) ?_ ?_]
  · exact hperm
  · rw [hfst, List.map_map]
    rfl
  · rw [← hσ, List.map_map, List.map_map]
    rfl

theorem perm_helpers
    (hperm : ((g.isolate s).helpers.map (Prod.map id σ)).Perm (h.isolate t).helpers) :
    (((g.isolate s).helpers.map Prod.snd).map σ).Perm ((h.isolate t).helpers.map Prod.snd) := by
  have hnames := hperm.map Prod.snd
  rw [List.map_map] at hnames
  rwa [List.map_map]

/-- Isolation commutes with a renaming that takes helpers to helpers. -/
theorem RenamesTo.isolate (hgh : g.RenamesTo σ h) (hg : (Progress.mk g s).Safe)
    (hh : (Progress.mk h t).Safe)
    (hperm : ((g.isolate s).helpers.map (Prod.map id σ)).Perm (h.isolate t).helpers) :
    (g.isolate s).grammar.RenamesTo σ (h.isolate t).grammar where
  start := hgh.start
  nonTerminals := by
    rw [toList_nonTerminals_isolate hg.wellFormed hg.nonTerminals,
      toList_nonTerminals_isolate hh.wellFormed hh.nonTerminals, List.map_append]
    exact hgh.nonTerminals.append (perm_helpers hperm)
  terminals := hgh.terminals
  rules := by
    have hnodup : ((h.isolate t).helpers.map Prod.fst).Nodup := by
      rw [map_fst_helpers]
      exact h.crowdedTerminals.nodup
    rw [rules_isolate hg.wellFormed hg.nonTerminals, rules_isolate hh.wellFormed hh.nonTerminals,
      List.map_append, List.map_map, List.map_map]
    refine List.Perm.append ?_ ?_
    · have hcommute : ∀ r ∈ g.rules, renameRule σ (isolateRule (g.isolate s).helpers r) =
          isolateRule (h.isolate t).helpers (renameRule σ r) := fun r _ =>
        Prod.ext rfl (Word.rename_isolate hperm hnodup r.2)
      have hrules := hgh.rules.map (isolateRule (h.isolate t).helpers)
      rw [List.map_map] at hrules
      exact (List.map_congr_left hcommute) ▸ hrules
    · have hhelpers := hperm.map helperRule
      rwa [List.map_map] at hhelpers

/-! ## Splitting -/

/-- The productions with the names that their links take. -/
def shares (g : Grammar) (s : NameSupply) : List (Rule × List NonTerminal) :=
  (g.dealt s).map fun d => (d.1, d.2.take d.1.2.linkCount)

/-- A production and the names of its links, renamed. -/
def renameShare (σ : NonTerminal → NonTerminal) (d : Rule × List NonTerminal) :
    Rule × List NonTerminal := (renameRule σ d.1, d.2.map σ)

theorem map_fst_shares : (g.shares s).map Prod.fst = g.rules := by
  rw [shares, List.map_map, ← map_fst_dealt (s := s)]
  rfl

theorem fst_mem_rules_of_mem_shares {d : Rule × List NonTerminal} (hd : d ∈ g.shares s) :
    d.1 ∈ g.rules := by
  rw [← map_fst_shares (s := s)]
  exact List.mem_map_of_mem hd

theorem length_of_mem_shares {d : Rule × List NonTerminal} (hd : d ∈ g.shares s) :
    d.2.length = d.1.2.linkCount := by
  obtain ⟨c, hc, rfl⟩ := List.mem_map.mp hd
  exact List.length_take_of_le (linkCount_le_of_mem_dealt hc)

theorem map_length_names {l : List (Rule × List NonTerminal)}
    (hl : ∀ d ∈ l, d.2.length = d.1.2.linkCount) :
    (l.map Prod.snd).map List.length = (l.map Prod.fst).map fun r => r.2.linkCount := by
  rw [List.map_map, List.map_map]
  exact List.map_congr_left hl

theorem links_eq_shares : (g.binarize s).links =
    (g.shares s).flatMap fun d => d.1.2.chainLinks d.2 := by
  rw [links_binarize, shares, List.flatMap_map]
  simp only [Word.chainLinks_take]

theorem map_headRule_dealt : (g.dealt s).map headRule = (g.shares s).map headRule := by
  rw [shares, List.map_map]
  exact List.map_congr_left fun d _ => Prod.ext rfl (Word.chainHead_take d.1.2 d.2).symm

/-- A chain takes all the names of its share. -/
theorem map_fst_chainLinks_of_mem_shares {d : Rule × List NonTerminal} (hd : d ∈ g.shares s) :
    (d.1.2.chainLinks d.2).map Prod.fst = d.2 := by
  rw [Word.map_fst_chainLinks, List.take_of_length_le (Nat.le_of_eq (length_of_mem_shares hd))]

theorem map_fst_links_eq_flatten :
    (g.binarize s).links.map Prod.fst = ((g.shares s).map Prod.snd).flatten := by
  rw [links_eq_shares, List.map_flatMap, ← List.flatMap_def]
  exact List.flatMap_congr fun d hd => map_fst_chainLinks_of_mem_shares hd

/-- If all the names together are renamed to those of the counterparts, and each counterpart
has as many, then those of each are. -/
theorem map_renameShare_eq {l m : List (Rule × List NonTerminal)}
    (hfst : (l.map Prod.fst).map (renameRule σ) = m.map Prod.fst)
    (hnames : (l.map Prod.snd).flatten.map σ = (m.map Prod.snd).flatten)
    (hlengths : (l.map Prod.snd).map List.length = (m.map Prod.snd).map List.length) :
    l.map (renameShare σ) = m := by
  refine eq_of_map_fst_snd ?_ ?_
  · rw [← hfst, List.map_map, List.map_map]
    rfl
  · have hcolumn : (l.map (renameShare σ)).map Prod.snd = (l.map Prod.snd).map (List.map σ) := by
      rw [List.map_map, List.map_map]
      rfl
    rw [hcolumn, List.eq_iff_flatten_eq, ← List.map_flatten, ← hlengths, List.map_map]
    exact ⟨hnames, List.map_congr_left fun Xs _ => List.length_map σ⟩

/-- The links of a production go, one by one, to the links of its counterpart. -/
theorem exists_renaming_shares (hgh : g.RenamesTo ρ h) (hg : g.WellFormed)
    (hs : s.Avoids g.nonTerminals) :
    ∃ σ : NonTerminal → NonTerminal, (∀ A ∈ g.nonTerminals, σ A = ρ A) ∧
      ((g.shares s).map (renameShare σ)).Perm (h.shares t) := by
  have hrules := hgh.rules
  rw [← map_fst_shares (g := h) (s := t)] at hrules
  obtain ⟨others, hfst, hperm⟩ := exists_perm_of_perm_map hrules
  -- counterparts take equally many names
  have hlengths : (others.map Prod.snd).map List.length =
      ((g.shares s).map Prod.snd).map List.length := by
    rw [map_length_names fun d hd => length_of_mem_shares (hperm.subset hd),
      map_length_names fun d hd => length_of_mem_shares hd, hfst, map_fst_shares, List.map_map]
    exact List.map_congr_left fun r _ => Word.linkCount_rename r.2
  have hnodup := nodup_fst_links (g := g) (s := s)
  rw [map_fst_links_eq_flatten] at hnodup
  have hlen : ((g.shares s).map Prod.snd).flatten.length =
      (others.map Prod.snd).flatten.length := by
    rw [List.length_flatten, List.length_flatten, hlengths]
  obtain ⟨σ, hσ, hρ⟩ := exists_renaming ρ hnodup hlen
  have hagree : ∀ A ∈ g.nonTerminals, σ A = ρ A := fun A hA => by
    refine hρ A ?_
    rw [← map_fst_links_eq_flatten]
    exact not_mem_links hs hA
  have hrename : (g.shares s).map (renameShare σ) = others := by
    refine map_renameShare_eq ?_ hσ hlengths.symm
    rw [map_fst_shares, hfst]
    exact List.map_congr_left fun r hr => renameRule_congr hg hagree hr
  exact ⟨σ, hagree, hrename ▸ hperm⟩

theorem perm_links (hperm : ((g.shares s).map (renameShare σ)).Perm (h.shares t)) :
    (((g.binarize s).links.map Prod.fst).map σ).Perm ((h.binarize t).links.map Prod.fst) := by
  have hnames := (hperm.map Prod.snd).flatten
  rw [List.map_map] at hnames
  rw [map_fst_links_eq_flatten, map_fst_links_eq_flatten, List.map_flatten, List.map_map]
  exact hnames

/-- Splitting commutes with a renaming that takes the links of a production to those of its
counterpart. -/
theorem RenamesTo.binarize (hgh : g.RenamesTo σ h) (hg : (Progress.mk g s).Safe)
    (hh : (Progress.mk h t).Safe)
    (hperm : ((g.shares s).map (renameShare σ)).Perm (h.shares t)) :
    (g.binarize s).grammar.RenamesTo σ (h.binarize t).grammar where
  start := hgh.start
  nonTerminals := by
    rw [toList_nonTerminals_binarize hg.wellFormed hg.nonTerminals,
      toList_nonTerminals_binarize hh.wellFormed hh.nonTerminals, List.map_append]
    exact hgh.nonTerminals.append (perm_links hperm)
  terminals := hgh.terminals
  rules := by
    rw [rules_binarize hg.wellFormed hg.nonTerminals, rules_binarize hh.wellFormed hh.nonTerminals,
      map_headRule_dealt, map_headRule_dealt, links_eq_shares, links_eq_shares, List.map_append,
      List.map_flatMap, List.map_map]
    refine List.Perm.append ?_ ?_
    · have hheads := hperm.map headRule
      rw [List.map_map] at hheads
      have hcommute : ∀ d ∈ g.shares s, renameRule σ (headRule d) = headRule (renameShare σ d) :=
        fun d _ => Prod.ext rfl (Word.rename_chainHead d.1.2 d.2)
      exact (List.map_congr_left hcommute) ▸ hheads
    · have hlinks := hperm.flatMap_right fun d => d.1.2.chainLinks d.2
      rw [List.flatMap_map] at hlinks
      have hcommute : ∀ d ∈ g.shares s, (d.1.2.chainLinks d.2).map (renameRule σ) =
          (renameShare σ d).1.2.chainLinks (renameShare σ d).2 :=
        fun d _ => Word.map_chainLinks d.1.2 d.2
      exact (List.flatMap_congr hcommute) ▸ hlinks

end Grammar

end ChomskyForm
