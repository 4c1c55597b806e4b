import ChomskyForm.ChainTable
import ChomskyForm.Proofs.RenamedPasses

/-!
# Splitting long words is undone by spelling out the links

First the chains whose links are drawn on the way. A word takes the names that the supply has
next, and these are the ones that would be dealt out to it (`ChainTable.split_eq`). So the walk
through all productions does what splitting does with all names at hand
(`Grammar.binarizeInTurn_eq_binarize`).

Then the way back. Given the split grammar and the names that were issued,
`Grammar.spelledRules` replaces links by their productions, round after round until none is left,
and keeps record of them (`Word.spell?`). A chain unfolds one symbol at a time : each round finds
one link, the last symbol of what it has so far (`Word.spell?_chainHead`).

So the split grammar gives back the productions of the grammar in order, each with its own
links (`Grammar.spelledRules_binarize`). A link is on one right-hand side only : moving the
links of a chain aside leaves the symbols of the word (`Word.perm_chain`).
-/

namespace ChomskyForm

/-! ## Chains in the making -/

namespace ChainTable

/-- The table when the chains of the words have been laid out with links from the given names. -/
def after (T : ChainTable) (ws : List Word) (Xs : List NonTerminal) : ChainTable :=
  ⟨T.chains.insertAll ((Word.allLinks ws Xs).map linkEntry),
    (T.supply.issueMany (Word.totalLinks ws)).2⟩

theorem after_append {T : ChainTable} {Xs : List NonTerminal} (vs ws : List Word) :
    (T.after vs Xs).after ws (Xs.drop (Word.totalLinks vs)) = T.after (vs ++ ws) Xs := by
  rw [after, after, after, allLinks_append, List.map_append, OrderedMap.insertAll_append,
    totalLinks_append, NameSupply.issueMany_add]

/-- The rest of a word is a chain of its own, whose head is the production of the link. -/
theorem lay_eq : ∀ {X : NonTerminal} {w : Word} {T : ChainTable} {Xs : List NonTerminal},
    (T.supply.issueMany w.linkCount).1 <+: Xs →
      lay X w T = ⟨T.chains.insertAll (((X, w.chainHead Xs) :: w.chainLinks Xs).map linkEntry),
        (T.supply.issueMany w.linkCount).2⟩
  | X, a :: b :: c :: w, T, _, ⟨rest, rfl⟩ => by
    rw [lay]
    exact lay_eq (X := T.supply.issue.1) (w := b :: c :: w) (List.prefix_append _ rest)
  | _, [], _, _, _ | _, [_], _, _, _ | _, [_, _], _, _, _ => rfl

theorem split_eq : ∀ {w : Word} {T : ChainTable} {Xs : List NonTerminal},
    (T.supply.issueMany w.linkCount).1 <+: Xs → T.split w = (w.chainHead Xs, T.after [w] Xs)
  | a :: b :: c :: w, T, _, ⟨rest, rfl⟩ => by
    have hrest := lay_eq (X := T.supply.issue.1) (w := b :: c :: w)
      (T := ⟨T.chains, T.supply.issue.2⟩) (List.prefix_append _ rest)
    rw [split, after, Word.allLinks, Word.allLinks, List.append_nil]
    exact congrArg (Prod.mk [a, .nonTerminal T.supply.issue.1]) hrest
  | [], _, _, _ | [_], _, _, _ | [_, _], _, _, _ => rfl

/-- The alternatives of a left-hand side take their links from left to right. -/
theorem rewriteAll_split : ∀ {ws : List Word} {vs : OrderedSet Word} {T : ChainTable}
    {Xs : List NonTerminal}, (T.supply.issueMany (Word.totalLinks ws)).1 <+: Xs →
      Productions.rewriteAll split ws vs T = (vs.insertAll (Word.chainHeads ws Xs), T.after ws Xs)
  | [], _, _, _, _ => rfl
  | w :: ws, vs, T, Xs, hXs => by
    obtain ⟨hw, hws⟩ := NameSupply.prefix_of_issueMany_add hXs
    have hrest := @rewriteAll_split ws (vs.insert (w.chainHead Xs)) (T.after [w] Xs) _ hws
    have hafter : (T.after [w] Xs).after ws (Xs.drop w.linkCount) = T.after (w :: ws) Xs :=
      after_append [w] ws
    rw [Productions.rewriteAll, split_eq hw]
    exact hrest.trans (congrArg (Prod.mk _) hafter)

theorem rewriteEntries_split : ∀ {l : List (NonTerminal × OrderedSet Word)} {p : Productions}
    {T : ChainTable} {Xs : List NonTerminal},
    (T.supply.issueMany (Word.totalLinks (l.flatMap fun e => e.2.toList))).1 <+: Xs →
      Productions.rewriteEntries split l p T =
        (p.insertAll (Productions.shortenEntries l Xs), T.after (l.flatMap fun e => e.2.toList) Xs)
  | [], _, _, _, _ => rfl
  | (A, ws) :: l, p, T, Xs, hXs => by
    rw [List.flatMap_cons, totalLinks_append] at hXs
    obtain ⟨hws, hl⟩ := NameSupply.prefix_of_issueMany_add hXs
    have hrest := rewriteEntries_split (T := T.after ws.toList Xs)
      (p := p.insert A (.ofList (Word.chainHeads ws.toList Xs))) hl
    rw [Productions.rewriteEntries, rewriteAll_split hws, List.flatMap_cons, ← after_append]
    exact hrest

end ChainTable

/-- Links that are drawn on the way are those that are dealt out beforehand. -/
theorem Grammar.binarizeInTurn_eq_binarize (g : Grammar) (s : NameSupply) :
    g.binarizeInTurn s = g.binarize s := by
  have hwords : (g.productions.entries.flatMap fun e => e.2.toList) = g.rules.map Prod.snd := by
    rw [rules, Productions.rules, List.map_flatMap]
    exact List.flatMap_congr fun e _ => (map_snd_map_mk e.1 e.2.toList).symm
  have hwalk := ChainTable.rewriteEntries_split (l := g.productions.entries) (p := .empty)
    (T := ⟨.empty, s⟩) (List.prefix_refl _)
  have hshorten : ∀ Xs, OrderedMap.insertAll .empty
      (Productions.shortenEntries g.productions.entries Xs) = g.productions.shorten Xs := fun Xs =>
    OrderedMap.insertAll_entries (g.productions.shorten Xs)
  -- the links are distinct, so that each has an entry of its own
  have hnodup : (((g.binarize s).links.map linkEntry).map Prod.fst).Nodup := by
    rw [map_fst_linkEntry]
    exact nodup_fst_links
  have hafter : ChainTable.after ⟨.empty, s⟩ (g.rules.map Prod.snd)
      (s.issueMany (Word.totalLinks (g.rules.map Prod.snd))).1 =
        ⟨⟨_, hnodup⟩, (g.binarize s).supply⟩ :=
    congrArg (ChainTable.mk · _) (OrderedMap.insertAll_entries ⟨_, hnodup⟩)
  have hlinks : Productions.rules ⟨_, hnodup⟩ = (g.binarize s).links := by
    rw [Productions.rules, List.flatMap_map]
    exact List.flatMap_singleton' _
  rw [hwords, hshorten, hafter] at hwalk
  rw [binarizeInTurn, hwalk]
  exact congrArg (Binarization.mk · _ _) hlinks

/-! ## Spelling out -/

/-- A word without links, and the links that were replaced on the way, round by round. -/
structure Spelling where
  word : Word
  links : List NonTerminal
  deriving DecidableEq

namespace Word

/-- The non-terminals of the word that stand for something else. -/
def abbreviations (σ : NonTerminal → Option Word) (w : Word) : List NonTerminal :=
  w.filterMap fun
    | .terminal _ => none
    | .nonTerminal A => (σ A).map fun _ => A

/-- Replace abbreviations round after round until none is left. No result if there still are
some after `n` rounds. -/
def spell? (σ : NonTerminal → Option Word) : Nat → Word → Option Spelling
  | 0, w => if w.abbreviations σ = [] then some ⟨w, []⟩ else none
  | n + 1, w =>
    if w.abbreviations σ = [] then some ⟨w, []⟩
    else (spell? σ n (w.expand σ)).map fun x => ⟨x.word, w.abbreviations σ ++ x.links⟩

variable {σ : NonTerminal → Option Word}

theorem abbreviations_append (v w : Word) :
    (v ++ w).abbreviations σ = v.abbreviations σ ++ w.abbreviations σ := List.filterMap_append

theorem abbreviations_eq_nil {w : Word} (h : ∀ A, .nonTerminal A ∈ w → σ A = none) :
    w.abbreviations σ = [] := by
  rw [abbreviations, List.filterMap_eq_nil_iff]
  intro a ha
  cases a with
  | terminal t => rfl
  | nonTerminal A => simp [h A ha]

theorem expand_append (v w : Word) : (v ++ w).expand σ = v.expand σ ++ w.expand σ := by
  induction v with
  | nil => rfl
  | cons a v ih => cases a <;> simp [expand, ih]

theorem spell?_of_none {w : Word} (h : ∀ A, .nonTerminal A ∈ w → σ A = none) (n : Nat) :
    w.spell? σ n = some ⟨w, []⟩ := by
  cases n <;> rw [spell?, if_pos (abbreviations_eq_nil h)]

/-- One round, if the last symbol is the only abbreviation. -/
theorem spell?_concat {v x : Word} {X : NonTerminal} (hv : ∀ A, .nonTerminal A ∈ v → σ A = none)
    (hX : σ X = some x) (n : Nat) : (v ++ [Symbol.nonTerminal X]).spell? σ (n + 1) =
      ((v ++ x).spell? σ n).map fun y => ⟨y.word, X :: y.links⟩ := by
  have habbreviations : (v ++ [Symbol.nonTerminal X]).abbreviations σ = [X] := by
    rw [abbreviations_append, abbreviations_eq_nil hv]
    simp [abbreviations, hX]
  have hexpand : (v ++ [Symbol.nonTerminal X]).expand σ = v ++ x := by
    rw [expand_append, expand_of_none hv]
    simp [expand, hX]
  rw [spell?, habbreviations, hexpand, if_neg (List.cons_ne_nil _ _)]
  rfl

/-- A chain is spelled out from left to right, one link a round. -/
theorem spell?_chainHead : ∀ {w : Word} {Xs : List NonTerminal} {v : Word} {n : Nat},
    (∀ l ∈ w.chainLinks Xs, σ l.1 = some l.2) → (∀ A, .nonTerminal A ∈ v ++ w → σ A = none) →
      w.linkCount ≤ n →
        (v ++ w.chainHead Xs).spell? σ n = some ⟨v ++ w, (w.chainLinks Xs).map Prod.fst⟩
  | s :: t :: u :: w, X :: Xs, v, n + 1, hlinks, hplain, hn => by
    have hsplit : v ++ s :: t :: u :: w = (v ++ [s]) ++ t :: u :: w := by simp
    have hX : σ X = some (chainHead (t :: u :: w) Xs) := hlinks _ List.mem_cons_self
    have hv : ∀ A, .nonTerminal A ∈ v ++ [s] → σ A = none := fun A hA => by
      refine hplain A ?_
      rw [hsplit]
      exact List.mem_append_left _ hA
    have hrest : ((v ++ [s]) ++ chainHead (t :: u :: w) Xs).spell? σ n =
        some ⟨(v ++ [s]) ++ t :: u :: w, (chainLinks (t :: u :: w) Xs).map Prod.fst⟩ :=
      spell?_chainHead (fun l hl => hlinks l (List.mem_cons_of_mem _ hl)) (hsplit ▸ hplain)
        (Nat.le_of_succ_le_succ hn)
    have hhead : v ++ chainHead (s :: t :: u :: w) (X :: Xs) =
        (v ++ [s]) ++ [Symbol.nonTerminal X] := by simp [chainHead]
    rw [hhead, spell?_concat hv hX, hrest, hsplit]
    rfl
  | [], _, _, n, _, hplain, _ | [_], _, _, n, _, hplain, _ | [_, _], _, _, n, _, hplain, _
  | _ :: _ :: _ :: _, [], _, n, _, hplain, _ => spell?_of_none hplain n

/-- A chain has the symbols of its word, and each of its links once. -/
theorem perm_chain : ∀ (w : Word) (Xs : List NonTerminal),
    (w.chainHead Xs ++ (w.chainLinks Xs).flatMap Prod.snd).Perm
      (w ++ ((w.chainLinks Xs).map Prod.fst).map .nonTerminal)
  | s :: t :: u :: w, X :: Xs => by
    have hrest := (perm_chain (t :: u :: w) Xs).cons (.nonTerminal X)
    exact (hrest.trans List.perm_middle.symm).cons s
  | [], _ | [_], _ | [_, _], _ | _ :: _ :: _ :: _, [] => .refl _

end Word

namespace Grammar

variable {g : Grammar} {s : NameSupply}

/-- What a link stands for : its production. -/
def linkMeaning (h : Grammar) (links : List NonTerminal) (X : NonTerminal) : Option Word :=
  if X ∈ links then (h.alternatives X).toList.head? else none

/-- The productions whose left-hand side is no link, with the links spelled out. No more
rounds are needed than there are links. -/
def spelledRules (h : Grammar) (links : List NonTerminal) : List (NonTerminal × Option Spelling) :=
  (h.rules.filter fun r => r.1 ∉ links).map fun r =>
    (r.1, r.2.spell? (h.linkMeaning links) links.length)

theorem alternatives_link {l : NonTerminal × Word} (hl : l ∈ (g.binarize s).links) :
    (g.binarize s).grammar.alternatives l.1 = .singleton l.2 := by
  rw [alternatives, OrderedMap.find?_eq_some_iff.mpr (linkEntry_mem_entries hl), Option.getD_some]

theorem linkMeaning_of_mem {l : NonTerminal × Word} (hl : l ∈ (g.binarize s).links) :
    (g.binarize s).grammar.linkMeaning ((g.binarize s).links.map Prod.fst) l.1 = some l.2 := by
  rw [linkMeaning, if_pos (List.mem_map_of_mem hl), alternatives_link hl]
  rfl

section Links

variable (hg : g.WellFormed) (hs : s.Avoids g.nonTerminals)
include hg hs

/-- The productions that are no link's, each with the links that it took. -/
theorem filter_rules_binarize :
    ((g.binarize s).grammar.rules.filter fun r => r.1 ∉ (g.binarize s).links.map Prod.fst) =
      (g.shares s).map headRule := by
  have hheads : ∀ r ∈ (g.shares s).map headRule, r.1 ∉ (g.binarize s).links.map Prod.fst := by
    intro r hr
    obtain ⟨d, hd, rfl⟩ := List.mem_map.mp hr
    exact not_mem_links hs (hg.keys_mem d.1.1 (fst_mem_keys (fst_mem_rules_of_mem_shares hd)))
  have hlinks : ∀ l ∈ (g.binarize s).links, l.1 ∈ (g.binarize s).links.map Prod.fst :=
    fun l hl => List.mem_map_of_mem hl
  rw [rules_binarize hg hs, map_headRule_dealt, List.filter_append,
    List.filter_eq_self.mpr (by simpa using hheads),
    List.filter_eq_nil_iff.mpr (by simpa using hlinks), List.append_nil]

/-- Each production is spelled out to what it was, with the links that it took. -/
theorem spelledRules_eq_shares :
    (g.binarize s).grammar.spelledRules ((g.binarize s).links.map Prod.fst) =
      (g.shares s).map fun d => (d.1.1, some ⟨d.1.2, d.2⟩) := by
  rw [spelledRules, filter_rules_binarize hg hs, List.map_map]
  refine List.map_congr_left fun d hd => Prod.ext rfl ?_
  have hchain : ∀ l ∈ d.1.2.chainLinks d.2, l ∈ (g.binarize s).links := fun l hl => by
    rw [links_eq_shares]
    exact List.mem_flatMap_of_mem hd hl
  have hplain : ∀ A, .nonTerminal A ∈ d.1.2 → (g.binarize s).grammar.linkMeaning
      ((g.binarize s).links.map Prod.fst) A = none := fun A hA =>
    if_neg (not_mem_links hs (hg.declares _ (fst_mem_rules_of_mem_shares hd) _ hA))
  have hrounds : d.1.2.linkCount ≤ ((g.binarize s).links.map Prod.fst).length := by
    rw [← length_of_mem_shares hd, map_fst_links_eq_flatten]
    exact (List.sublist_flatten_of_mem (List.mem_map_of_mem hd)).length_le
  have hspell := Word.spell?_chainHead (v := []) (fun l hl => linkMeaning_of_mem (hchain l hl))
    hplain hrounds
  rwa [map_fst_chainLinks_of_mem_shares hd] at hspell

/-- The symbols of all right-hand sides are those of the grammar, and each link once. -/
theorem perm_symbols_binarize : ((g.binarize s).grammar.rules.flatMap Prod.snd).Perm
    (g.rules.flatMap Prod.snd ++ ((g.binarize s).links.map Prod.fst).map .nonTerminal) := by
  have hchains : ((g.shares s).flatMap fun d => (headRule d).2 ++
      (d.1.2.chainLinks d.2).flatMap Prod.snd).Perm
      ((g.shares s).flatMap fun d => d.1.2 ++ ((d.1.2.chainLinks d.2).map Prod.fst).map
        .nonTerminal) := List.Perm.flatMap_left _ fun d _ => Word.perm_chain d.1.2 d.2
  rw [rules_binarize hg hs, map_headRule_dealt, links_eq_shares, ← map_fst_shares (s := s),
    List.flatMap_append, List.flatMap_map, List.flatMap_map, List.flatMap_assoc, List.map_flatMap,
    List.map_flatMap]
  exact (List.flatMap_append_perm _ _ _).trans (hchains.trans (List.flatMap_append_perm _ _ _).symm)

theorem count_link {X : NonTerminal} (hX : X ∈ (g.binarize s).links.map Prod.fst) :
    ((g.binarize s).grammar.rules.map Prod.fst).count X = 1 ∧
      ((g.binarize s).grammar.rules.flatMap Prod.snd).count (.nonTerminal X) = 1 := by
  have hold : X ∉ g.nonTerminals := fun h => not_mem_links hs h hX
  constructor
  · have hheads : (((g.dealt s).map headRule).map Prod.fst).count X = 0 := by
      refine List.count_eq_zero.mpr fun hmem => ?_
      rw [List.map_map] at hmem
      obtain ⟨d, hd, rfl⟩ := List.mem_map.mp hmem
      exact hold (hg.keys_mem d.1.1 (fst_mem_keys (fst_mem_rules_of_mem_dealt hd)))
    rw [rules_binarize hg hs, List.map_append, List.count_append, hheads,
      List.count_eq_one_of_mem nodup_fst_links hX]
  · have hsymbols : (g.rules.flatMap Prod.snd).count (.nonTerminal X) = 0 := by
      refine List.count_eq_zero.mpr fun hmem => ?_
      obtain ⟨r, hr, hXr⟩ := List.mem_flatMap.mp hmem
      exact hold (hg.declares r hr _ hXr)
    have hlinks : (((g.binarize s).links.map Prod.fst).map Symbol.nonTerminal).count
        (.nonTerminal X) = 1 :=
      List.count_eq_one_of_mem (nodup_fst_links.map fun _ _ => Symbol.nonTerminal.inj)
        (List.mem_map_of_mem hX)
    rw [(perm_symbols_binarize hg hs).count_eq, List.count_append, hsymbols, hlinks]

end Links

/-- Splitting is undone by spelling out the links that were issued, whether they are drawn on the
way or beforehand. Every link has one production and is on one right-hand side, once. A
production of `n` symbols takes `n - 2` of them, and it is spelled out in its old place. -/
theorem spelledRules_binarize (hg : g.WellFormed) (hs : s.Avoids g.nonTerminals) :
    let h := (g.binarize s).grammar
    g.binarizeInTurn s = g.binarize s ∧
    ∃ links, (g.binarize s).supply.issued = s.issued ++ links ∧
      (∀ r ∈ h.rules, r.2.length ≤ 2) ∧
      (∀ X ∈ links, (h.rules.map Prod.fst).count X = 1 ∧
        (h.rules.flatMap Prod.snd).count (.nonTerminal X) = 1) ∧
      h.productions.keys.filter (· ∉ links) = g.productions.keys ∧
      ∃ spelled : List (NonTerminal × Spelling),
        h.spelledRules links = spelled.map (fun r => (r.1, some r.2)) ∧
        spelled.map (fun r => (r.1, r.2.word)) = g.rules ∧
        spelled.flatMap (fun r => r.2.links) = links ∧
        ∀ r ∈ spelled, r.2.links.length = r.2.word.length - 2 := by
  intro h
  refine ⟨g.binarizeInTurn_eq_binarize s, (g.binarize s).links.map Prod.fst, issued_binarize,
    fun r hr => length_le_of_mem_binarize hr, fun X hX => count_link hg hs hX, ?_,
    (g.shares s).map fun d => (d.1.1, ⟨d.1.2, d.2⟩), ?_, ?_, ?_, ?_⟩
  · have hold : ∀ A ∈ g.productions.keys, A ∉ (g.binarize s).links.map Prod.fst :=
      fun A hA => not_mem_links hs (hg.keys_mem A hA)
    rw [keys_binarize hg hs, List.filter_append, List.filter_eq_self.mpr (by simpa using hold),
      List.filter_eq_nil_iff.mpr (by simp), List.append_nil]
  · rw [spelledRules_eq_shares hg hs, List.map_map]
    rfl
  · rw [List.map_map]
    exact map_fst_shares
  · rw [map_fst_links_eq_flatten, List.flatMap_map, ← List.flatMap_def]
  · intro r hr
    obtain ⟨d, hd, rfl⟩ := List.mem_map.mp hr
    exact length_of_mem_shares hd

/-- The supply has issued a name before, which is no link. Both alternatives of `S` take links,
and the short production takes none. -/
theorem spelledRules_binarize_brackets : ∃ g, (Draft.ofDeclarations "S" [.terminals ["a", "b"],
      .production "S" ["a", "S", "b", "S"], .production "S" ["a", "A", "b"],
      .production "A" ["a", "b"]]).build = .ok g ∧
    let s := g.supply.issue.2
    let h := (g.binarize s).grammar
    h.rules.map (fun r => Word.text r.2) =
        ["a X1", "a X3", "a b", "S X2", "b S", "A b"] ∧
      ∃ links, links.map Name.text = ["X1", "X2", "X3"] ∧
        ∃ spelled : List (NonTerminal × Spelling),
          h.spelledRules links = spelled.map (fun r => (r.1, some r.2)) ∧
          spelled.map (fun r => (r.1, r.2.word)) = g.rules ∧
          (∀ r ∈ spelled, r.2.links.length = r.2.word.length - 2) ∧
          g.binarizeInTurn s = g.binarize s := by
  obtain ⟨g, hbuild, hissued, hsplit⟩ : ∃ g, (Draft.ofDeclarations "S" [.terminals ["a", "b"],
      .production "S" ["a", "S", "b", "S"], .production "S" ["a", "A", "b"],
      .production "A" ["a", "b"]]).build = .ok g ∧
      (g.binarize g.supply.issue.2).supply.issued.map Name.text =
        g.supply.issue.2.issued.map Name.text ++ ["X1", "X2", "X3"] ∧
      (g.binarize g.supply.issue.2).grammar.rules.map (fun r => Word.text r.2) =
        ["a X1", "a X3", "a b", "S X2", "b S", "A b"] :=
    ⟨_, rfl, by decide +kernel, by decide +kernel⟩
  have hs : g.supply.issue.2.Avoids g.nonTerminals := fun A hA =>
    List.mem_append_left _ ((Progress.avoids_supply g).1 A hA)
  obtain ⟨hturn, links, hlinks, -, -, -, spelled, hspelled, hwords, -, hlengths⟩ :=
    spelledRules_binarize (Draft.wellFormed_of_build hbuild) hs
  rw [hlinks, List.map_append] at hissued
  exact ⟨g, hbuild, hsplit, links, List.append_cancel_left hissued, spelled, hspelled, hwords,
    hlengths, hturn⟩

end Grammar

end ChomskyForm
