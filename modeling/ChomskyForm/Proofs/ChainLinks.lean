import ChomskyForm.Chain
import ChomskyForm.Proofs.IssuedNames
import ChomskyForm.Proofs.Simulation

/-!
# Splitting long words keeps the language

A link stands for what its word has left (`Word.linkMeanings`), so a chain with its links
spelled out again is the word (`Word.expand_chainHead`), and where the links have their
productions the chain derives what the word does (`Yields.chainHead`).

Names are dealt out to the productions from left to right (`dealNames`), and each
production takes its links from its own part. `Grammar.mem_rules_binarize` says where a
production of the new grammar comes from, for every supply. With a supply that avoids the
non-terminals, the old non-terminals derive what they derived
(`Grammar.derives_binarize_iff`).
-/

namespace ChomskyForm

/-! ## One chain -/

namespace Word

/-- What each link of a word's chain stands for. -/
def linkMeanings : Word → List NonTerminal → List Rule
  | _ :: t :: u :: w, X :: Xs => (X, t :: u :: w) :: linkMeanings (t :: u :: w) Xs
  | _, _ => []

theorem map_fst_linkMeanings : ∀ (w : Word) (Xs : List NonTerminal),
    (linkMeanings w Xs).map Prod.fst = (chainLinks w Xs).map Prod.fst
  | _ :: t :: u :: w, X :: Xs => congrArg (X :: ·) (map_fst_linkMeanings (t :: u :: w) Xs)
  | [], _ | [_], _ | [_, _], _ | _ :: _ :: _ :: _, [] => rfl

theorem map_fst_chainLinks : ∀ (w : Word) (Xs : List NonTerminal),
    (chainLinks w Xs).map Prod.fst = Xs.take w.linkCount
  | _ :: t :: u :: w, X :: Xs => congrArg (X :: ·) (map_fst_chainLinks (t :: u :: w) Xs)
  | [], _ | [_], _ | [_, _], _ => List.take_zero.symm
  | _ :: _ :: _ :: _, [] => List.take_nil.symm

theorem chainHead_eq_nil_iff : ∀ {w : Word} {Xs : List NonTerminal},
    w.chainHead Xs = [] ↔ w = []
  | _ :: _ :: _ :: _, _ :: _ => by simp [chainHead]
  | [], _ | [_], _ | [_, _], _ | _ :: _ :: _ :: _, [] => Iff.rfl

/-- A short word is left as it is. -/
theorem unit?_chainHead : ∀ (w : Word) (Xs : List NonTerminal), (w.chainHead Xs).unit? = w.unit?
  | s :: _ :: _ :: _, _ :: _ => by cases s <;> rfl
  | [], _ | [_], _ | [_, _], _ | _ :: _ :: _ :: _, [] => rfl

theorem two_le_length_chainHead : ∀ {w : Word} {Xs : List NonTerminal}, 2 ≤ w.length →
    2 ≤ (w.chainHead Xs).length
  | _ :: _ :: _ :: _, _ :: _, _ => Nat.le_refl 2
  | [_, _], _, h | _ :: _ :: _ :: _, [], h => h

theorem length_chainHead_le_length : ∀ {w : Word} {Xs : List NonTerminal},
    (w.chainHead Xs).length ≤ w.length
  | _ :: _ :: _ :: _, _ :: _ => by simp [chainHead]
  | [], _ | [_], _ | [_, _], _ | _ :: _ :: _ :: _, [] => Nat.le_refl _

/-- With enough links the word is cut down to two symbols. -/
theorem length_chainHead_le : ∀ {w : Word} {Xs : List NonTerminal},
    w.linkCount ≤ Xs.length → (w.chainHead Xs).length ≤ 2
  | _ :: _ :: _ :: _, _ :: _, _ => Nat.le_refl 2
  | [], _, _ | [_], _, _ | [_, _], _, _ => by simp [chainHead]
  | _ :: _ :: _ :: _, [], h => absurd h (Nat.not_succ_le_zero _)

theorem mem_of_mem_chainHead {a : Symbol} : ∀ {w : Word} {Xs : List NonTerminal},
    a ∈ w.chainHead Xs → a ∈ w ∨ ∃ X ∈ (w.chainLinks Xs).map Prod.fst, a = .nonTerminal X
  | s :: _ :: _ :: _, X :: _, h => by
    rcases List.mem_cons.mp h with rfl | h
    · exact .inl List.mem_cons_self
    · exact .inr ⟨X, List.mem_cons_self, List.mem_singleton.mp h⟩
  | [], _, h | [_], _, h | [_, _], _, h | _ :: _ :: _ :: _, [], h => .inl h

/-- A link's production is what the rest of the word is cut down to. -/
theorem exists_rest_of_mem_chainLinks {l : Rule} : ∀ {w : Word} {Xs : List NonTerminal},
    l ∈ w.chainLinks Xs → ∃ v Ys, l.2 = chainHead v Ys ∧ 2 ≤ v.length ∧ v.length < w.length ∧
      (w.linkCount ≤ Xs.length → v.linkCount ≤ Ys.length)
  | _ :: t :: u :: w, X :: Xs, h => by
    rcases List.mem_cons.mp h with rfl | h
    · exact ⟨t :: u :: w, Xs, rfl, Nat.le_add_left 2 _, Nat.lt_succ_self _,
        Nat.le_of_succ_le_succ⟩
    · obtain ⟨v, Ys, hl, htwo, hlt, hcount⟩ := exists_rest_of_mem_chainLinks h
      exact ⟨v, Ys, hl, htwo, Nat.lt_succ_of_lt hlt, fun hXs =>
        hcount (Nat.le_of_succ_le_succ hXs)⟩

theorem two_le_length_of_mem_chainLinks {l : Rule} {w : Word} {Xs : List NonTerminal}
    (h : l ∈ w.chainLinks Xs) : 2 ≤ l.2.length := by
  obtain ⟨v, Ys, hl, htwo, -⟩ := exists_rest_of_mem_chainLinks h
  rw [hl]
  exact two_le_length_chainHead htwo

theorem length_lt_of_mem_chainLinks {l : Rule} {w : Word} {Xs : List NonTerminal}
    (h : l ∈ w.chainLinks Xs) : l.2.length < w.length := by
  obtain ⟨v, Ys, hl, -, hlt, -⟩ := exists_rest_of_mem_chainLinks h
  rw [hl]
  exact Nat.lt_of_le_of_lt length_chainHead_le_length hlt

theorem length_of_mem_chainLinks_le {l : Rule} {w : Word} {Xs : List NonTerminal}
    (hXs : w.linkCount ≤ Xs.length) (h : l ∈ w.chainLinks Xs) : l.2.length ≤ 2 := by
  obtain ⟨v, Ys, hl, -, -, hcount⟩ := exists_rest_of_mem_chainLinks h
  rw [hl]
  exact length_chainHead_le (hcount hXs)

theorem mem_of_mem_chainLinks {a : Symbol} {l : Rule} : ∀ {w : Word} {Xs : List NonTerminal},
    l ∈ w.chainLinks Xs → a ∈ l.2 →
      a ∈ w ∨ ∃ X ∈ (w.chainLinks Xs).map Prod.fst, a = .nonTerminal X
  | s :: t :: u :: w, X :: Xs, h, ha => by
    have hrest : a ∈ t :: u :: w ∨
        ∃ Y ∈ (chainLinks (t :: u :: w) Xs).map Prod.fst, a = .nonTerminal Y := by
      rcases List.mem_cons.mp h with rfl | h
      · exact mem_of_mem_chainHead ha
      · exact mem_of_mem_chainLinks h ha
    refine hrest.imp (List.mem_cons_of_mem s) fun ⟨Y, hY, heq⟩ => ?_
    exact ⟨Y, List.mem_cons_of_mem X hY, heq⟩

section Expand

variable {σ : NonTerminal → Option Word}

/-- A chain with its first link spelled out is the word. -/
theorem expand_chainHead : ∀ {w : Word} {Xs : List NonTerminal},
    (∀ r ∈ linkMeanings w Xs, σ r.1 = some r.2) → (∀ A, .nonTerminal A ∈ w → σ A = none) →
      (w.chainHead Xs).expand σ = w
  | s :: t :: u :: w, X :: Xs, hσ, hw => by
    have hX : σ X = some (t :: u :: w) := hσ _ List.mem_cons_self
    cases s with
    | terminal a => simp [chainHead, expand, hX]
    | nonTerminal A => simp [chainHead, expand, hX, hw A List.mem_cons_self]
  | [], _, _, hw | [_], _, _, hw | [_, _], _, _, hw | _ :: _ :: _ :: _, [], _, hw =>
    expand_of_none hw

theorem expand_of_mem_chainLinks {X : NonTerminal} {v : Word} :
    ∀ {w : Word} {Xs : List NonTerminal}, (∀ r ∈ linkMeanings w Xs, σ r.1 = some r.2) →
      (∀ A, .nonTerminal A ∈ w → σ A = none) → (X, v) ∈ w.chainLinks Xs →
        σ X = some (v.expand σ)
  | s :: t :: u :: w, Y :: Xs, hσ, hw, h => by
    have hσ' : ∀ r ∈ linkMeanings (t :: u :: w) Xs, σ r.1 = some r.2 :=
      fun r hr => hσ r (List.mem_cons_of_mem _ hr)
    have hw' : ∀ A, .nonTerminal A ∈ t :: u :: w → σ A = none :=
      fun A hA => hw A (List.mem_cons_of_mem s hA)
    rcases List.mem_cons.mp h with heq | h
    · cases heq
      rw [expand_chainHead hσ' hw']
      exact hσ _ List.mem_cons_self
    · exact expand_of_mem_chainLinks hσ' hw' h

end Expand

end Word

/-- Where the links have their productions, a chain derives what its word does. -/
theorem Yields.chainHead {rules : List Rule} : ∀ {w : Word} {Xs : List NonTerminal}
    {u : Sentence}, (∀ l ∈ w.chainLinks Xs, l ∈ rules) → Yields rules w u →
      Yields rules (w.chainHead Xs) u
  | s :: t :: v :: w, X :: Xs, _, hlinks, h => by
    obtain ⟨x, y, rfl, hx, hy⟩ := yields_cons_iff.mp h
    have hy' := hy.chainHead fun l hl => hlinks l (List.mem_cons_of_mem _ hl)
    exact hx.append (.of_mem (hlinks _ List.mem_cons_self) hy')
  | [], _, _, _, h | [_], _, _, _, h | [_, _], _, _, _, h | _ :: _ :: _ :: _, [], _, _, h => h

/-! ## Dealing out the names -/

/-- Each production with the names from which its links are taken. -/
def dealNames : List Rule → List NonTerminal → List (Rule × List NonTerminal)
  | [], _ => []
  | r :: rs, Xs => (r, Xs) :: dealNames rs (Xs.drop r.2.linkCount)

theorem map_fst_dealNames : ∀ (rs : List Rule) (Xs : List NonTerminal),
    (dealNames rs Xs).map Prod.fst = rs
  | [], _ => rfl
  | r :: rs, _ => congrArg (r :: ·) (map_fst_dealNames rs _)

theorem dealNames_append : ∀ (rs qs : List Rule) (Xs : List NonTerminal),
    dealNames (rs ++ qs) Xs =
      dealNames rs Xs ++ dealNames qs (Xs.drop (Word.totalLinks (rs.map Prod.snd)))
  | [], _, _ => rfl
  | r :: rs, qs, Xs => by
    rw [List.cons_append, dealNames, dealNames_append rs qs, List.drop_drop]
    rfl

theorem allLinks_eq_flatMap : ∀ (rs : List Rule) (Xs : List NonTerminal),
    Word.allLinks (rs.map Prod.snd) Xs =
      (dealNames rs Xs).flatMap fun d => d.1.2.chainLinks d.2
  | [], _ => rfl
  | r :: rs, Xs => congrArg (r.2.chainLinks Xs ++ ·) (allLinks_eq_flatMap rs _)

theorem chainHeads_eq_map : ∀ (rs : List Rule) (Xs : List NonTerminal),
    Word.chainHeads (rs.map Prod.snd) Xs =
      (dealNames rs Xs).map fun d => d.1.2.chainHead d.2
  | [], _ => rfl
  | r :: rs, Xs => congrArg (r.2.chainHead Xs :: ·) (chainHeads_eq_map rs _)

/-- If there are enough names for all, there are enough for each. -/
theorem linkCount_le_of_mem_dealNames {d : Rule × List NonTerminal} :
    ∀ {rs : List Rule} {Xs : List NonTerminal},
      Word.totalLinks (rs.map Prod.snd) ≤ Xs.length → d ∈ dealNames rs Xs →
        d.1.2.linkCount ≤ d.2.length
  | r :: rs, Xs, hXs, hd => by
    have hsum : r.2.linkCount + Word.totalLinks (rs.map Prod.snd) ≤ Xs.length := hXs
    rcases List.mem_cons.mp hd with rfl | hd
    · show r.2.linkCount ≤ Xs.length
      omega
    · refine linkCount_le_of_mem_dealNames ?_ hd
      rw [List.length_drop]
      omega

theorem totalLinks_append : ∀ vs ws : List Word,
    Word.totalLinks (vs ++ ws) = Word.totalLinks vs + Word.totalLinks ws
  | [], ws => (Nat.zero_add _).symm
  | v :: vs, ws => by
    rw [List.cons_append, Word.totalLinks, totalLinks_append vs, Word.totalLinks, Nat.add_assoc]

theorem allLinks_append : ∀ (vs ws : List Word) (Xs : List NonTerminal),
    Word.allLinks (vs ++ ws) Xs =
      Word.allLinks vs Xs ++ Word.allLinks ws (Xs.drop (Word.totalLinks vs))
  | [], _, _ => rfl
  | v :: vs, ws, Xs => by
    rw [List.cons_append, Word.allLinks, allLinks_append vs, List.drop_drop, Word.allLinks,
      List.append_assoc]
    rfl

theorem map_fst_allLinks : ∀ (ws : List Word) (Xs : List NonTerminal),
    (Word.allLinks ws Xs).map Prod.fst = Xs.take (Word.totalLinks ws)
  | [], _ => List.take_zero.symm
  | w :: ws, Xs => by
    rw [Word.allLinks, List.map_append, Word.map_fst_chainLinks, map_fst_allLinks ws,
      Word.totalLinks, List.take_add]

theorem fst_of_mem_dealNames {A B : NonTerminal} {ws : List Word} {v : Word}
    {Xs Ys : List NonTerminal} (h : ((A, v), Ys) ∈ dealNames (ws.map (B, ·)) Xs) : A = B := by
  have hr : (A, v) ∈ ws.map (B, ·) := by
    rw [← map_fst_dealNames (ws.map (B, ·)) Xs]
    exact List.mem_map_of_mem (f := Prod.fst) h
  obtain ⟨w, -, heq⟩ := List.mem_map.mp hr
  cases heq
  rfl

theorem map_snd_map_mk (A : NonTerminal) (ws : List Word) :
    (ws.map (A, ·)).map Prod.snd = ws := by
  rw [List.map_map]
  exact List.map_id ws

theorem mem_chainHeads {A : NonTerminal} {ws : List Word} {Xs : List NonTerminal} {w : Word} :
    w ∈ Word.chainHeads ws Xs ↔
      ∃ v Ys, ((A, v), Ys) ∈ dealNames (ws.map (A, ·)) Xs ∧ v.chainHead Ys = w := by
  have hws := map_snd_map_mk A ws
  rw [← hws, chainHeads_eq_map, List.mem_map, hws]
  refine ⟨fun h => ?_, fun ⟨v, Ys, hd, hv⟩ => ⟨_, hd, hv⟩⟩
  obtain ⟨⟨⟨B, v⟩, Ys⟩, hd, hv⟩ := h
  cases fst_of_mem_dealNames hd
  exact ⟨v, Ys, hd, hv⟩

/-- What is left of the entries of a map comes from a production of the same left-hand side. -/
theorem mem_shortenEntries {A : NonTerminal} {w : Word} :
    ∀ (l : List (NonTerminal × OrderedSet Word)) (Xs : List NonTerminal),
      ((A, w) ∈ (Productions.shortenEntries l Xs).flatMap fun e => e.2.toList.map (e.1, ·)) ↔
        ∃ v Ys, ((A, v), Ys) ∈ dealNames (l.flatMap fun e => e.2.toList.map (e.1, ·)) Xs ∧
          v.chainHead Ys = w
  | [], _ => by simp [Productions.shortenEntries, dealNames]
  | (B, ws) :: l, Xs => by
    have hws := map_snd_map_mk B ws.toList
    have hhead : (A, w) ∈ (OrderedSet.ofList (Word.chainHeads ws.toList Xs)).toList.map (B, ·) ↔
        ∃ v Ys, ((A, v), Ys) ∈ dealNames (ws.toList.map (B, ·)) Xs ∧ v.chainHead Ys = w := by
      rw [List.mem_map]
      refine ⟨fun ⟨w', hw, heq⟩ => ?_, fun ⟨v, Ys, hd, hv⟩ => ?_⟩
      · cases heq
        exact mem_chainHeads.mp (OrderedSet.mem_ofList.mp hw)
      · cases fst_of_mem_dealNames hd
        exact ⟨w, OrderedSet.mem_ofList.mpr (mem_chainHeads.mpr ⟨v, Ys, hd, hv⟩), rfl⟩
    rw [Productions.shortenEntries, List.flatMap_cons, List.mem_append, hhead,
      mem_shortenEntries l, List.flatMap_cons, dealNames_append, hws]
    simp only [List.mem_append, or_and_right, exists_or]

theorem mem_rules_shorten {p : Productions} {Xs : List NonTerminal} {A : NonTerminal}
    {w : Word} : (A, w) ∈ (p.shorten Xs).rules ↔
      ∃ v Ys, ((A, v), Ys) ∈ dealNames p.rules Xs ∧ v.chainHead Ys = w :=
  mem_shortenEntries p.entries Xs

/-! ## The pass -/

namespace Grammar

variable {g : Grammar} {s : NameSupply}

/-- The productions with the names dealt out to them. -/
def dealt (g : Grammar) (s : NameSupply) : List (Rule × List NonTerminal) :=
  dealNames g.rules (s.issueMany (Word.totalLinks (g.rules.map Prod.snd))).1

theorem map_fst_dealt : (g.dealt s).map Prod.fst = g.rules := map_fst_dealNames g.rules _

theorem exists_mem_dealt {r : Rule} (hr : r ∈ g.rules) (s : NameSupply) :
    ∃ Xs, (r, Xs) ∈ g.dealt s := by
  have hr' : r ∈ (g.dealt s).map Prod.fst := by rwa [map_fst_dealt]
  obtain ⟨⟨_, Xs⟩, hd, rfl⟩ := List.mem_map.mp hr'
  exact ⟨Xs, hd⟩

theorem fst_mem_rules_of_mem_dealt {d : Rule × List NonTerminal} (hd : d ∈ g.dealt s) :
    d.1 ∈ g.rules := by
  rw [← map_fst_dealt (s := s)]
  exact List.mem_map_of_mem hd

theorem linkCount_le_of_mem_dealt {d : Rule × List NonTerminal} (hd : d ∈ g.dealt s) :
    d.1.2.linkCount ≤ d.2.length :=
  linkCount_le_of_mem_dealNames (Nat.le_of_eq (NameSupply.length_issueMany _ s).symm) hd

theorem links_binarize :
    (g.binarize s).links = (g.dealt s).flatMap fun d => d.1.2.chainLinks d.2 :=
  allLinks_eq_flatMap g.rules _

theorem mem_links_binarize {l : Rule} :
    l ∈ (g.binarize s).links ↔ ∃ d ∈ g.dealt s, l ∈ d.1.2.chainLinks d.2 := by
  rw [links_binarize, List.mem_flatMap]

theorem map_fst_links : (g.binarize s).links.map Prod.fst =
    (s.issueMany (Word.totalLinks (g.rules.map Prod.snd))).1 := by
  refine (map_fst_allLinks _ _).trans (List.take_of_length_le ?_)
  exact Nat.le_of_eq (NameSupply.length_issueMany _ _)

theorem nodup_fst_links : ((g.binarize s).links.map Prod.fst).Nodup := by
  rw [map_fst_links]
  exact NameSupply.nodup_issueMany _ s

theorem taken_binarize : (g.binarize s).supply.taken =
    s.taken ++ ((g.binarize s).links.map Prod.fst).map Name.text := by
  rw [map_fst_links]
  exact NameSupply.taken_issueMany _ s

theorem issued_binarize : (g.binarize s).supply.issued =
    s.issued ++ (g.binarize s).links.map Prod.fst := by
  rw [map_fst_links]
  exact NameSupply.issued_issueMany _ s

theorem not_mem_taken_of_mem_links {X : NonTerminal}
    (h : X ∈ (g.binarize s).links.map Prod.fst) : X.text ∉ s.taken := by
  rw [map_fst_links] at h
  exact NameSupply.not_mem_taken_of_mem_issueMany h

theorem map_fst_linkEntry (l : List Rule) : (l.map linkEntry).map Prod.fst = l.map Prod.fst := by
  rw [List.map_map]
  rfl

/-- Where a production comes from, whatever the supply. -/
theorem mem_rules_binarize {A : NonTerminal} {w : Word}
    (h : (A, w) ∈ (g.binarize s).grammar.rules) :
    (∃ v Xs, ((A, v), Xs) ∈ g.dealt s ∧ v.chainHead Xs = w) ∨ (A, w) ∈ (g.binarize s).links := by
  obtain ⟨ws, he, hw⟩ := Productions.mem_rules.mp h
  rcases OrderedMap.mem_entries_of_mem_insertAll he with he | he
  · exact .inl (mem_rules_shorten.mp (Productions.mem_rules.mpr ⟨ws, he, hw⟩))
  · obtain ⟨⟨X, v⟩, hl, heq⟩ := List.mem_map.mp he
    cases heq
    rw [OrderedSet.mem_singleton.mp hw]
    exact .inr hl

/-- A production whose left-hand side is no link is kept, cut down to its chain's head. -/
theorem chainHead_mem_rules {A : NonTerminal} {v : Word} {Xs : List NonTerminal}
    (hA : A ∉ (g.binarize s).links.map Prod.fst) (h : ((A, v), Xs) ∈ g.dealt s) :
    (A, v.chainHead Xs) ∈ (g.binarize s).grammar.rules := by
  obtain ⟨ws, he, hw⟩ := Productions.mem_rules.mp (mem_rules_shorten.mpr ⟨v, Xs, h, rfl⟩)
  refine Productions.mem_rules.mpr ⟨ws, ?_, hw⟩
  rw [← map_fst_linkEntry] at hA
  exact (OrderedMap.mem_entries_insertAll_of_not_mem hA).mpr he

theorem linkEntry_mem_entries {l : Rule} (hl : l ∈ (g.binarize s).links) :
    linkEntry l ∈ (g.binarize s).grammar.productions.entries := by
  refine OrderedMap.mem_entries_insertAll_of_mem ?_ (List.mem_map_of_mem hl)
  rw [map_fst_linkEntry]
  exact nodup_fst_links

theorem link_mem_rules {l : Rule} (hl : l ∈ (g.binarize s).links) :
    l ∈ (g.binarize s).grammar.rules :=
  Productions.mem_rules.mpr
    ⟨.singleton l.2, linkEntry_mem_entries hl, OrderedSet.mem_singleton.mpr rfl⟩

theorem mem_keys_binarize {A : NonTerminal} : A ∈ (g.binarize s).grammar.productions.keys ↔
    A ∈ g.productions.keys ∨ A ∈ (g.binarize s).links.map Prod.fst := by
  rw [← map_fst_linkEntry]
  refine OrderedMap.mem_keys_insertAll.trans (or_congr_left ?_)
  rw [OrderedMap.keys, Productions.shorten, Productions.keys_shortenEntries]
  rfl

/-- No right-hand side is left with more than two symbols, whatever the supply. -/
theorem length_le_of_mem_binarize {A : NonTerminal} {w : Word}
    (h : (A, w) ∈ (g.binarize s).grammar.rules) : w.length ≤ 2 := by
  rcases mem_rules_binarize h with ⟨v, Xs, hd, rfl⟩ | hl
  · exact Word.length_chainHead_le (linkCount_le_of_mem_dealt hd)
  · obtain ⟨d, hd, hl⟩ := mem_links_binarize.mp hl
    exact Word.length_of_mem_chainLinks_le (linkCount_le_of_mem_dealt hd) hl

theorem nil_mem_of_binarize {A : NonTerminal} (h : (A, []) ∈ (g.binarize s).grammar.rules) :
    (A, []) ∈ g.rules := by
  rcases mem_rules_binarize h with ⟨v, Xs, hd, hv⟩ | hl
  · rw [Word.chainHead_eq_nil_iff.mp hv] at hd
    exact fst_mem_rules_of_mem_dealt hd
  · obtain ⟨d, -, hl⟩ := mem_links_binarize.mp hl
    exact absurd (Word.two_le_length_of_mem_chainLinks hl) (by simp)

theorem nil_mem_binarize {A : NonTerminal} (hA : A.text ∈ s.taken) (h : (A, []) ∈ g.rules) :
    (A, []) ∈ (g.binarize s).grammar.rules := by
  obtain ⟨Xs, hd⟩ := exists_mem_dealt h s
  exact chainHead_mem_rules (fun hX => not_mem_taken_of_mem_links hX hA) hd

/-- The symbols of a production are links and symbols of an old one, which is no shorter. -/
theorem mem_of_mem_rules_binarize {A : NonTerminal} {w : Word} {a : Symbol}
    (h : (A, w) ∈ (g.binarize s).grammar.rules) (ha : a ∈ w) :
    (∃ r ∈ g.rules, a ∈ r.2 ∧ w.length ≤ r.2.length) ∨
      ∃ X ∈ (g.binarize s).links.map Prod.fst, a = .nonTerminal X := by
  -- a chain's links are among all links
  have hlink : ∀ d ∈ g.dealt s, (∃ X ∈ (d.1.2.chainLinks d.2).map Prod.fst, a = .nonTerminal X) →
      ∃ X ∈ (g.binarize s).links.map Prod.fst, a = .nonTerminal X := fun d hd ⟨X, hX, heq⟩ => by
    obtain ⟨l, hl, rfl⟩ := List.mem_map.mp hX
    exact ⟨l.1, List.mem_map_of_mem (mem_links_binarize.mpr ⟨d, hd, hl⟩), heq⟩
  rcases mem_rules_binarize h with ⟨v, Xs, hd, rfl⟩ | hl
  · refine (Word.mem_of_mem_chainHead ha).imp (fun ha => ?_) (hlink _ hd)
    exact ⟨(A, v), fst_mem_rules_of_mem_dealt hd, ha, Word.length_chainHead_le_length⟩
  · obtain ⟨d, hd, hl⟩ := mem_links_binarize.mp hl
    refine (Word.mem_of_mem_chainLinks hl ha).imp (fun ha => ?_) (hlink d hd)
    exact ⟨d.1, fst_mem_rules_of_mem_dealt hd, ha,
      Nat.le_of_lt (Word.length_lt_of_mem_chainLinks hl)⟩

/-! ## The language -/

/-- What each link stands for. -/
def linkMeanings (g : Grammar) (s : NameSupply) : List Rule :=
  (g.dealt s).flatMap fun d => d.1.2.linkMeanings d.2

theorem map_fst_linkMeanings :
    (g.linkMeanings s).map Prod.fst = (g.binarize s).links.map Prod.fst := by
  rw [links_binarize, linkMeanings, List.map_flatMap, List.map_flatMap]
  simp only [Word.map_fst_linkMeanings]

section Language

variable (hg : g.WellFormed) (hs : s.Avoids g.nonTerminals)

include hs in
theorem not_mem_links {A : NonTerminal} (hA : A ∈ g.nonTerminals) :
    A ∉ (g.binarize s).links.map Prod.fst :=
  fun h => not_mem_taken_of_mem_links h (hs A hA)

include hs in
theorem meaningIn_linkMeanings_eq_none {A : NonTerminal} (hA : A ∈ g.nonTerminals) :
    meaningIn (g.linkMeanings s) A = none := by
  refine meaningIn_eq_none ?_
  rw [map_fst_linkMeanings]
  exact not_mem_links hs hA

theorem meaningIn_linkMeanings {d : Rule × List NonTerminal} (hd : d ∈ g.dealt s) :
    ∀ r ∈ d.1.2.linkMeanings d.2, meaningIn (g.linkMeanings s) r.1 = some r.2 := by
  intro r hr
  refine meaningIn_of_mem ?_ (List.mem_flatMap.mpr ⟨d, hd, hr⟩)
  rw [map_fst_linkMeanings]
  exact nodup_fst_links

include hg hs

/-- A link stands for the rest of its word. -/
theorem folds_binarize :
    Folds (meaningIn (g.linkMeanings s)) (g.binarize s).grammar.rules g.rules := by
  have hsym : ∀ d ∈ g.dealt s, ∀ A, .nonTerminal A ∈ d.1.2 →
      meaningIn (g.linkMeanings s) A = none := fun d hd A hA =>
    meaningIn_linkMeanings_eq_none hs (hg.declares _ (fst_mem_rules_of_mem_dealt hd) _ hA)
  intro A w h
  rcases mem_rules_binarize h with ⟨v, Xs, hd, rfl⟩ | hl
  · have hr := fst_mem_rules_of_mem_dealt hd
    rw [Word.expand_chainHead (meaningIn_linkMeanings hd) (hsym _ hd)]
    exact .inl ⟨meaningIn_linkMeanings_eq_none hs (hg.keys_mem A (fst_mem_keys hr)), hr⟩
  · obtain ⟨d, hd, hl⟩ := mem_links_binarize.mp hl
    exact .inr (Word.expand_of_mem_chainLinks (meaningIn_linkMeanings hd) (hsym d hd) hl)

theorem yields_binarize {w : Word} {u : Sentence} (h : Yields g.rules w u) :
    Yields (g.binarize s).grammar.rules w u := by
  refine h.simulate fun A v u hr hv => ?_
  obtain ⟨Xs, hd⟩ := exists_mem_dealt hr s
  have hA := not_mem_links hs (hg.keys_mem A (fst_mem_keys hr))
  refine .of_mem (chainHead_mem_rules hA hd) (hv.chainHead fun l hl => ?_)
  exact link_mem_rules (mem_links_binarize.mpr ⟨_, hd, hl⟩)

/-- What is derived without empty productions still is. -/
theorem yields_solid_binarize {w : Word} {u : Sentence} (h : Yields (solid g.rules) w u) :
    Yields (solid (g.binarize s).grammar.rules) w u := by
  refine h.simulate fun A v u hr hv => ?_
  obtain ⟨hr, hne⟩ := mem_solid.mp hr
  obtain ⟨Xs, hd⟩ := exists_mem_dealt hr s
  have hA := not_mem_links hs (hg.keys_mem A (fst_mem_keys hr))
  have hne' : v.chainHead Xs ≠ [] := fun h => hne (Word.chainHead_eq_nil_iff.mp h)
  refine .of_mem (mem_solid.mpr ⟨chainHead_mem_rules hA hd, hne'⟩) (hv.chainHead fun l hl => ?_)
  refine mem_solid.mpr ⟨link_mem_rules (mem_links_binarize.mpr ⟨_, hd, hl⟩), fun hnil => ?_⟩
  have hlen := Word.two_le_length_of_mem_chainLinks hl
  rw [hnil] at hlen
  exact absurd hlen (by simp)

/-- The old non-terminals derive what they derived. -/
theorem derives_binarize_iff {A : NonTerminal} (hA : A ∈ g.nonTerminals) {u : Sentence} :
    (g.binarize s).grammar.Derives A u ↔ g.Derives A u :=
  ⟨(folds_binarize hg hs).yields_singleton (meaningIn_linkMeanings_eq_none hs hA),
    yields_binarize hg hs⟩

end Language

end Grammar

end ChomskyForm
