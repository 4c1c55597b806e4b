import ChomskyForm.Columns
import ChomskyForm.Proofs.UnorderedPasses

/-!
# What removal of empty productions leaves

The rows of a word's columns are its variants in the same order
(`Word.variants_eq_closedRows`), so that going through the rows of one alternative after another
is removal (`Grammar.removeErasingInTurn_eq_removeErasing`).

`Word.deleteAt` takes symbols out of a word by their positions. A word shortens to another
(`Grammar.Shortens`) if the symbols taken out are non-terminals that derive the empty
sentence. Going through the variants of a word is choosing such positions one after another
(`Grammar.shortens_iff`), so removal of empty productions leaves each left-hand side exactly
the non-empty words to which its alternatives shorten
(`Grammar.toList_alternatives_removeErasing`).

Variants of variants are variants (`Word.mem_variants_trans`), and nothing becomes nullable
through a removal. A second removal therefore finds nothing to add, though an empty production
that was kept may make it look for more and put the alternatives into another order
(`Grammar.removeErasing_removeErasing`).
-/

namespace ChomskyForm

/-! ## Rows of columns -/

/-- Leaving symbols out by recursion is leaving gaps in all ways and closing them. -/
theorem Word.variants_eq_closedRows (E : List NonTerminal) : ∀ w : Word,
    variants E w = closedRows E w
  | [] => rfl
  | .terminal t :: w => by
    have hcolumn : Symbol.column E (.terminal t) = [some (.terminal t)] := rfl
    rw [variants, variants_eq_closedRows E w, closedRows, closedRows, List.map_cons, hcolumn, rows,
      List.flatMap_singleton, List.map_map, List.map_map]
    rfl
  | .nonTerminal A :: w => by
    have hcolumn : Symbol.column E (.nonTerminal A) =
        some (.nonTerminal A) :: if A ∈ E then [none] else [] := by
      by_cases hA : A ∈ E <;> simp [Symbol.column, Symbol.isErasable, hA]
    rw [variants, variants_eq_closedRows E w, closedRows, closedRows, List.map_cons, hcolumn, rows,
      List.flatMap_cons, List.map_append, List.map_map, List.map_map]
    split <;> simp [Function.comp_def]

namespace Grammar

/-- The variants that are added word by word are those of all alternatives together. The empty
alternative has none that is kept. -/
theorem collectRows_eq (E : List NonTerminal) (ws : OrderedSet Word) :
    collectRows E ws.toList = shortenings E ws := by
  have hfold : ∀ (l : List Word) (vs : OrderedSet Word),
      (l.filter fun w => !w.isEmpty).foldl
        (fun vs w => vs.insertAll ((w.closedRows E).filter fun v => !v.isEmpty)) vs =
          vs.insertAll ((l.flatMap (Word.variants E)).filter fun v => !v.isEmpty) := by
    intro l
    induction l with
    | nil => exact fun _ => rfl
    | cons w l ih =>
      intro vs
      rw [List.flatMap_cons, List.filter_append, OrderedSet.insertAll_append]
      cases w with
      | nil => exact ih vs
      | cons a w =>
        rw [Word.variants_eq_closedRows]
        exact ih _
  exact hfold ws.toList .empty

theorem removeErasingInTurn_eq_removeErasing (g : Grammar) (e : EmptySentence) :
    g.removeErasingInTurn e = g.removeErasing e := by
  unfold removeErasingInTurn removeErasing
  simp only [collectRows_eq, OrderedMap.filterMap_eq_foldl]

end Grammar

/-! ## Deleting symbols -/

namespace Word

/-- The word without the symbols at the positions that are marked. -/
def deleteAt : Word → (Nat → Bool) → Word
  | [], _ => []
  | a :: w, marked =>
    let rest := deleteAt w fun i => marked (i + 1)
    if marked 0 then rest else a :: rest

/-- Every marked position of the word holds a non-terminal with the property `p`. -/
def Marks (p : NonTerminal → Prop) (w : Word) (marked : Nat → Bool) : Prop :=
  ∀ i, marked i = true → ∃ A, w[i]? = some (.nonTerminal A) ∧ p A

/-- The marks of a word with one more symbol in front. -/
def consMark (first : Bool) (marked : Nat → Bool) (i : Nat) : Bool :=
  if i = 0 then first else marked (i - 1)

variable {E F : List NonTerminal} {p : NonTerminal → Prop}

theorem marks_cons_iff {a : Symbol} {w : Word} {marked : Nat → Bool} :
    Marks p (a :: w) marked ↔ (marked 0 = true → ∃ A, a = .nonTerminal A ∧ p A) ∧
      Marks p w fun i => marked (i + 1) := by
  rw [Marks, ← Nat.and_forall_add_one]
  simp [Marks]

/-- What is left when erasable symbols are deleted is a variant. -/
theorem deleteAt_mem_variants : ∀ {w : Word} {marked : Nat → Bool},
    Marks (· ∈ E) w marked → deleteAt w marked ∈ variants E w
  | [], _, _ => List.mem_singleton.mpr rfl
  | a :: w, marked, h => by
    obtain ⟨hfirst, hmarks⟩ := marks_cons_iff.mp h
    have hrest := deleteAt_mem_variants hmarks
    by_cases hmarked : marked 0 = true
    · obtain ⟨A, rfl, hA⟩ := hfirst hmarked
      rw [deleteAt, if_pos hmarked]
      exact mem_variants_cons_nonTerminal.mpr (.inr ⟨hA, hrest⟩)
    · rw [deleteAt, if_neg hmarked]
      cases a with
      | terminal t => exact mem_variants_cons_terminal.mpr ⟨_, hrest, rfl⟩
      | nonTerminal A => exact mem_variants_cons_nonTerminal.mpr (.inl ⟨_, hrest, rfl⟩)

/-- Each variant is left when some erasable symbols are deleted. -/
theorem exists_deleteAt_eq : ∀ {w v : Word}, v ∈ variants E w →
    ∃ marked, Marks (· ∈ E) w marked ∧ deleteAt w marked = v
  | [], _, hv => ⟨fun _ => false, nofun, (List.mem_singleton.mp hv).symm⟩
  | .terminal t :: w, _, hv => by
    obtain ⟨v, hv', rfl⟩ := mem_variants_cons_terminal.mp hv
    obtain ⟨marked, hmarks, rfl⟩ := exists_deleteAt_eq hv'
    exact ⟨consMark false marked, marks_cons_iff.mpr ⟨nofun, hmarks⟩, rfl⟩
  | .nonTerminal A :: w, _, hv => by
    rcases mem_variants_cons_nonTerminal.mp hv with ⟨v, hv', rfl⟩ | ⟨hA, hv'⟩
    · obtain ⟨marked, hmarks, rfl⟩ := exists_deleteAt_eq hv'
      exact ⟨consMark false marked, marks_cons_iff.mpr ⟨nofun, hmarks⟩, rfl⟩
    · obtain ⟨marked, hmarks, rfl⟩ := exists_deleteAt_eq hv'
      exact ⟨consMark true marked, marks_cons_iff.mpr ⟨fun _ => ⟨A, rfl, hA⟩, hmarks⟩, rfl⟩

/-! ## Variants of variants -/

theorem self_mem_variants : ∀ w : Word, w ∈ variants E w
  | [] => List.mem_singleton.mpr rfl
  | .terminal _ :: w => mem_variants_cons_terminal.mpr ⟨w, self_mem_variants w, rfl⟩
  | .nonTerminal _ :: w => mem_variants_cons_nonTerminal.mpr (.inl ⟨w, self_mem_variants w, rfl⟩)

/-- A variant of a variant is a variant of the word. -/
theorem mem_variants_trans (hF : ∀ A ∈ F, A ∈ E) :
    ∀ {w v x : Word}, v ∈ variants E w → x ∈ variants F v → x ∈ variants E w
  | [], _, _, hv, hx => by
    obtain rfl := List.mem_singleton.mp hv
    exact hx
  | .terminal t :: w, _, _, hv, hx => by
    obtain ⟨v, hv', rfl⟩ := mem_variants_cons_terminal.mp hv
    obtain ⟨x, hx', rfl⟩ := mem_variants_cons_terminal.mp hx
    exact mem_variants_cons_terminal.mpr ⟨x, mem_variants_trans hF hv' hx', rfl⟩
  | .nonTerminal A :: w, _, _, hv, hx => by
    rcases mem_variants_cons_nonTerminal.mp hv with ⟨v, hv', rfl⟩ | ⟨hA, hv'⟩
    · rcases mem_variants_cons_nonTerminal.mp hx with ⟨x, hx', rfl⟩ | ⟨hA, hx'⟩
      · exact mem_variants_cons_nonTerminal.mpr (.inl ⟨x, mem_variants_trans hF hv' hx', rfl⟩)
      · exact mem_variants_cons_nonTerminal.mpr (.inr ⟨hF A hA, mem_variants_trans hF hv' hx'⟩)
    · exact mem_variants_cons_nonTerminal.mpr (.inr ⟨hA, mem_variants_trans hF hv' hx⟩)

end Word

/-- What becomes of the empty sentence if it is kept only when both options retain it. -/
def EmptySentence.both : EmptySentence → EmptySentence → EmptySentence
  | .retain, .retain => .retain
  | _, _ => .drop

theorem EmptySentence.both_eq_retain_iff {e₁ e₂ : EmptySentence} :
    e₁.both e₂ = .retain ↔ e₁ = .retain ∧ e₂ = .retain := by
  cases e₁ <;> cases e₂ <;> simp [both]

theorem EmptySentence.both_self (e : EmptySentence) : e.both e = e := by cases e <;> rfl

namespace Grammar

variable {g : Grammar} {e e₁ e₂ : EmptySentence} {A : NonTerminal} {v w : Word}

/-! ## One removal -/

/-- The word `w` is what is left of `v` when non-terminals that derive the empty sentence are
deleted at some positions. -/
def Shortens (g : Grammar) (v w : Word) : Prop :=
  ∃ marked, v.Marks (fun A => g.Derives A []) marked ∧ v.deleteAt marked = w

theorem shortens_iff : g.Shortens v w ↔ w ∈ v.variants g.nullable := by
  simp only [Shortens, ← mem_nullable]
  refine ⟨?_, Word.exists_deleteAt_eq⟩
  rintro ⟨marked, hmarks, rfl⟩
  exact Word.deleteAt_mem_variants hmarks

theorem nil_not_mem_shortenings {E : List NonTerminal} {ws : OrderedSet Word} :
    [] ∉ shortenings E ws := fun h => (mem_shortenings.mp h).1 rfl

theorem keepsEmpty_iff : g.keepsEmpty e g.nullable A = true ↔
    A = g.start ∧ e = .retain ∧ g.Generates [] := by
  rw [keepsEmpty, decide_eq_true_iff, mem_nullable]
  refine and_congr_right fun hA => ?_
  rw [hA, Generates]

/-- The alternatives that are left, also for what is no left-hand side. -/
theorem alternatives_removeErasing (g : Grammar) (e : EmptySentence) (A : NonTerminal) :
    (g.removeErasing e).alternatives A =
      if g.keepsEmpty e g.nullable A then (shortenings g.nullable (g.alternatives A)).insert []
      else shortenings g.nullable (g.alternatives A) := by
  have hfind : (g.removeErasing e).productions.find? A = (g.productions.find? A).bind _ :=
    OrderedMap.find?_filterMap _ _ _
  rw [alternatives, alternatives, hfind]
  cases hA : g.productions.find? A with
  | some ws => exact OrderedSet.getD_nonempty? _
  | none =>
    have hkeep : ¬ g.keepsEmpty e g.nullable A = true := fun h => by
      obtain ⟨rfl, -, hnil⟩ := keepsEmpty_iff.mp h
      obtain ⟨v, hv, -⟩ := derives_iff.mp hnil
      exact OrderedMap.find?_eq_none_iff.mp hA (fst_mem_keys hv)
    rw [if_neg hkeep]
    rfl

/-- Removal of empty productions leaves each left-hand side the non-empty words that its
alternatives are shortened to. It may go through the rows of one word after another. -/
theorem toList_alternatives_removeErasing (hg : g.WellFormed) (e : EmptySentence) :
    let h := g.removeErasing e
    g.removeErasingInTurn e = h ∧
    (∀ A, (h.alternatives A).toList.Nodup ∧
      ∃ ws : List Word, (∀ w, w ∈ ws ↔ w ≠ [] ∧ ∃ v ∈ g.alternatives A, g.Shortens v w) ∧
        (A = g.start ∧ e = .retain ∧ g.Generates [] → (h.alternatives A).toList = ws ++ [[]]) ∧
        (¬ (A = g.start ∧ e = .retain ∧ g.Generates []) → (h.alternatives A).toList = ws)) ∧
      (∀ A, A ∈ h.productions.keys ↔ ∃ w, w ∈ h.alternatives A) ∧
      h.productions.keys.Sublist g.productions.keys ∧
      h.nonTerminals = g.nonTerminals ∧ h.terminals = g.terminals ∧ h.start = g.start ∧
      h.stem = g.stem := by
  intro h
  refine ⟨g.removeErasingInTurn_eq_removeErasing e, fun A => ⟨(h.alternatives A).nodup,
      (shortenings g.nullable (g.alternatives A)).toList, fun w => ?_, fun hkeep => ?_,
      fun hkeep => ?_⟩, fun A => ?_, OrderedMap.keys_filterMap_sublist _ _,
    nonTerminals_removeErasing hg e, rfl, rfl, rfl⟩
  · simp only [OrderedSet.mem_toList, mem_shortenings, shortens_iff]
  · rw [alternatives_removeErasing, if_pos (keepsEmpty_iff.mpr hkeep),
      OrderedSet.toList_insert_of_not_mem nil_not_mem_shortenings]
  · rw [alternatives_removeErasing, if_neg fun hk => hkeep (keepsEmpty_iff.mp hk)]
  · simp only [mem_alternatives]
    exact (g.trim_removeErasing e).mem_keys_iff

/-- The left-hand side that has only the empty alternative is gone, and the empty production
of the start symbol comes last. -/
theorem toList_alternatives_removeErasing_last : ∃ g, (Draft.ofDeclarations "S"
      [.terminals ["a"], .production "S" ["A", "A", "E"], .production "A" ["a"], .erasing "A",
        .erasing "E"]).build = .ok g ∧ g.WellFormed ∧ g.Generates [] ∧
    let h := g.removeErasing .retain
    (∃ ws : List Word, (h.alternatives g.start).toList = ws ++ [[]] ∧
      ws.map Word.text = ["A A E", "A A", "A E", "A", "E"] ∧
      ∀ w, w ∈ ws ↔ w ≠ [] ∧ ∃ v ∈ g.alternatives g.start, g.Shortens v w) ∧
    h.productions.keys.map Name.text = ["S", "A"] ∧ g.removeErasingInTurn .retain = h := by
  obtain ⟨g, hbuild, hnullable, htexts, hkeys⟩ : ∃ g, (Draft.ofDeclarations "S"
      [.terminals ["a"], .production "S" ["A", "A", "E"], .production "A" ["a"], .erasing "A",
        .erasing "E"]).build = .ok g ∧ g.start ∈ g.nullable ∧
      ((g.removeErasing .retain).alternatives g.start).toList.map Word.text =
        ["A A E", "A A", "A E", "A", "E"] ++ ["ε"] ∧
      (g.removeErasing .retain).productions.keys.map Name.text = ["S", "A"] :=
    ⟨_, rfl, by decide +kernel, by decide +kernel, by decide +kernel⟩
  have hg := Draft.wellFormed_of_build hbuild
  obtain ⟨hturn, halternatives, -⟩ := toList_alternatives_removeErasing hg .retain
  obtain ⟨-, ws, hws, hlast, -⟩ := halternatives g.start
  have hnil := mem_nullable.mp hnullable
  have hlist := hlast ⟨rfl, rfl, hnil⟩
  refine ⟨g, hbuild, hg, hnil, ⟨ws, hlist, ?_, hws⟩, hkeys, hturn⟩
  rw [hlist, List.map_append] at htexts
  exact (List.append_inj' htexts rfl).1

/-! ## Two removals -/

/-- What is nullable after a removal was nullable before. -/
theorem mem_nullable_of_removeErasing (h : A ∈ (g.removeErasing e).nullable) : A ∈ g.nullable :=
  mem_nullable.mpr (yields_of_removeErasing (mem_nullable.mp h))

/-- A second removal shortens no production any further. -/
theorem mem_rules_removeErasing_removeErasing :
    (A, w) ∈ ((g.removeErasing e₁).removeErasing e₂).rules ↔
      (A, w) ∈ (g.removeErasing (e₁.both e₂)).rules := by
  rw [mem_rules_removeErasing, mem_rules_removeErasing, EmptySentence.both_eq_retain_iff]
  refine or_congr ⟨?_, ?_⟩ ?_
  · rintro ⟨hw, v, hv, hvar⟩
    rcases mem_rules_removeErasing.mp hv with ⟨-, u, hu, huv⟩ | ⟨rfl, -⟩
    · exact ⟨hw, u, hu, Word.mem_variants_trans (fun _ => mem_nullable_of_removeErasing) huv hvar⟩
    · exact absurd (List.mem_singleton.mp hvar) hw
  · rintro ⟨hw, v, hv, hvar⟩
    exact ⟨hw, w, mem_rules_removeErasing.mpr (.inl ⟨hw, v, hv, hvar⟩), Word.self_mem_variants w⟩
  · refine and_congr_right fun _ => and_congr_right fun hA => ?_
    have hnil : (g.removeErasing e₁).Derives A [] ↔ e₁ = .retain ∧ g.Derives A [] := by
      rw [hA]
      exact generates_removeErasing_nil
    rw [hnil, ← and_assoc, and_comm (a := e₂ = .retain)]

/-- Removal after removal is one removal, but for the order of the alternatives. The empty
sentence survives if both retain it. -/
theorem removeErasing_removeErasing (hg : g.WellFormed) :
    (∀ e₁ e₂, ((g.removeErasing e₁).removeErasing e₂).Alike (g.removeErasing (e₁.both e₂))) ∧
      ∀ e, ((g.removeErasing e).removeErasing e).Alike (g.removeErasing e) := by
  have hboth : ∀ e₁ e₂,
      ((g.removeErasing e₁).removeErasing e₂).Alike (g.removeErasing (e₁.both e₂)) := by
    intro e₁ e₂
    have hfirst := hg.removeErasing e₁
    refine .of_rules (trim_removeErasing _ e₂) (g.trim_removeErasing _) rfl ?_ (fun _ => Iff.rfl)
      rfl fun A w => mem_rules_removeErasing_removeErasing
    rw [nonTerminals_removeErasing hfirst, nonTerminals_removeErasing hg,
      nonTerminals_removeErasing hg]
    exact fun _ => Iff.rfl
  refine ⟨hboth, fun e => ?_⟩
  have hsame := hboth e e
  rwa [e.both_self] at hsame

/-- The second removal finds only the start symbol nullable, and lists `B` before `S`. -/
theorem removeErasing_removeErasing_reorders : ∃ g, (Draft.ofDeclarations "S" [.terminals ["b"],
      .production "S" ["S", "B"], .erasing "S", .production "B" ["b"],
      .erasing "B"]).build = .ok g ∧ g.WellFormed ∧
    let h := g.removeErasing .retain
    let k := h.removeErasing .retain
    (h.alternatives h.start).toList.map Word.text = ["S B", "S", "B", "ε"] ∧
      (k.alternatives k.start).toList.map Word.text = ["S B", "B", "S", "ε"] ∧ k.Alike h ∧
      (h.removeErasing .drop).Alike (g.removeErasing .drop) := by
  obtain ⟨g, hbuild, hfirst, hsecond⟩ : ∃ g, (Draft.ofDeclarations "S" [.terminals ["b"],
      .production "S" ["S", "B"], .erasing "S", .production "B" ["b"],
      .erasing "B"]).build = .ok g ∧
      ((g.removeErasing .retain).alternatives g.start).toList.map Word.text =
        ["S B", "S", "B", "ε"] ∧
      (((g.removeErasing .retain).removeErasing .retain).alternatives g.start).toList.map
        Word.text = ["S B", "B", "S", "ε"] :=
    ⟨_, rfl, by decide +kernel, by decide +kernel⟩
  have hg := Draft.wellFormed_of_build hbuild
  obtain ⟨hboth, hself⟩ := removeErasing_removeErasing hg
  exact ⟨g, hbuild, hg, hfirst, hsecond, hself .retain, hboth .retain .drop⟩

end Grammar

end ChomskyForm
