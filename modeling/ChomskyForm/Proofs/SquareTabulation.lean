import ChomskyForm.SquareTable
import ChomskyForm.Proofs.ChartScanning
import ChomskyForm.Proofs.ConversionLanguage

/-!
# The square table decides the language without the empty production

The invariant of the loops is about the whole table (`NormalForm.Filled`) : it is a square,
no cell holds a non-terminal that does not derive its part, and the cells of all parts up to
some length hold every non-terminal that does. A step only adds, so that it keeps what is
complete. A diagonal reads the cells of shorter parts alone, and when all ways to split have
been marked it is complete itself (`NormalForm.exists_markDiagonal`).

`NormalForm.tabulate_decides` : for a typed grammar no cell outside the table is asked for,
the flag decides on the empty sentence, and on the others the answer is yes exactly if the
start symbol derives them without the empty production. If the grammar needs the empty
production for nothing but the empty sentence, this is the answer of a scan of the grammar.
-/

namespace ChomskyForm

/-! ## Reading and writing -/

namespace SquareTable

variable {t : SquareTable} {n d i j k l : Nat} {A : NonTerminal}

/-- The cell in row `i` and column `j` has `A` in it. -/
def Holds (t : SquareTable) (i j : Nat) (A : NonTerminal) : Prop :=
  ∃ cell, t.cell? i j = some cell ∧ A ∈ cell

/-- What is in a cell stays there. -/
def Grows (t t' : SquareTable) : Prop := ∀ i j A, t.Holds i j A → t'.Holds i j A

/-- The table has `n` rows and `n` columns. -/
def Square (n : Nat) (t : SquareTable) : Prop := t.length = n ∧ ∀ row ∈ t, row.length = n

theorem Grows.refl (t : SquareTable) : t.Grows t := fun _ _ _ h => h

theorem Grows.trans (r s t : SquareTable) (hrs : r.Grows s) (hst : s.Grows t) : r.Grows t :=
  fun i j A h => hst i j A (hrs i j A h)

theorem square_blank (n : Nat) : (blank n).Square n :=
  ⟨List.length_replicate, fun _ hrow => by
    rw [List.eq_of_mem_replicate hrow, List.length_replicate]⟩

theorem not_holds_blank : ¬ (blank n).Holds i j A := by
  rintro ⟨cell, hcell, hA⟩
  obtain ⟨row, hrow, hcell⟩ := Option.bind_eq_some_iff.mp hcell
  rw [List.eq_of_mem_replicate (List.mem_of_getElem? hrow)] at hcell
  rw [List.eq_of_mem_replicate (List.mem_of_getElem? hcell)] at hA
  exact OrderedSet.mem_empty hA

theorem cell?_set {row : List (OrderedSet NonTerminal)} (hrow : t[i]? = some row)
    (hj : j < row.length) (cell : OrderedSet NonTerminal) (k l : Nat) :
    cell? (t.set i (row.set j cell)) k l = if k = i ∧ l = j then some cell else t.cell? k l := by
  obtain ⟨hi, -⟩ := List.getElem?_eq_some_iff.mp hrow
  by_cases hk : k = i
  · subst hk
    rw [cell?, List.getElem?_set_self hi, cell?, hrow]
    show (row.set j cell)[l]? = if _ then _ else row[l]?
    by_cases hl : l = j
    · subst hl
      rw [List.getElem?_set_self hj, if_pos ⟨rfl, rfl⟩]
    · rw [List.getElem?_set_ne (Ne.symm hl), if_neg fun h => hl h.2]
  · rw [cell?, List.getElem?_set_ne (Ne.symm hk), if_neg fun h => hk h.1, cell?]

theorem Square.exists_row (h : t.Square n) (hi : i < n) :
    ∃ row, t[i]? = some row ∧ row.length = n := by
  rw [← h.1] at hi
  exact ⟨t[i], List.getElem?_eq_getElem hi, h.2 _ (List.getElem_mem hi)⟩

theorem Square.exists_cell (h : t.Square n) (hi : i < n) (hj : j < n) :
    ∃ cell, t.cell? i j = some cell := by
  obtain ⟨row, hrow, hlen⟩ := h.exists_row hi
  rw [← hlen] at hj
  refine ⟨row[j], ?_⟩
  rw [cell?, hrow]
  exact List.getElem?_eq_getElem hj

/-- Within the table every cell can be written, and no other is changed. -/
theorem Square.exists_add (h : t.Square n) (hi : i < n) (hj : j < n) (A : NonTerminal) :
    ∃ t', t.add? i j A = some t' ∧ t'.Square n ∧ ∀ k l B,
      t'.Holds k l B ↔ t.Holds k l B ∨ (k = i ∧ l = j ∧ B = A) := by
  obtain ⟨row, hrow, hlen⟩ := h.exists_row hi
  obtain ⟨cell, hcell⟩ := h.exists_cell hi hj
  have hget : row[j]? = some cell := by rwa [cell?, hrow] at hcell
  refine ⟨t.set i (row.set j (cell.insert A)), ?_, ⟨?_, fun r hr => ?_⟩, fun k l B => ?_⟩
  · rw [add?, hrow]
    show (row[j]?.bind fun cell => some (t.set i (row.set j (cell.insert A)))) = _
    rw [hget]
    rfl
  · rw [List.length_set, h.1]
  · rcases List.mem_or_eq_of_mem_set hr with hr | rfl
    · exact h.2 r hr
    · rw [List.length_set, hlen]
  · unfold Holds
    rw [cell?_set hrow (hlen ▸ hj)]
    by_cases hkl : k = i ∧ l = j
    · obtain ⟨rfl, rfl⟩ := hkl
      simp [hcell]
    · rw [if_neg hkl]
      exact (or_iff_left fun hB => hkl ⟨hB.1, hB.2.1⟩).symm

theorem mem_splits : (i, k, j) ∈ splits n d ↔ j = i + d + 1 ∧ i ≤ k ∧ k < j ∧ j < n := by
  simp only [splits, List.mem_flatMap, List.mem_map, List.mem_range, List.mem_range'_1,
    Prod.mk.injEq]
  refine ⟨?_, fun h => ⟨i, by omega, k, by omega, rfl, rfl, h.1.symm⟩⟩
  rintro ⟨i, hi, k, hk, rfl, rfl, rfl⟩
  omega

end SquareTable

/-! ## The loops -/

namespace NormalForm

open SquareTable

variable {c : NormalForm} {u : Sentence} {t : SquareTable} {d i j k : Nat} {A : NonTerminal}
  {w : NormalWord}

theorem mem_pairings : (A, w) ∈ c.pairings ↔ c.Has A w := by
  simp only [pairings, List.mem_flatMap, List.mem_map, OrderedSet.mem_toList, Prod.mk.injEq]
  constructor
  · rintro ⟨⟨A, ws⟩, he, w, hw, rfl, rfl⟩
    exact ⟨ws, he, hw⟩
  · rintro ⟨ws, he, hw⟩
    exact ⟨(A, ws), he, w, hw, rfl, rfl⟩

/-- The productions, without the empty one. -/
def nonemptyRules (c : NormalForm) : List Rule := c.pairings.map fun r => (r.1, r.2.word)

theorem mem_nonemptyRules {r : Rule} : r ∈ c.nonemptyRules ↔ r ∈ solid c.rules := by
  obtain ⟨A, v⟩ := r
  simp only [nonemptyRules, List.mem_map, mem_solid_rules, Prod.exists, Prod.mk.injEq]
  refine ⟨?_, fun ⟨w, hw, hv⟩ => ⟨A, w, mem_pairings.mpr hw, rfl, hv.symm⟩⟩
  rintro ⟨B, w, hw, rfl, rfl⟩
  exact ⟨w, mem_pairings.mp hw, rfl⟩

/-- Every cell holds only what derives its part, and the cells of the parts of up to `d`
letters hold all that does. -/
structure Filled (c : NormalForm) (u : Sentence) (d : Nat) (t : SquareTable) : Prop where
  square : t.Square u.length
  sound : ∀ i j A, t.Holds i j A → Spans (solid c.rules) u [.nonTerminal A] i (j + 1)
  complete : ∀ m < d, ∀ i, i + m < u.length → ∀ A,
    Spans (solid c.rules) u [.nonTerminal A] i (i + m + 1) → t.Holds i (i + m) A

theorem filled_blank (c : NormalForm) (u : Sentence) : c.Filled u 0 (blank u.length) where
  square := square_blank _
  sound _ _ _ h := absurd h not_holds_blank
  complete _ hm := absurd hm (Nat.not_lt_zero _)

theorem Filled.holds_iff (h : c.Filled u d t) (hij : i ≤ j) (hd : j < i + d) (hj : j < u.length) :
    t.Holds i j A ↔ Spans (solid c.rules) u [.nonTerminal A] i (j + 1) := by
  obtain ⟨m, rfl⟩ := Nat.exists_eq_add_of_le hij
  exact ⟨h.sound i _ A, h.complete m (by omega) i hj A⟩

/-- What derives a part can be put into its cell. -/
theorem Filled.exists_add (h : c.Filled u d t)
    (hA : Spans (solid c.rules) u [.nonTerminal A] i (j + 1)) :
    ∃ t', t.add? i j A = some t' ∧ c.Filled u d t' ∧ t.Grows t' ∧ t'.Holds i j A := by
  have hij := lt_of_spans hA
  have hj := hA.2.1
  obtain ⟨t', hadd, hsquare, hholds⟩ := h.square.exists_add (i := i) (j := j) (by omega) hj A
  have hgrows : t.Grows t' := fun k l B hB => (hholds k l B).mpr (.inl hB)
  refine ⟨t', hadd, ⟨hsquare, fun k l B hB => ?_, fun m hm k hk B hB => ?_⟩, hgrows,
    (hholds i j A).mpr (.inr ⟨rfl, rfl, rfl⟩)⟩
  · rcases (hholds k l B).mp hB with hB | ⟨rfl, rfl, rfl⟩
    · exact h.sound k l B hB
    · exact hA
  · exact hgrows _ _ _ (h.complete m hm k hk B hB)

theorem exists_markLetter (hA : c.Has A w) (h : c.Filled u d t) :
    ∃ t', markLetter u t (A, w) = some t' ∧ c.Filled u d t' ∧ t.Grows t' ∧
      ∀ a, w = .terminal a → ∀ i, u[i]? = some a.text → t'.Holds i i A := by
  cases w with
  | pair B C => exact ⟨t, rfl, h, .refl t, nofun⟩
  | terminal a =>
    obtain ⟨t', hfold, hfilled, hgrows, hall⟩ := exists_foldlM (l := u.zipIdx) (s := t)
      (f := fun t b => if b.1 = a.text then t.add? b.2 b.2 A else return t)
      (P := c.Filled u d) (Q := fun (b : String × Nat) t => b.1 = a.text → t.Holds b.2 b.2 A)
      Grows.refl Grows.trans (fun _ _ _ hst hb ha => hst _ _ _ (hb ha)) (fun b hb s hs => by
        by_cases ha : b.1 = a.text
        · have hletter : u[b.2]? = some a.text := ha ▸ List.mem_zipIdx_iff_getElem?.mp hb
          obtain ⟨s', hadd, hs', hgrows, hholds⟩ := hs.exists_add (spans_one_iff.mpr ⟨a, hA, hletter⟩)
          exact ⟨s', (if_pos ha).trans hadd, hs', hgrows, fun _ => hholds⟩
        · exact ⟨s, if_neg ha, hs, .refl s, fun h => absurd h ha⟩) h
    refine ⟨t', hfold, hfilled, hgrows, fun b hb i hi => ?_⟩
    cases hb
    exact hall (a.text, i) (List.mem_zipIdx_iff_getElem?.mpr hi) rfl

/-- A part is marked if its two pieces are, and these are shorter. -/
theorem exists_markSplit (hA : c.Has A w) (hs : (i, k, j) ∈ splits u.length d)
    (h : c.Filled u (d + 1) t) :
    ∃ t', markSplit i k j t (A, w) = some t' ∧ c.Filled u (d + 1) t' ∧ t.Grows t' ∧
      ∀ B C, w = .pair B C → Spans (solid c.rules) u [.nonTerminal B] i (k + 1) →
        Spans (solid c.rules) u [.nonTerminal C] (k + 1) (j + 1) → t'.Holds i j A := by
  obtain ⟨hjd, hik, hkj, hj⟩ := mem_splits.mp hs
  cases w with
  | terminal a => exact ⟨t, rfl, h, .refl t, nofun⟩
  | pair B C =>
    obtain ⟨left, hleft⟩ := h.square.exists_cell (i := i) (j := k) (by omega) (by omega)
    obtain ⟨right, hright⟩ := h.square.exists_cell (i := k + 1) (j := j) (by omega) hj
    have hB : B ∈ left ↔ Spans (solid c.rules) u [.nonTerminal B] i (k + 1) := by
      rw [← h.holds_iff hik (by omega) (by omega)]
      simp [Holds, hleft]
    have hC : C ∈ right ↔ Spans (solid c.rules) u [.nonTerminal C] (k + 1) (j + 1) := by
      rw [← h.holds_iff hkj (by omega) hj]
      simp [Holds, hright]
    have hmark : markSplit i k j t (A, .pair B C) =
        if B ∈ left then if C ∈ right then t.add? i j A else some t else some t := by
      rw [markSplit, hleft]
      show (if B ∈ left then (t.cell? (k + 1) j).bind _ else some t) = _
      rw [hright]
      rfl
    rw [hmark]
    by_cases hboth : B ∈ left ∧ C ∈ right
    · have hspan : Spans (solid c.rules) u [.nonTerminal A] i (j + 1) :=
        spans_iff.mpr (.inr ⟨B, C, hA, k + 1, hB.mp hboth.1, hC.mp hboth.2⟩)
      obtain ⟨t', hadd, ht', hgrows, hholds⟩ := h.exists_add hspan
      rw [if_pos hboth.1, if_pos hboth.2]
      exact ⟨t', hadd, ht', hgrows, fun _ _ _ _ _ => hholds⟩
    · refine ⟨t, ?_, h, .refl t, fun B' C' hw hB' hC' => ?_⟩
      · split
        · exact if_neg fun hright => hboth ⟨‹_›, hright⟩
        · rfl
      · cases hw
        exact absurd ⟨hB.mpr hB', hC.mpr hC'⟩ hboth

/-- When every way to split has been tried, the next diagonal is complete. -/
theorem exists_markDiagonal (h : c.Filled u (d + 1) t) :
    ∃ t', c.markDiagonal u.length t d = some t' ∧ c.Filled u (d + 2) t' := by
  obtain ⟨t', hfold, hfilled, -, hall⟩ := exists_foldlM (l := splits u.length d) (s := t)
    (f := fun t s => c.pairings.foldlM (markSplit s.1 s.2.1 s.2.2) t) (P := c.Filled u (d + 1))
    (Q := fun (s : Nat × Nat × Nat) t => ∀ r ∈ c.pairings, ∀ B C, r.2 = .pair B C →
      Spans (solid c.rules) u [.nonTerminal B] s.1 (s.2.1 + 1) →
        Spans (solid c.rules) u [.nonTerminal C] (s.2.1 + 1) (s.2.2 + 1) →
          t.Holds s.1 s.2.2 r.1)
    Grows.refl Grows.trans
    (fun _ _ _ hst hs r hr B C hw hB hC => hst _ _ _ (hs r hr B C hw hB hC))
    (fun s hs t ht => exists_foldlM Grows.refl Grows.trans
      (fun _ _ _ hst hr B C hw hB hC => hst _ _ _ (hr B C hw hB hC))
      (fun r hr t ht => exists_markSplit (mem_pairings.mp hr) hs ht) ht) h
  refine ⟨t', hfold, hfilled.square, hfilled.sound, fun m hm i hi A hA => ?_⟩
  rcases Nat.lt_or_eq_of_le (Nat.le_of_lt_succ hm) with hlt | rfl
  · exact hfilled.complete m hlt i hi A hA
  · obtain ⟨B, C, hp, m, hm, hB, hC⟩ := spans_more_iff.mp hA
    exact hall (i, i + m, i + d + 1) (mem_splits.mpr (by omega)) _ (mem_pairings.mpr hp) B C rfl hB hC

/-- The table can be filled, and it is complete in the end. -/
theorem exists_fillTable (c : NormalForm) (hu : u ≠ []) :
    ∃ t, c.fillTable u = some t ∧ c.Filled u u.length t := by
  have hpos : 0 < u.length := List.length_pos_iff.mpr hu
  obtain ⟨t, hletters, hfilled, -, hall⟩ := exists_foldlM (l := c.pairings) (s := blank u.length)
    (f := markLetter u) (P := c.Filled u 0)
    (Q := fun r t => ∀ a, r.2 = .terminal a → ∀ i, u[i]? = some a.text → t.Holds i i r.1)
    Grows.refl Grows.trans (fun _ _ _ hst hr a hw i hi => hst _ _ _ (hr a hw i hi))
    (fun r hr t ht => exists_markLetter (mem_pairings.mp hr) ht) (c.filled_blank u)
  have hone : c.Filled u 1 t := by
    refine ⟨hfilled.square, hfilled.sound, fun m hm i hi A hA => ?_⟩
    obtain rfl : m = 0 := Nat.lt_one_iff.mp hm
    obtain ⟨a, ha, hletter⟩ := spans_one_iff.mp hA
    exact hall _ (mem_pairings.mpr ha) a rfl i hletter
  obtain ⟨t', hdiagonals, ht'⟩ := exists_foldlM_range (P := fun d t => c.Filled u (d + 1) t) hone
    (u.length - 1) fun d _ t ht => exists_markDiagonal ht
  refine ⟨t', ?_, ?_⟩
  · rw [fillTable, hletters]
    exact hdiagonals
  · rwa [Nat.sub_add_cancel hpos] at ht'

/-- The square table has the answer of the table with a row for each length. -/
theorem tabulate_eq_recognizes (c : NormalForm) (u : Sentence) :
    c.tabulate u = some (c.recognizes u) := by
  by_cases hu : u = []
  · subst hu
    rfl
  · obtain ⟨n, hn⟩ := Nat.exists_eq_succ_of_ne_zero (mt List.eq_nil_of_length_eq_zero hu)
    obtain ⟨t, hfill, ht⟩ := c.exists_fillTable hu
    obtain ⟨cell, hcell⟩ := ht.square.exists_cell (i := 0) (j := n) (by omega) (by omega)
    have hlast : c.start ∈ cell ↔ c.recognizes u = true := by
      rw [recognizes_iff hu, ← spans_length_iff, hn,
        ← ht.holds_iff (Nat.zero_le n) (by omega) (by omega)]
      simp [Holds, hcell]
    unfold tabulate
    rw [hn, hfill]
    show (t.cell? 0 n).bind (fun cell => some (decide (c.start ∈ cell))) = _
    rw [hcell]
    show some (decide (c.start ∈ cell)) = _
    exact congrArg some (Bool.eq_iff_iff.mpr (decide_eq_true_iff.trans hlast))

/-- The table of a typed grammar has an answer for every sentence : the flag for the empty
one, and for the others whether the start symbol derives them without the empty production.
This is the answer of a scan of the grammar if there is no empty production, or if the start
symbol is on no right-hand side. -/
theorem tabulate_decides {g : Grammar} (h : ofGrammar g = .ok c) :
    c.tabulate [] = some c.erasable ∧
      (∀ u, u ≠ [] → ∃ answer, c.tabulate u = some answer ∧
        (answer = true ↔ Yields c.nonemptyRules [.nonTerminal c.start] u)) ∧
      ((g.erasing = [] ∨ ∀ r ∈ g.rules, .nonTerminal g.start ∉ r.2) →
        ∀ u, c.tabulate u = g.scan u) := by
  obtain ⟨hg, rfl⟩ := of_ofGrammar h
  refine ⟨rfl, fun u hu => ⟨_, tabulate_eq_recognizes _ u, ?_⟩, fun hstart u => ?_⟩
  · rw [recognizes_iff hu]
    exact ⟨Yields.mono fun _ => mem_nonemptyRules.mpr, Yields.mono fun _ => mem_nonemptyRules.mp⟩
  · rw [tabulate_eq_recognizes, Grammar.scan_eq_recognizes]
    exact congrArg some ((Grammar.cleared_of_isNormal hg hstart).recognizes_typed hg u)

/-- The start symbol has an empty production and is on no right-hand side. -/
theorem tabulate_decides_start : ∃ g c, (Draft.ofDeclarations "S" [.terminals ["a", "b"],
      .production "S" ["A", "B"], .erasing "S", .production "A" ["a"],
      .production "B" ["b"]]).build = .ok g ∧ ofGrammar g = .ok c ∧ c.tabulate [] = some true ∧
    c.tabulate ["a", "b"] = some true ∧ ∀ u, c.tabulate u = g.scan u := by
  let a : Terminal := ⟨"a", by decide⟩
  let b : Terminal := ⟨"b", by decide⟩
  let A : NonTerminal := ⟨"A", by decide⟩
  let B : NonTerminal := ⟨"B", by decide⟩
  obtain ⟨g, c, hbuild, hc, herasable, hpair, ha, hb, hstart⟩ : ∃ g c,
      (Draft.ofDeclarations "S" [.terminals ["a", "b"], .production "S" ["A", "B"],
        .erasing "S", .production "A" ["a"], .production "B" ["b"]]).build = .ok g ∧
      ofGrammar g = .ok c ∧ c.erasable = true ∧
      (c.start, [.nonTerminal A, .nonTerminal B]) ∈ c.nonemptyRules ∧
      (A, [.terminal a]) ∈ c.nonemptyRules ∧ (B, [.terminal b]) ∈ c.nonemptyRules ∧
      ∀ r ∈ g.rules, .nonTerminal g.start ∉ r.2 :=
    ⟨_, _, rfl, rfl, by decide +kernel, by decide +kernel, by decide +kernel, by decide +kernel,
      by decide +kernel⟩
  obtain ⟨hnil, hword, hscan⟩ := tabulate_decides hc
  have hderives : Yields c.nonemptyRules [.nonTerminal c.start] ["a", "b"] :=
    .of_mem hpair (.nonTerminal ha (.terminal .nil) (.nonTerminal hb (.terminal .nil) .nil))
  obtain ⟨answer, htable, hanswer⟩ := hword ["a", "b"] (List.cons_ne_nil _ _)
  refine ⟨g, c, hbuild, hc, hnil.trans (congrArg some herasable), ?_, hscan (.inr hstart)⟩
  rw [htable, hanswer.mpr hderives]

/-- On the right-hand side the start symbol may be needed with its empty production. -/
example : ∃ g c, (Draft.ofDeclarations "S" [.terminals ["a"], .production "S" ["A", "S"],
      .erasing "S", .production "A" ["a"]]).build = .ok g ∧ ofGrammar g = .ok c ∧
    c.tabulate ["a"] = some false ∧ g.scan ["a"] = some true :=
  ⟨_, _, rfl, rfl, by decide +kernel, by decide +kernel⟩

end NormalForm

end ChomskyForm
