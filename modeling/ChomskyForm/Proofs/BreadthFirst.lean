import Mathlib.Order.Lattice.Nat
import ChomskyForm.Draft
import ChomskyForm.UnitLevels
import ChomskyForm.Proofs.UnitRemoval

/-!
# The unit closure is breadth-first

The distance of a non-terminal is the length of a shortest path of unit productions to it
(`Grammar.unitDistance`). After `n` rounds of the search the last level holds what is at
distance `n`, and what was seen has a path of at most `n` productions
(`Grammar.ReachedWithin`). So each round puts greater distances behind smaller ones
(`Grammar.pairwise_unitDistance`).

No level is beyond the number of left-hand sides (`Grammar.level_unitSearch_eq_empty`). So the
search that waits for a round without finds has an answer, which is the closure
(`Grammar.searchUnits_eq`). All of it together is `Grammar.unitClosure_breadthFirst`.
-/

namespace ChomskyForm

namespace Grammar

/-! ## Distances -/

/-- A path of `n` unit productions leads from `A` to `B`. -/
inductive UnitPath (g : Grammar) (A : NonTerminal) : Nat → NonTerminal → Prop
  | here : UnitPath g A 0 A
  | step {n : Nat} {B C : NonTerminal} : UnitPath g A n B → g.UnitLeads B C → UnitPath g A (n + 1) C

/-- The length of a shortest path of unit productions from `A` to `B`. -/
noncomputable def unitDistance (g : Grammar) (A B : NonTerminal) : Nat :=
  sInf {n | g.UnitPath A n B}

variable {g : Grammar} {A B : NonTerminal} {n : Nat} {s : UnitSearch}

theorem unitReaches_iff_unitPath : g.UnitReaches A B ↔ ∃ n, g.UnitPath A n B := by
  constructor
  · intro h
    induction h with
    | refl => exact ⟨0, .here⟩
    | tail _ hlead ih =>
      obtain ⟨n, hn⟩ := ih
      exact ⟨n + 1, hn.step hlead⟩
  · rintro ⟨n, hn⟩
    induction hn with
    | here => exact .refl
    | step _ hlead ih => exact ih.tail hlead

theorem unitDistance_eq (h : IsLeast {k | g.UnitPath A k B} n) : g.unitDistance A B = n :=
  h.csInf_eq

theorem unitDistance_le (h : g.UnitPath A n B) : g.unitDistance A B ≤ n := Nat.sInf_le h

/-- The last level is at distance `n`, and what was seen is not farther. -/
structure ReachedWithin (g : Grammar) (A : NonTerminal) (n : Nat) (s : UnitSearch) : Prop where
  level : ∀ B, B ∈ s.level ↔ IsLeast {k | g.UnitPath A k B} n
  seen : ∀ B, B ∈ s.seen ↔ ∃ k ≤ n, g.UnitPath A k B

theorem ReachedWithin.start (g : Grammar) (A : NonTerminal) :
    g.ReachedWithin A 0 (g.unitSearch A 0) where
  level B := by
    refine OrderedSet.mem_singleton.trans ⟨?_, fun h => ?_⟩
    · rintro rfl
      exact ⟨.here, fun k _ => Nat.zero_le k⟩
    · cases h.1
      rfl
  seen B := by
    refine OrderedSet.mem_singleton.trans ⟨?_, ?_⟩
    · rintro rfl
      exact ⟨0, Nat.le_refl 0, .here⟩
    · rintro ⟨k, hk, hB⟩
      obtain rfl : k = 0 := Nat.le_zero.mp hk
      cases hB
      rfl

/-- What a level leads to is one step farther, unless a shorter path leads there. -/
theorem ReachedWithin.mem_level_step (h : g.ReachedWithin A n s) :
    B ∈ (g.unitStep s).level ↔ IsLeast {k | g.UnitPath A k B} (n + 1) := by
  rw [mem_level_unitStep, h.seen]
  constructor
  · rintro ⟨hnew, C, hC, hlead⟩
    refine ⟨UnitPath.step ((h.level C).mp hC).1 hlead, fun k hk => Nat.not_lt.mp fun hlt => ?_⟩
    exact hnew ⟨k, Nat.lt_succ_iff.mp hlt, hk⟩
  · rintro ⟨hpath, hleast⟩
    refine ⟨fun ⟨k, hk, hB⟩ => ?_, ?_⟩
    · exact absurd (hleast hB) (Nat.not_le.mpr (Nat.lt_succ_of_le hk))
    · cases hpath with
      | step hC hlead =>
        -- a shorter path to the last but one would give a shorter path to `B`
        refine ⟨_, (h.level _).mpr ⟨hC, fun k hk => ?_⟩, hlead⟩
        exact Nat.le_of_succ_le_succ (hleast (UnitPath.step hk hlead))

theorem ReachedWithin.step (h : g.ReachedWithin A n s) :
    g.ReachedWithin A (n + 1) (g.unitStep s) where
  level _ := h.mem_level_step
  seen B := by
    rw [mem_seen_unitStep, h.seen, h.mem_level_step]
    constructor
    · rintro (⟨k, hk, hB⟩ | hB)
      · exact ⟨k, Nat.le_succ_of_le hk, hB⟩
      · exact ⟨n + 1, Nat.le_refl _, hB.1⟩
    · rintro ⟨k, hk, hB⟩
      by_cases hnear : ∃ k ≤ n, g.UnitPath A k B
      · exact .inl hnear
      · have hfar : ∀ l, g.UnitPath A l B → n + 1 ≤ l := fun l hl =>
          Nat.not_lt.mp fun hlt => hnear ⟨l, Nat.lt_succ_iff.mp hlt, hl⟩
        obtain rfl := Nat.le_antisymm hk (hfar k hB)
        exact .inr ⟨hB, fun l hl => hfar l hl⟩

theorem reachedWithin (g : Grammar) (A : NonTerminal) : ∀ n, g.ReachedWithin A n (g.unitSearch A n)
  | 0 => .start g A
  | n + 1 => (reachedWithin g A n).step

/-! ## The order -/

/-- A level is put behind what was seen. -/
theorem toList_seen_unitStep (g : Grammar) (s : UnitSearch) :
    (g.unitStep s).seen.toList = s.seen.toList ++ (g.unitStep s).level.toList := by
  refine OrderedSet.toList_insertAll_of_nodup (List.nodup_append.mpr ⟨s.seen.nodup,
    (g.unitStep s).level.nodup, fun B hB C hC heq => ?_⟩)
  exact (mem_level_unitStep.mp hC).1 (heq ▸ hB)

theorem head?_unitSearch (g : Grammar) (A : NonTerminal) : ∀ n,
    (g.unitSearch A n).seen.toList.head? = some A
  | 0 => rfl
  | n + 1 => by
    rw [unitSearch, toList_seen_unitStep, List.head?_append, head?_unitSearch g A n]
    rfl

/-- Smaller distances come first. -/
theorem pairwise_unitDistance (g : Grammar) (A : NonTerminal) : ∀ n,
    (g.unitSearch A n).seen.toList.Pairwise fun B C => g.unitDistance A B ≤ g.unitDistance A C
  | 0 => List.pairwise_singleton _ _
  | n + 1 => by
    have hreached := reachedWithin g A n
    have hlevel : ∀ C ∈ (g.unitStep (g.unitSearch A n)).level.toList,
        g.unitDistance A C = n + 1 := fun C hC =>
      unitDistance_eq (hreached.mem_level_step.mp hC)
    rw [unitSearch, toList_seen_unitStep]
    refine List.pairwise_append.mpr ⟨pairwise_unitDistance g A n, ?_, fun B hB C hC => ?_⟩
    · exact List.pairwise_of_forall_mem_list fun B hB C hC =>
        Nat.le_of_eq ((hlevel B hB).trans (hlevel C hC).symm)
    · obtain ⟨k, hk, hpath⟩ := (hreached.seen B).mp hB
      rw [hlevel C hC]
      exact (unitDistance_le hpath).trans (Nat.le_succ_of_le hk)

/-! ## The end of the search -/

/-- Every level so far has a left-hand side of its own. -/
theorem level_unitSearch_eq_empty (A : NonTerminal) (h : g.productions.size < n) :
    (g.unitSearch A n).level = .empty := by
  refine OrderedSet.ext (List.eq_nil_iff_forall_not_mem.mpr fun B hB => ?_)
  obtain ⟨heads, hnodup, hlen, hheads⟩ := exists_heads_unitSearch g A n ⟨B, hB⟩
  have hle := hnodup.length_le_of_subset fun C hC => (hheads C hC).1
  rw [hlen, OrderedMap.length_keys] at hle
  exact absurd h (Nat.not_lt.mpr hle)

/-- A round that adds no level changes nothing, nor do the rounds after it. -/
theorem unitSearch_add_of_level_eq_empty (h : (g.unitSearch A n).level = .empty) :
    ∀ m, g.unitSearch A (n + m) = g.unitSearch A n
  | 0 => rfl
  | m + 1 => by
    have hstep : g.unitSearch A (n + (m + 1)) = g.unitStep (g.unitSearch A (n + m)) := rfl
    rw [hstep, unitSearch_add_of_level_eq_empty h m, unitStep, h]
    exact congrArg (UnitSearch.mk (g.unitSearch A n).seen) h.symm

theorem seen_unitSearch_of_level_succ_eq_empty (h : (g.unitSearch A (n + 1)).level = .empty)
    (m : Nat) : (g.unitSearch A (n + m)).seen = (g.unitSearch A n).seen := by
  cases m with
  | zero => rfl
  | succ m =>
    have hseen : (g.unitSearch A (n + 1)).seen =
        (g.unitSearch A n).seen.insertAll (g.unitSearch A (n + 1)).level.toList := rfl
    rw [Nat.add_comm m, ← Nat.add_assoc, unitSearch_add_of_level_eq_empty h, hseen, h]
    rfl

/-! ## Collecting the next level -/

theorem foldl_collectUnit (closure : OrderedSet NonTerminal) :
    ∀ (ws : List Word) (next : OrderedSet NonTerminal), ws.foldl (collectUnit closure) next =
      next.insertAll ((ws.filterMap Word.unit?).filter fun B => B ∉ closure)
  | [], _ => rfl
  | w :: ws, next => by
    rw [List.foldl_cons, foldl_collectUnit closure ws, collectUnit]
    cases hw : w.unit? with
    | none => rw [List.filterMap_cons_none hw]
    | some B =>
      rw [List.filterMap_cons_some hw]
      by_cases hB : B ∈ closure
      · rw [List.filter_cons_of_neg (by simpa using hB)]
        simp only [if_pos hB]
      · rw [List.filter_cons_of_pos (by simpa using hB)]
        simp only [if_neg hB]
        rfl

theorem collectUnits_eq (closure next : OrderedSet NonTerminal) (A : NonTerminal) :
    g.collectUnits closure next A =
      next.insertAll ((g.unitTargets A).filter fun B => B ∉ closure) := by
  rw [collectUnits, unitTargets, alternatives]
  cases g.productions.find? A with
  | none => rfl
  | some ws => exact foldl_collectUnit closure ws.toList next

theorem foldl_collectUnits (closure : OrderedSet NonTerminal) :
    ∀ (l : List NonTerminal) (next : OrderedSet NonTerminal),
      l.foldl (g.collectUnits closure) next =
        next.insertAll ((l.flatMap g.unitTargets).filter fun B => B ∉ closure)
  | [], _ => rfl
  | A :: l, next => by
    rw [List.foldl_cons, foldl_collectUnits closure l, collectUnits_eq, List.flatMap_cons,
      List.filter_append, OrderedSet.insertAll_append]

/-- A round of the open search is a round of the counted one. -/
theorem mergeLevels_succ (n : Nat) {closure : OrderedSet NonTerminal}
    (h : closure.insertAll s.level.toList = s.seen) :
    g.mergeLevels (n + 1) closure s.level =
      if (g.unitStep s).level.toList.isEmpty then some s.seen
      else g.mergeLevels n s.seen (g.unitStep s).level := by
  rw [mergeLevels, h, foldl_collectUnits]
  rfl

/-- The open search ends with what the counted one has seen by then. -/
theorem mergeLevels_unitSearch (A : NonTerminal) : ∀ (m k : Nat) {closure : OrderedSet NonTerminal},
    closure.insertAll (g.unitSearch A k).level.toList = (g.unitSearch A k).seen →
      (g.unitSearch A (k + m + 1)).level = .empty →
        g.mergeLevels (m + 1) closure (g.unitSearch A k).level = some (g.unitSearch A (k + m)).seen
  | m, k, closure, hseen, hlast => by
    rw [mergeLevels_succ m hseen]
    by_cases hnext : (g.unitSearch A (k + 1)).level = .empty
    · have hempty : (g.unitStep (g.unitSearch A k)).level.toList.isEmpty = true :=
        congrArg (List.isEmpty ∘ OrderedSet.toList) hnext
      rw [if_pos hempty, seen_unitSearch_of_level_succ_eq_empty hnext]
    · have hne : ¬ (g.unitStep (g.unitSearch A k)).level.toList.isEmpty = true := fun hempty =>
        hnext (OrderedSet.ext (List.isEmpty_iff.mp hempty))
      rw [if_neg hne]
      cases m with
      | zero => exact absurd hlast hnext
      | succ m =>
        have hk : k + (m + 1) = k + 1 + m := by omega
        rw [hk] at hlast ⊢
        exact mergeLevels_unitSearch A m (k + 1) rfl hlast

/-- With a round more than there are left-hand sides the search comes to an end. -/
theorem searchUnits_eq (g : Grammar) (A : NonTerminal) (more : Nat) :
    g.searchUnits A (g.productions.size + 1 + more) = some (g.unitClosure A) := by
  have hlast : ∀ m, (g.unitSearch A (g.productions.size + m + 1)).level = .empty := fun m =>
    level_unitSearch_eq_empty A (by omega)
  have hrun : g.mergeLevels (g.productions.size + more + 1) .empty (g.unitSearch A 0).level =
      some (g.unitSearch A (0 + (g.productions.size + more))).seen :=
    mergeLevels_unitSearch A _ 0 rfl (by rw [Nat.zero_add]; exact hlast more)
  rw [Nat.zero_add, seen_unitSearch_of_level_succ_eq_empty (hlast 0)] at hrun
  rw [Nat.add_right_comm]
  exact hrun

/-- The search has an answer in any sufficient number of rounds. It lists once each the
non-terminals that a path of unit productions leads to, `A` first, and nearer ones before
those that are farther. -/
theorem unitClosure_breadthFirst (g : Grammar) (A : NonTerminal) :
    (∀ more, g.searchUnits A (g.productions.size + 1 + more) = some (g.unitClosure A)) ∧
      (g.unitClosure A).toList.Nodup ∧
      (∀ B, B ∈ g.unitClosure A ↔ ∃ n, g.UnitPath A n B) ∧
      (g.unitClosure A).toList.head? = some A ∧
      ((g.unitClosure A).toList.map (g.unitDistance A)).Pairwise (· ≤ ·) :=
  ⟨searchUnits_eq g A, (g.unitClosure A).nodup,
    fun _ => mem_unitClosure.trans unitReaches_iff_unitPath, head?_unitSearch g A _,
    List.pairwise_map.mpr (pairwise_unitDistance g A _)⟩

/-- Two ways lead to `D`, and cycles lead back. The longer way, of which `C` is the end, is
listed last although its first member comes first. -/
example : ∃ g, (Draft.ofDeclarations "S" [.production "S" ["A"], .production "S" ["B"],
      .production "A" ["C"], .production "C" ["D"], .production "B" ["B"], .production "B" ["D"],
      .production "D" ["S"]]).build = .ok g ∧
    (g.unitClosure g.start).toList.map Name.text = ["S", "A", "B", "C", "D"] :=
  ⟨_, rfl, by decide +kernel⟩

end Grammar

end ChomskyForm
