import Mathlib.Data.Nat.Nth
import ChomskyForm.NameCounter
import ChomskyForm.Proofs.IssuedNames

/-!
# A supply issues the least free names

Let `p` be the free numbers of a supply in the beginning. Ever after, `p` is what is free from
the next number on, and as many of its numbers lie behind as names were issued
(`NameSupply.Follows`). So the first free number is the one of `p` with this index
(`NameSupply.Follows.firstFree_eq`), and the names of a run are numbered by `p` in order
(`NameSupply.Follows.issueMany_eq`). There is always one more (`NameSupply.infinite_isFree`).

A counter that goes from number to number and keeps pace with a supply
(`NameCounter.KeepsPace`) issues the same names. One trial more than there are taken texts is
enough (`NameCounter.KeepsPace.exists_draw`).

`NameSupply.issueMany_avoiding` puts this together for a supply that has issued nothing.
-/

namespace ChomskyForm

namespace NameSupply

/-! ## Free numbers in order -/

/-- Of the numbers in `p`, `n` are behind the next one, and from there on `p` is what is free. -/
structure Follows (p : Nat → Prop) [DecidablePred p] (n : Nat) (s : NameSupply) : Prop where
  behind : Nat.count p s.next = n
  ahead : ∀ k, s.next ≤ k → (s.IsFree k ↔ p k)

variable {p : Nat → Prop} [DecidablePred p] {n : Nat} {s : NameSupply}

theorem follows_avoiding (stem : Name) (taken : List String) :
    Follows (avoiding stem taken).IsFree 0 (avoiding stem taken) :=
  ⟨Nat.count_zero _, fun _ _ => Iff.rfl⟩

/-- What lies between the next number and the first free one is not in `p`. -/
theorem Follows.count_firstFree (h : Follows p n s) : Nat.count p s.firstFree = n := by
  obtain ⟨-, hle, hleast⟩ := s.firstFree_least
  obtain ⟨d, hd⟩ := Nat.exists_eq_add_of_le hle
  have hskip : Nat.count (fun k => p (s.next + k)) d = 0 :=
    Nat.count_of_forall_not fun k hk hp =>
      hleast (s.next + k) (Nat.le_add_right _ _) (by omega)
        ((h.ahead _ (Nat.le_add_right _ _)).mpr hp)
  rw [hd, Nat.count_add, h.behind, hskip, Nat.add_zero]

theorem Follows.holds_firstFree (h : Follows p n s) : p s.firstFree :=
  (h.ahead _ s.firstFree_least.2.1).mp s.firstFree_least.1

theorem Follows.firstFree_eq (h : Follows p n s) : s.firstFree = Nat.nth p n := by
  have hnth := Nat.nth_count h.holds_firstFree
  rw [h.count_firstFree] at hnth
  exact hnth.symm

theorem Follows.issue (h : Follows p n s) : Follows p (n + 1) s.issue.2 where
  behind := by
    show Nat.count p (s.firstFree + 1) = n + 1
    rw [Nat.count_succ, h.count_firstFree, if_pos h.holds_firstFree]
  ahead k hk := by
    have hlt : s.firstFree < k := hk
    have hnew : (s.stem.numbered k).text ≠ (s.stem.numbered s.firstFree).text := fun htext =>
      Nat.ne_of_gt hlt (Name.numbered_inj (Name.ext htext))
    have hfree : s.issue.2.IsFree k ↔ s.IsFree k := by
      show (s.stem.numbered k).text ∉ s.taken ++ [(s.stem.numbered s.firstFree).text] ↔
        (s.stem.numbered k).text ∉ s.taken
      rw [List.mem_append, List.mem_singleton, or_iff_left hnew]
    exact hfree.trans (h.ahead k (s.firstFree_least.2.1.trans hlt.le))

/-- The names of a run are numbered by `p` in order. -/
theorem Follows.issueMany_eq : ∀ (m : Nat) {n : Nat} {s : NameSupply}, Follows p n s →
    (issueMany m s).1 = (List.range' n m).map fun i => s.stem.numbered (Nat.nth p i)
  | 0, _, _, _ => rfl
  | m + 1, n, s, h => by
    have ih := issueMany_eq m h.issue
    have hcons : (issueMany (m + 1) s).1 = s.issue.1 :: (issueMany m s.issue.2).1 := rfl
    have hfirst : s.issue.1 = s.stem.numbered s.firstFree := rfl
    rw [hcons, ih, hfirst, h.firstFree_eq, List.range'_succ, List.map_cons]
    rfl

/-- Beyond every number there is a free one. -/
theorem infinite_isFree (s : NameSupply) : {k | s.IsFree k}.Infinite := by
  refine Set.infinite_of_forall_exists_gt fun k => ?_
  obtain ⟨l, hl, hfree⟩ :=
    exists_numbered_not_mem s.stem s.taken.length (k + 1) s.taken (Nat.le_refl _)
  exact ⟨l, hfree, (List.mem_range'_1.mp hl).1⟩

/-- The first free number is among one candidate more than there are taken texts. -/
theorem firstFree_lt (s : NameSupply) : s.firstFree < s.next + (s.taken.length + 1) := by
  obtain ⟨k, hk, hfree⟩ := s.exists_free
  obtain ⟨hle, hlt⟩ := List.mem_range'_1.mp hk
  refine Nat.lt_of_le_of_lt (Nat.not_lt.mp fun hgt => ?_) hlt
  exact s.firstFree_least.2.2 k hle hgt hfree

end NameSupply

/-! ## Counting on -/

namespace NameCounter

/-- The counter is where the supply is. -/
structure KeepsPace (c : NameCounter) (s : NameSupply) : Prop where
  stem : c.stem = s.stem
  next : c.next = s.next
  taken : ∀ t, t ∈ c.taken ↔ t ∈ s.taken
  issued : c.issued = s.issued

theorem keepsPace_avoiding (stem : Name) (taken : List String) :
    KeepsPace (avoiding stem taken) (.avoiding stem taken) :=
  ⟨rfl, rfl, fun _ => OrderedSet.mem_ofList, rfl⟩

/-- A draw stops at the first number whose name is not taken. -/
theorem draw_eq {k : Nat} : ∀ {n : Nat} {c : NameCounter}, c.next ≤ k → k < c.next + n →
    (c.stem.numbered k).text ∉ c.taken →
      (∀ j, c.next ≤ j → j < k → (c.stem.numbered j).text ∈ c.taken) →
        draw n c = some (c.stem.numbered k, { c with
          next := k + 1
          taken := c.taken.insert (c.stem.numbered k).text
          issued := c.issued ++ [c.stem.numbered k] })
  | 0, c, hle, hlt, _, _ => absurd hlt (Nat.not_lt.mpr hle)
  | n + 1, c, hle, hlt, hfree, htaken => by
    rw [draw]
    rcases Nat.eq_or_lt_of_le hle with heq | hgt
    · rw [← heq] at hfree ⊢
      exact if_neg hfree
    · have hnext : k < c.next + 1 + n := by omega
      refine (if_pos (htaken c.next (Nat.le_refl _) hgt)).trans ?_
      exact draw_eq hgt hnext hfree fun j hj =>
        htaken j (Nat.le_of_succ_le hj)

variable {c : NameCounter} {s : NameSupply}

theorem KeepsPace.exists_draw (h : c.KeepsPace s) {trials : Nat}
    (htrials : s.taken.length < trials) :
    ∃ d, draw trials c = some (s.issue.1, d) ∧ KeepsPace d s.issue.2 := by
  obtain ⟨hfree, hle, hleast⟩ := s.firstFree_least
  have hlt := s.firstFree_lt
  have hdraw : draw trials c = some (c.stem.numbered s.firstFree, _) :=
    draw_eq (by rw [h.next]; exact hle) (by rw [h.next]; omega)
      (by rw [h.taken, h.stem]; exact hfree) fun j hj hlt => by
        rw [h.next] at hj
        rw [h.taken, h.stem]
        exact Decidable.not_not.mp (hleast j hj hlt)
  rw [h.stem] at hdraw
  refine ⟨_, hdraw, rfl, rfl, fun t => ?_, congrArg (· ++ [s.issue.1]) h.issued⟩
  show t ∈ c.taken.insert s.issue.1.text ↔ t ∈ s.taken ++ [s.issue.1.text]
  rw [OrderedSet.mem_insert, h.taken, List.mem_append, List.mem_singleton]

/-- Names are taken as they are issued, so the number of trials must allow for them. -/
theorem KeepsPace.exists_drawMany {trials : Nat} : ∀ (n : Nat) {c : NameCounter} {s : NameSupply},
    c.KeepsPace s → s.taken.length + n ≤ trials →
      ∃ d, drawMany trials n c = some ((s.issueMany n).1, d) ∧ KeepsPace d (s.issueMany n).2
  | 0, c, _, h, _ => ⟨c, rfl, h⟩
  | n + 1, c, s, h, htrials => by
    obtain ⟨d, hdraw, hd⟩ := h.exists_draw (show s.taken.length < trials by omega)
    have hlen : s.issue.2.taken.length + n ≤ trials := by
      rw [show s.issue.2.taken.length = s.taken.length + 1 from List.length_append]
      omega
    obtain ⟨e, hrest, he⟩ := exists_drawMany n hd hlen
    refine ⟨e, ?_, he⟩
    rw [drawMany, hdraw]
    show (drawMany trials n d).bind _ = _
    rw [hrest]
    rfl

end NameCounter

namespace NameSupply

/-- The names that a supply issues are numbered by the free numbers in ascending order, none
left out. They are distinct and not taken, they are recorded, and they have the shape of
numbered names. Counting on from each name to the next comes to an end and gives the same
names. Taken texts of another shape make no difference. -/
theorem issueMany_avoiding (stem : Name) (taken : List String) (n : Nat) :
    let s := avoiding stem taken
    let names := (issueMany n s).1
    (names = (List.range n).map fun i => stem.numbered (Nat.nth s.IsFree i)) ∧
      StrictMono (Nat.nth s.IsFree) ∧ (∀ k, s.IsFree k ↔ ∃ i, Nat.nth s.IsFree i = k) ∧
      names.Nodup ∧ (issueMany n s).2.issued = names ∧
      (∀ X ∈ names, X.text ∉ taken ∧ hasNumberedShape stem.text X.text = true) ∧
      (∀ more, ∃ c, (NameCounter.avoiding stem taken).drawMany (taken.length + n + more) n =
        some (names, c) ∧ c.issued = names) ∧
      ((∀ t ∈ taken, hasNumberedShape stem.text t = false) →
        names = (issueMany n (avoiding stem [])).1) := by
  intro s names
  have hfree := infinite_isFree s
  have hissued : (issueMany n s).2.issued = names := issued_issueMany n s
  refine ⟨?_, Nat.nth_strictMono hfree, fun k => ?_, nodup_issueMany n s, hissued,
    fun X hX => ⟨not_mem_taken_of_mem_issueMany hX, ?_⟩, fun more => ?_, fun hshape => ?_⟩
  · rw [List.range_eq_range']
    exact (follows_avoiding stem taken).issueMany_eq n
  · exact Set.ext_iff.mp (Nat.range_nth_of_infinite hfree).symm k
  · obtain ⟨k, rfl⟩ := exists_numbered_of_mem_issueMany hX
    exact hasNumberedShape_numbered stem k
  · obtain ⟨c, hdraw, hc⟩ := (NameCounter.keepsPace_avoiding stem taken).exists_drawMany
      n (Nat.le_add_right (taken.length + n) more)
    exact ⟨c, hdraw, hc.issued.trans hissued⟩
  · have hnone : (avoiding stem []).Gapless := gapless_avoiding nofun
    exact ((gapless_avoiding hshape).issueMany_eq n).trans (hnone.issueMany_eq n).symm

/-- The stem ends in a digit. Two of the first numbers are taken, and a text that goes on
after a number is not in the way. -/
theorem issueMany_avoiding_X1 : let stem : Name := ⟨"X1", by decide⟩
    let names := (issueMany 3 (avoiding stem ["X", "X10", "X1a", "X12", "X10"])).1
    names.map Name.text = ["X11", "X13", "X14"] ∧
      (∀ X ∈ names, X.text ≠ "X12") ∧
      (∀ t ∈ ["X", "X1a"], hasNumberedShape stem.text t = false) ∧
      (issueMany 3 (avoiding stem ["X", "X1a"])).1 = (issueMany 3 (avoiding stem [])).1 := by
  intro stem names
  have hshape : ∀ t ∈ ["X", "X1a"], hasNumberedShape stem.text t = false := by decide
  obtain ⟨-, -, -, -, -, hnew, -, -⟩ :=
    issueMany_avoiding stem ["X", "X10", "X1a", "X12", "X10"] 3
  obtain ⟨-, -, -, -, -, -, -, hsame⟩ := issueMany_avoiding stem ["X", "X1a"] 3
  refine ⟨by decide +kernel, fun X hX heq => (hnew X hX).1 ?_, hshape, hsame hshape⟩
  rw [heq]
  decide

end NameSupply

end ChomskyForm
