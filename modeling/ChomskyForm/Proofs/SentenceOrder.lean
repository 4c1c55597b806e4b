import Mathlib.Algebra.BigOperators.Group.Finset.Basic
import Mathlib.Data.List.Shortlex
import ChomskyForm.Sentences

/-!
# The list of sentences up to a length

`sentencesOfLength` lists the sentences of a length in dictionary order
(`pairwise_lex_sentencesOfLength`). It chooses the first letter first. To choose the last letter
last gives the same list (`sentencesOfLength_succ`), which is what a round of `growSentences`
does (`growSentences_eq`).

`sentencesUpTo_enumerates` : every sentence of at most that length is in the list once, and the
list is in the order by length and then by dictionary. Letters compare by their positions, for
which they must be distinct.
-/

namespace ChomskyForm

open Finset

variable {letters : List String}

/-! ## Sentences of one length -/

theorem mem_sentencesOfLength : ∀ {n : Nat} {w : Sentence},
    w ∈ sentencesOfLength letters n ↔ w.length = n ∧ ∀ a ∈ w, a ∈ letters
  | 0, w => by
    rw [sentencesOfLength, List.mem_singleton, List.length_eq_zero_iff]
    refine ⟨?_, And.left⟩
    rintro rfl
    exact ⟨rfl, nofun⟩
  | n + 1, w => by
    simp only [sentencesOfLength, List.mem_flatMap, List.mem_map, mem_sentencesOfLength]
    constructor
    · rintro ⟨a, ha, v, ⟨hlen, hv⟩, rfl⟩
      exact ⟨congrArg (· + 1) hlen, List.forall_mem_cons.mpr ⟨ha, hv⟩⟩
    · rintro ⟨hlen, hw⟩
      cases w with
      | nil => cases hlen
      | cons a v =>
        obtain ⟨ha, hv⟩ := List.forall_mem_cons.mp hw
        exact ⟨a, ha, v, ⟨Nat.succ.inj hlen, hv⟩, rfl⟩

theorem length_sentencesOfLength : ∀ n,
    (sentencesOfLength letters n).length = letters.length ^ n
  | 0 => rfl
  | n + 1 => by
    simp only [sentencesOfLength, List.length_flatMap, List.length_map,
      length_sentencesOfLength n, List.map_const', List.sum_replicate_nat]
    rw [Nat.pow_succ, Nat.mul_comm]

/-- The last letter may be chosen last. -/
theorem sentencesOfLength_succ : ∀ n, sentencesOfLength letters (n + 1) =
    (sentencesOfLength letters n).flatMap (continuations letters)
  | 0 => by
    rw [sentencesOfLength, sentencesOfLength, List.flatMap_singleton]
    exact List.map_eq_flatMap.symm
  | n + 1 => by
    have hcons : ∀ (a : String) (w : Sentence),
        (continuations letters w).map (a :: ·) = continuations letters (a :: w) := fun a w => by
      simp [continuations]
    calc sentencesOfLength letters (n + 2)
        = letters.flatMap fun a =>
            ((sentencesOfLength letters n).flatMap (continuations letters)).map (a :: ·) := by
          rw [sentencesOfLength, sentencesOfLength_succ n]
      _ = letters.flatMap fun a =>
            ((sentencesOfLength letters n).map (a :: ·)).flatMap (continuations letters) := by
          simp only [List.map_flatMap, List.flatMap_map, hcons]
      _ = (sentencesOfLength letters (n + 1)).flatMap (continuations letters) := by
          rw [sentencesOfLength, List.flatMap_assoc]

/-- A letter comes before those that stand behind it. -/
theorem pairwise_idxOf (h : letters.Nodup) :
    letters.Pairwise fun a b => letters.idxOf a < letters.idxOf b := by
  refine List.pairwise_iff_getElem.mpr fun i j hi hj hij => ?_
  rw [h.idxOf_getElem i hi, h.idxOf_getElem j hj]
  exact hij

/-- Sentences of one length are in dictionary order. -/
theorem pairwise_lex_sentencesOfLength (h : letters.Nodup) : ∀ n,
    (sentencesOfLength letters n).Pairwise fun v w =>
      List.Lex (· < ·) (v.map letters.idxOf) (w.map letters.idxOf)
  | 0 => List.pairwise_singleton _ _
  | n + 1 => by
    rw [sentencesOfLength]
    refine List.pairwise_flatMap.mpr ⟨fun a _ => ?_, (pairwise_idxOf h).imp fun hab v hv w hw => ?_⟩
    · exact (pairwise_lex_sentencesOfLength h n).map _ fun _ _ hlex => .cons hlex
    · obtain ⟨v, -, rfl⟩ := List.mem_map.mp hv
      obtain ⟨w, -, rfl⟩ := List.mem_map.mp hw
      exact .rel hab

/-! ## Sentences up to a length -/

theorem sentencesUpTo_succ (letters : List String) (n : Nat) : sentencesUpTo letters (n + 1) =
    sentencesUpTo letters n ++ sentencesOfLength letters (n + 1) := by
  simp [sentencesUpTo, List.range_succ, List.flatMap_append]

/-- Round by round the same sentences come in the same order. -/
theorem growSentences_eq : ∀ n,
    growSentences letters n = (sentencesUpTo letters n, sentencesOfLength letters n)
  | 0 => rfl
  | n + 1 => by
    rw [growSentences, growSentences_eq n, sentencesUpTo_succ, sentencesOfLength_succ]

theorem mem_sentencesUpTo {n : Nat} {w : Sentence} :
    w ∈ sentencesUpTo letters n ↔ w.length ≤ n ∧ ∀ a ∈ w, a ∈ letters := by
  simp only [sentencesUpTo, List.mem_flatMap, List.mem_range, mem_sentencesOfLength]
  constructor
  · rintro ⟨k, hk, rfl, hw⟩
    exact ⟨Nat.lt_succ_iff.mp hk, hw⟩
  · rintro ⟨hlen, hw⟩
    exact ⟨w.length, Nat.lt_succ_of_le hlen, rfl, hw⟩

theorem length_sentencesUpTo : ∀ n,
    (sentencesUpTo letters n).length = ∑ i ∈ range (n + 1), letters.length ^ i
  | 0 => rfl
  | n + 1 => by
    rw [sentencesUpTo_succ, List.length_append, length_sentencesUpTo n,
      length_sentencesOfLength, sum_range_succ _ (n + 1)]

/-- Shorter sentences come first, and those of one length are in dictionary order. -/
theorem pairwise_shortlex_sentencesUpTo (h : letters.Nodup) (n : Nat) :
    (sentencesUpTo letters n).Pairwise fun v w =>
      List.Shortlex (· < ·) (v.map letters.idxOf) (w.map letters.idxOf) := by
  have hlen : ∀ {k : Nat} {w : Sentence}, w ∈ sentencesOfLength letters k →
      (w.map letters.idxOf).length = k := fun hw =>
    (List.length_map _).trans (mem_sentencesOfLength.mp hw).1
  refine List.pairwise_flatMap.mpr
    ⟨fun k _ => ?_, List.pairwise_lt_range.imp fun hkl v hv w hw => ?_⟩
  · exact (pairwise_lex_sentencesOfLength h k).imp_of_mem fun hv hw hlex =>
      .of_lex ((hlen hv).trans (hlen hw).symm) hlex
  · refine .of_length_lt ?_
    rw [hlen hv, hlen hw]
    exact hkl

/-- Grown round by round, the list holds each sentence of at most the length once, and no
others. It is in the order by length and then by the positions of the letters, and it has as
many sentences as there are powers for. -/
theorem sentencesUpTo_enumerates (h : letters.Nodup) (n : Nat) :
    (growSentences letters n).1 = sentencesUpTo letters n ∧
      (∀ w, w ∈ sentencesUpTo letters n ↔ w.length ≤ n ∧ ∀ a ∈ w, a ∈ letters) ∧
      (sentencesUpTo letters n).Nodup ∧
      ((sentencesUpTo letters n).map (List.map letters.idxOf)).Pairwise (List.Shortlex (· < ·)) ∧
      (sentencesUpTo letters n).length = ∑ i ∈ range (n + 1), letters.length ^ i := by
  have horder := pairwise_shortlex_sentencesUpTo h n
  refine ⟨congrArg Prod.fst (growSentences_eq n), fun _ => mem_sentencesUpTo, ?_,
    List.pairwise_map.mpr horder, length_sentencesUpTo n⟩
  refine horder.imp fun hlt heq => ?_
  rw [heq] at hlt
  exact Std.Irrefl.irrefl (r := List.Shortlex (· < ·)) _ hlt

/-- The order is that of the positions, in which `b` comes before `a`. -/
theorem sentencesUpTo_enumerates_ba : ["b", "a"].Nodup ∧
    (growSentences ["b", "a"] 2).1 =
      [[], ["b"], ["a"], ["b", "b"], ["b", "a"], ["a", "b"], ["a", "a"]] ∧
    ["a", "c"] ∉ (growSentences ["b", "a"] 2).1 ∧
    (growSentences ["b", "a"] 2).1.length = 2 ^ 0 + 2 ^ 1 + 2 ^ 2 := by
  have hnodup : ["b", "a"].Nodup := by decide
  obtain ⟨hgrow, hmem, -, -, hlen⟩ := sentencesUpTo_enumerates hnodup 2
  refine ⟨hnodup, rfl, fun h => ?_, ?_⟩
  · rw [hgrow, hmem] at h
    exact absurd h.2 (by decide)
  · rw [hgrow, hlen]
    rfl

/-- Without letters there is only the empty sentence. -/
example : sentencesUpTo [] 3 = [[]] := rfl

end ChomskyForm
