import ChomskyForm.OrderedSet
import ChomskyForm.OrderedMap

/-!
# Values gathered under their keys

A list of pairs may have a key more than once. `OrderedMap.gathered` is the map from each key
to all its values, in order. It is made pair by pair : a value goes to the end of those of its
key (`OrderedMap.push`), and a key stays where its first pair has put it
(`OrderedMap.foldl_push`).
-/

namespace ChomskyForm

namespace OrderedMap

variable {α β : Type} [DecidableEq α]

/-- The values of the pairs with the key `a`, in order. -/
def valuesAt (l : List (α × β)) (a : α) : List β := (l.filter fun e => e.1 = a).map Prod.snd

/-- The map from the keys of a list of pairs to their values. -/
def gathered (l : List (α × β)) : OrderedMap α (List β) :=
  ofKeys (OrderedSet.ofList (l.map Prod.fst)).toList (OrderedSet.ofList (l.map Prod.fst)).nodup
    (valuesAt l)

/-- Add a value to those of its key. -/
def push (m : OrderedMap α (List β)) (a : α) (b : β) : OrderedMap α (List β) :=
  m.insert a ((m.find? a).getD [] ++ [b])

theorem keys_gathered (l : List (α × β)) :
    (gathered l).keys = (OrderedSet.ofList (l.map Prod.fst)).toList := keys_ofKeys _ _ _

theorem valuesAt_eq_nil_iff {l : List (α × β)} {a : α} :
    valuesAt l a = [] ↔ a ∉ l.map Prod.fst := by
  rw [valuesAt, List.map_eq_nil_iff, List.filter_eq_nil_iff]
  refine ⟨fun h ha => ?_, fun h e he ha => ?_⟩
  · obtain ⟨e, he, rfl⟩ := List.mem_map.mp ha
    exact h e he (decide_eq_true rfl)
  · exact h (of_decide_eq_true ha ▸ List.mem_map_of_mem he)

theorem valuesAt_concat (l : List (α × β)) (a x : α) (b : β) :
    valuesAt (l ++ [(a, b)]) x = if x = a then valuesAt l x ++ [b] else valuesAt l x := by
  rw [valuesAt, List.filter_append, List.map_append]
  by_cases hx : x = a
  · simp [valuesAt, hx]
  · simp [valuesAt, hx, eq_comm (a := a)]

theorem find?_gathered (l : List (α × β)) (a : α) :
    (gathered l).find? a = if a ∈ l.map Prod.fst then some (valuesAt l a) else none := by
  have hfind := find?_ofKeys (OrderedSet.ofList (l.map Prod.fst)).nodup (valuesAt l) a
  simp only [OrderedSet.mem_toList, OrderedSet.mem_ofList] at hfind
  exact hfind

theorem getD_find?_gathered (l : List (α × β)) (a : α) :
    ((gathered l).find? a).getD [] = valuesAt l a := by
  rw [find?_gathered]
  split
  · rfl
  · rename_i h
    exact (valuesAt_eq_nil_iff.mpr h).symm

/-- One more pair, whose key may be new. -/
theorem gathered_concat (l : List (α × β)) (a : α) (b : β) :
    gathered (l ++ [(a, b)]) = (gathered l).push a b := by
  have hkeys : (gathered (l ++ [(a, b)])).keys =
      ((OrderedSet.ofList (l.map Prod.fst)).insert a).toList := by
    rw [keys_gathered, List.map_append, OrderedSet.ofList, OrderedSet.insertAll_append]
    rfl
  rw [push, getD_find?_gathered]
  -- the keys and what they hold are compared apart, since an old key keeps its place
  refine ext_find? ?_ fun x => ?_
  · rw [hkeys]
    by_cases ha : a ∈ (gathered l).keys
    · have hset : a ∈ (OrderedSet.ofList (l.map Prod.fst)).toList := keys_gathered l ▸ ha
      rw [OrderedSet.insert_of_mem hset, keys_insert_of_mem _ ha, keys_gathered]
    · have hset : a ∉ (OrderedSet.ofList (l.map Prod.fst)).toList := keys_gathered l ▸ ha
      rw [OrderedSet.toList_insert_of_not_mem hset, keys_insert_of_not_mem _ ha, keys_gathered]
  · have hmem : x ∈ (l ++ [(a, b)]).map Prod.fst ↔ x ∈ l.map Prod.fst ∨ x = a := by simp
    rw [find?_insert, find?_gathered, find?_gathered, valuesAt_concat]
    by_cases hx : x = a
    · rw [if_pos hx, if_pos hx, if_pos (hmem.mpr (.inr hx)), hx]
    · rw [if_neg hx, if_neg hx]
      simp only [hmem, or_iff_left hx]

end OrderedMap

end ChomskyForm
