/-!
# Sets that remember their order

`OrderedSet α` is a finite set with the order in which its elements were first
inserted. `insert` of an element that is already there changes nothing, a new element
goes to the end, and `ofList` keeps the first occurrence of each element of a list
(`mem_ofList`, `toList_ofList_of_nodup`).

Equality of two ordered sets is equality of the lists. `SameElements` forgets the order.
-/

namespace ChomskyForm

/-- Distinct elements in the order of their first insertion. -/
@[ext] structure OrderedSet (α : Type) where
  toList : List α
  nodup : toList.Nodup

namespace OrderedSet

variable {α β : Type}

instance [DecidableEq α] : DecidableEq (OrderedSet α) := fun s t =>
  decidable_of_iff (s.toList = t.toList) (OrderedSet.ext_iff (x := s) (y := t)).symm

instance : Membership α (OrderedSet α) := ⟨fun s a => a ∈ s.toList⟩

instance [DecidableEq α] (a : α) (s : OrderedSet α) : Decidable (a ∈ s) :=
  inferInstanceAs (Decidable (a ∈ s.toList))

@[simp] theorem mem_toList {a : α} {s : OrderedSet α} : a ∈ s.toList ↔ a ∈ s := Iff.rfl

/-- The set without elements. -/
def empty : OrderedSet α := ⟨[], List.nodup_nil⟩

/-- The set of one element. -/
def singleton (a : α) : OrderedSet α := ⟨[a], by simp⟩

/-- How many elements the set has. -/
def size (s : OrderedSet α) : Nat := s.toList.length

/-- The set itself, unless it is empty. -/
def nonempty? (s : OrderedSet α) : Option (OrderedSet α) :=
  if s.toList.isEmpty then none else some s

@[simp] theorem mem_empty {a : α} : a ∉ (empty : OrderedSet α) := List.not_mem_nil

@[simp] theorem mem_singleton {a b : α} : a ∈ singleton b ↔ a = b := List.mem_singleton

theorem nonempty?_eq_some_iff {s t : OrderedSet α} :
    s.nonempty? = some t ↔ s = t ∧ t.toList ≠ [] := by
  unfold nonempty?
  split
  · rename_i h
    refine ⟨nofun, ?_⟩
    rintro ⟨rfl, hne⟩
    exact absurd (List.isEmpty_iff.mp h) hne
  · rename_i h
    refine ⟨fun heq => ?_, fun ⟨heq, _⟩ => heq ▸ rfl⟩
    cases heq
    exact ⟨rfl, fun hnil => h (List.isEmpty_iff.mpr hnil)⟩

theorem getD_nonempty? (s : OrderedSet α) : s.nonempty?.getD .empty = s := by
  unfold nonempty?
  split
  · rename_i h
    exact OrderedSet.ext (List.isEmpty_iff.mp h).symm
  · rfl

variable [DecidableEq α] [DecidableEq β]

/-- Add `a` at the end, or nothing if it is there. -/
def insert (s : OrderedSet α) (a : α) : OrderedSet α :=
  if h : a ∈ s.toList then s
  else ⟨s.toList ++ [a], List.nodup_append.mpr ⟨s.nodup, by simp, by
    intro x hx y hy hxy
    rw [List.mem_singleton.mp hy] at hxy
    exact h (hxy ▸ hx)⟩⟩

/-- Add the elements of a list, one after another. -/
def insertAll (s : OrderedSet α) (l : List α) : OrderedSet α := l.foldl insert s

/-- The elements of a list, each at its first occurrence. -/
def ofList (l : List α) : OrderedSet α := empty.insertAll l

/-- The image of the set, in the order of the preimages. -/
def map (f : α → β) (s : OrderedSet α) : OrderedSet β := ofList (s.toList.map f)

theorem insert_of_mem {s : OrderedSet α} {a : α} (h : a ∈ s) : s.insert a = s := dif_pos h

theorem toList_insert_of_not_mem {s : OrderedSet α} {a : α} (h : a ∉ s) :
    (s.insert a).toList = s.toList ++ [a] := by
  have h' : a ∉ s.toList := h
  simp [insert, h']

@[simp] theorem mem_insert {s : OrderedSet α} {a b : α} : b ∈ s.insert a ↔ b ∈ s ∨ b = a := by
  by_cases h : a ∈ s
  · rw [insert_of_mem h]
    exact ⟨Or.inl, fun hb => hb.elim id fun hb => hb ▸ h⟩
  · rw [← mem_toList, toList_insert_of_not_mem h]
    simp

@[simp] theorem mem_insertAll {l : List α} {s : OrderedSet α} {b : α} :
    b ∈ s.insertAll l ↔ b ∈ s ∨ b ∈ l := by
  induction l generalizing s with
  | nil => simp [insertAll]
  | cons a l ih =>
    show b ∈ (s.insert a).insertAll l ↔ _
    rw [ih, mem_insert, List.mem_cons, or_assoc]

@[simp] theorem mem_ofList {l : List α} {b : α} : b ∈ ofList l ↔ b ∈ l := by
  simp [ofList]

omit [DecidableEq α] in
@[simp] theorem mem_map {f : α → β} {s : OrderedSet α} {b : β} :
    b ∈ s.map f ↔ ∃ a ∈ s, f a = b := by
  simp [map]

/-- Nothing that was there moves. -/
theorem exists_toList_insertAll (l : List α) (s : OrderedSet α) :
    ∃ new, (s.insertAll l).toList = s.toList ++ new ∧ ∀ a ∈ new, a ∈ l := by
  induction l generalizing s with
  | nil => exact ⟨[], by simp [insertAll], by simp⟩
  | cons a l ih =>
    obtain ⟨new, hnew, hl⟩ := ih (s.insert a)
    by_cases h : a ∈ s
    · rw [insert_of_mem h] at hnew
      refine ⟨new, ?_, fun x hx => List.mem_cons_of_mem a (hl x hx)⟩
      show ((s.insert a).insertAll l).toList = _
      rw [insert_of_mem h, hnew]
    · refine ⟨a :: new, ?_, fun x hx => ?_⟩
      · show ((s.insert a).insertAll l).toList = _
        rw [hnew, toList_insert_of_not_mem h, List.append_assoc]
        rfl
      · rcases List.mem_cons.mp hx with rfl | hx
        · exact List.mem_cons_self
        · exact List.mem_cons_of_mem a (hl x hx)

theorem size_le_size_insertAll (l : List α) (s : OrderedSet α) : s.size ≤ (s.insertAll l).size := by
  obtain ⟨new, hnew, -⟩ := exists_toList_insertAll l s
  rw [size, size, hnew, List.length_append]
  exact Nat.le_add_right _ _

/-- A set that does not grow stays as it is. -/
theorem insertAll_eq_self {l : List α} {s : OrderedSet α} (h : (s.insertAll l).size = s.size) :
    s.insertAll l = s := by
  obtain ⟨new, hnew, -⟩ := exists_toList_insertAll l s
  rw [size, size, hnew, List.length_append, Nat.add_eq_left] at h
  rw [List.eq_nil_of_length_eq_zero h, List.append_nil] at hnew
  exact OrderedSet.ext hnew

/-- New elements are appended as they come. -/
theorem toList_insertAll_of_nodup {l : List α} {s : OrderedSet α}
    (h : (s.toList ++ l).Nodup) : (s.insertAll l).toList = s.toList ++ l := by
  induction l generalizing s with
  | nil => simp [insertAll]
  | cons a l ih =>
    have ha : a ∉ s := fun hs =>
      (List.nodup_append.mp h).2.2 a hs a List.mem_cons_self rfl
    have happ : s.toList ++ a :: l = (s.insert a).toList ++ l := by
      rw [toList_insert_of_not_mem ha, List.append_assoc]
      rfl
    show ((s.insert a).insertAll l).toList = _
    rw [happ] at h ⊢
    exact ih h

/-- Elements that are there change nothing. -/
theorem insertAll_of_forall_mem {l : List α} {s : OrderedSet α} (h : ∀ a ∈ l, a ∈ s) :
    s.insertAll l = s := by
  induction l with
  | nil => rfl
  | cons a l ih =>
    show (s.insert a).insertAll l = s
    rw [insert_of_mem (h a List.mem_cons_self)]
    exact ih fun b hb => h b (List.mem_cons_of_mem a hb)

theorem insertAll_append (s : OrderedSet α) (l m : List α) :
    s.insertAll (l ++ m) = (s.insertAll l).insertAll m := List.foldl_append

/-- What is new is appended, each element at its first occurrence. -/
theorem toList_insertAll [BEq α] [LawfulBEq α] (l : List α) (s : OrderedSet α) :
    (s.insertAll l).toList = s.toList ++ (l.filter (· ∉ s)).eraseDups := by
  induction l generalizing s with
  | nil => simp [insertAll]
  | cons a l ih =>
    show ((s.insert a).insertAll l).toList = _
    by_cases h : a ∈ s
    · rw [insert_of_mem h, ih, List.filter_cons_of_neg (by simpa using h)]
    · have hrest : l.filter (· ∉ s.insert a) = (l.filter (· ∉ s)).filter (!· == a) := by
        rw [List.filter_filter]
        refine List.filter_congr fun b _ => ?_
        by_cases hb : b = a <;> simp [hb]
      rw [ih, toList_insert_of_not_mem h, hrest, List.filter_cons_of_pos (by simpa using h),
        List.eraseDups_cons, List.append_assoc, List.singleton_append]

theorem toList_ofList [BEq α] [LawfulBEq α] (l : List α) : (ofList l).toList = l.eraseDups := by
  rw [ofList, toList_insertAll, List.filter_eq_self.mpr (by simp)]
  rfl

/-- A search finds what it would find without the set. -/
theorem find?_toList_insertAll (p : α → Bool) (l : List α) (s : OrderedSet α) :
    (s.insertAll l).toList.find? p = (s.toList ++ l).find? p := by
  induction l generalizing s with
  | nil => simp [insertAll]
  | cons a l ih =>
    show ((s.insert a).insertAll l).toList.find? p = _
    rw [ih]
    by_cases h : a ∈ s
    · rw [insert_of_mem h, List.find?_append, List.find?_append]
      cases hs : s.toList.find? p with
      | some b => rfl
      | none =>
        -- the element that is there was tested before
        rw [List.find?_cons_of_neg (List.find?_eq_none.mp hs a h)]
    · rw [toList_insert_of_not_mem h, List.append_assoc]
      rfl

theorem find?_toList_ofList (p : α → Bool) (l : List α) :
    (ofList l).toList.find? p = l.find? p := find?_toList_insertAll p l empty

/-- Adding what was collected in a set is adding what was collected. -/
theorem insertAll_toList_insertAll (s t : OrderedSet α) (l : List α) :
    s.insertAll (t.insertAll l).toList = (s.insertAll t.toList).insertAll l := by
  induction l generalizing t with
  | nil => rfl
  | cons a l ih =>
    have hinsert : s.insertAll (t.insert a).toList = (s.insertAll t.toList).insert a := by
      by_cases h : a ∈ t
      · rw [insert_of_mem h, insert_of_mem (mem_insertAll.mpr (.inr h))]
      · rw [toList_insert_of_not_mem h, insertAll_append]
        rfl
    show s.insertAll ((t.insert a).insertAll l).toList =
      ((s.insertAll t.toList).insert a).insertAll l
    rw [ih, hinsert]

theorem insertAll_toList_ofList (s : OrderedSet α) (l : List α) :
    s.insertAll (ofList l).toList = s.insertAll l := insertAll_toList_insertAll s empty l

theorem toList_ofList_of_nodup {l : List α} (h : l.Nodup) : (ofList l).toList = l :=
  toList_insertAll_of_nodup (s := empty) h

theorem ofList_toList (s : OrderedSet α) : ofList s.toList = s :=
  OrderedSet.ext (toList_ofList_of_nodup s.nodup)

theorem map_eq_self {f : α → α} (h : ∀ a, f a = a) (s : OrderedSet α) : s.map f = s := by
  rw [map, List.map_congr_left (fun a _ => h a), List.map_id']
  exact s.ofList_toList

omit [DecidableEq α] in
/-- No two elements are merged if the images are distinct. -/
theorem toList_map_of_nodup {f : α → β} {s : OrderedSet α} (h : (s.toList.map f).Nodup) :
    (s.map f).toList = s.toList.map f := toList_ofList_of_nodup h

/-- A function that merges nothing keeps the order of first occurrences. -/
theorem toList_insertAll_map {f : α → β} (hf : ∀ a b, f a = f b → a = b) (l : List α)
    {s : OrderedSet α} {t : OrderedSet β} (h : t.toList = s.toList.map f) :
    (t.insertAll (l.map f)).toList = (s.insertAll l).toList.map f := by
  induction l generalizing s t with
  | nil => exact h
  | cons a l ih =>
    have hmem : f a ∈ t ↔ a ∈ s := by
      rw [← mem_toList, h, List.mem_map]
      exact ⟨fun ⟨b, hb, heq⟩ => hf b a heq ▸ hb, fun ha => ⟨a, ha, rfl⟩⟩
    refine ih (s := s.insert a) (t := t.insert (f a)) ?_
    by_cases ha : a ∈ s
    · rw [insert_of_mem ha, insert_of_mem (hmem.mpr ha), h]
    · rw [toList_insert_of_not_mem ha, toList_insert_of_not_mem (mt hmem.mp ha), h,
        List.map_append, List.map_singleton]

theorem toList_ofList_map {f : α → β} (hf : ∀ a b, f a = f b → a = b) (l : List α) :
    (ofList (l.map f)).toList = (ofList l).toList.map f := toList_insertAll_map hf l rfl

/-- The same elements, in any order. -/
def SameElements (s t : OrderedSet α) : Prop := ∀ a, a ∈ s ↔ a ∈ t

instance (s t : OrderedSet α) : Decidable (s.SameElements t) :=
  decidable_of_iff ((∀ a ∈ s.toList, a ∈ t) ∧ ∀ a ∈ t.toList, a ∈ s)
    ⟨fun h a => ⟨h.1 a, h.2 a⟩, fun h => ⟨fun a => (h a).mp, fun a => (h a).mpr⟩⟩

omit [DecidableEq α] in
theorem SameElements.perm {s t : OrderedSet α} (h : s.SameElements t) :
    s.toList.Perm t.toList := (List.perm_ext_iff_of_nodup s.nodup t.nodup).mpr h

end OrderedSet

end ChomskyForm
