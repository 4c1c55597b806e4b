/-!
# Maps that remember their order

`OrderedMap α β` is a finite map with the order in which its keys were first inserted.
`insert` at a key that is already there replaces the value and leaves the key in its
place (`keys_insert_of_mem`), a new key goes to the end (`keys_insert_of_not_mem`), and
look-up is unaffected by order (`find?_insert`, `find?_eq_some_iff`).
-/

namespace ChomskyForm

/-- Entries with distinct keys, in the order in which the keys were first inserted. -/
@[ext] structure OrderedMap (α β : Type) where
  entries : List (α × β)
  nodup : (entries.map Prod.fst).Nodup

namespace OrderedMap

variable {α β γ : Type}

instance [DecidableEq α] [DecidableEq β] : DecidableEq (OrderedMap α β) := fun m n =>
  decidable_of_iff (m.entries = n.entries) (OrderedMap.ext_iff (x := m) (y := n)).symm

/-- The map without entries. -/
def empty : OrderedMap α β := ⟨[], List.nodup_nil⟩

/-- The keys, in order. -/
def keys (m : OrderedMap α β) : List α := m.entries.map Prod.fst

/-- How many keys the map has. -/
def size (m : OrderedMap α β) : Nat := m.entries.length

/-- Apply `f` to every value. -/
def mapValues (f : β → γ) (m : OrderedMap α β) : OrderedMap α γ :=
  ⟨m.entries.map fun e => (e.1, f e.2), by
    rw [List.map_map]
    exact m.nodup⟩

/-- The map from the keys of a duplicate-free list to the values of `f`. -/
def ofKeys (l : List α) (h : l.Nodup) (f : α → β) : OrderedMap α β :=
  ⟨l.map fun a => (a, f a), by
    rw [List.map_map]
    exact (List.map_id l).symm ▸ h⟩

/-- Recompute every value from its key and itself, and drop the key where `f` gives none. -/
def filterMap (f : α → β → Option γ) (m : OrderedMap α β) : OrderedMap α γ :=
  ⟨m.entries.filterMap fun e => (f e.1 e.2).map (e.1, ·), by
    refine m.nodup.sublist ?_
    induction m.entries with
    | nil => exact List.Sublist.slnil
    | cons e l ih =>
      cases hf : f e.1 e.2 with
      | none => simpa [hf] using ih.cons e.1
      | some c => simpa [hf] using ih⟩

theorem keys_nodup (m : OrderedMap α β) : m.keys.Nodup := m.nodup

@[simp] theorem length_keys (m : OrderedMap α β) : m.keys.length = m.size := List.length_map _

@[simp] theorem keys_mapValues (f : β → γ) (m : OrderedMap α β) :
    (m.mapValues f).keys = m.keys := by
  simp [keys, mapValues]

@[simp] theorem keys_ofKeys (l : List α) (h : l.Nodup) (f : α → β) :
    (ofKeys l h f).keys = l := by
  rw [keys, ofKeys, List.map_map]
  exact List.map_id l

theorem mem_entries_filterMap {f : α → β → Option γ} {m : OrderedMap α β} {a : α} {c : γ} :
    (a, c) ∈ (m.filterMap f).entries ↔ ∃ b, (a, b) ∈ m.entries ∧ f a b = some c := by
  simp only [filterMap, List.mem_filterMap, Option.map_eq_some_iff, Prod.mk.injEq]
  constructor
  · rintro ⟨⟨x, y⟩, he, z, hz, rfl, rfl⟩
    exact ⟨y, he, hz⟩
  · rintro ⟨b, hb, hc⟩
    exact ⟨(a, b), hb, c, hc, rfl, rfl⟩

theorem mem_keys {a : α} {m : OrderedMap α β} : a ∈ m.keys ↔ ∃ b, (a, b) ∈ m.entries := by
  simp [keys]

theorem mem_keys_of_mem_filterMap {f : α → β → Option γ} {m : OrderedMap α β} {a : α}
    (h : a ∈ (m.filterMap f).keys) : a ∈ m.keys := by
  obtain ⟨c, hc⟩ := mem_keys.mp h
  obtain ⟨b, hb, -⟩ := mem_entries_filterMap.mp hc
  exact mem_keys.mpr ⟨b, hb⟩

/-- The keys that are kept stay in order. -/
theorem keys_filterMap_sublist (f : α → β → Option γ) (m : OrderedMap α β) :
    (m.filterMap f).keys.Sublist m.keys := by
  obtain ⟨l, hl⟩ := m
  simp only [keys, filterMap]
  clear hl
  induction l with
  | nil => exact .slnil
  | cons e l ih =>
    cases hf : f e.1 e.2 with
    | none => simpa [hf] using ih.cons e.1
    | some c => simpa [hf] using ih

/-- Nothing changes if every value is recomputed to itself. -/
theorem filterMap_eq_self {f : α → β → Option β} {m : OrderedMap α β}
    (h : ∀ e ∈ m.entries, f e.1 e.2 = some e.2) : m.filterMap f = m := by
  obtain ⟨l, hl⟩ := m
  refine OrderedMap.ext ?_
  simp only [filterMap] at h ⊢
  clear hl
  induction l with
  | nil => rfl
  | cons e l ih =>
    have hrest := ih fun d hd => h d (List.mem_cons_of_mem e hd)
    simp [h e List.mem_cons_self, hrest]

variable [DecidableEq α]

/-- The value at `a`. -/
def find? (m : OrderedMap α β) (a : α) : Option β :=
  (m.entries.find? fun e => e.1 = a).map Prod.snd

/-- Entries with the value at `a` replaced by `b`, or with `(a, b)` at the end. -/
def insertEntry (a : α) (b : β) : List (α × β) → List (α × β)
  | [] => [(a, b)]
  | e :: l => if e.1 = a then (a, b) :: l else e :: insertEntry a b l

theorem keys_insertEntry (a : α) (b : β) :
    ∀ l : List (α × β), (insertEntry a b l).map Prod.fst =
      if a ∈ l.map Prod.fst then l.map Prod.fst else l.map Prod.fst ++ [a]
  | [] => by simp [insertEntry]
  | e :: l => by
    by_cases h : e.1 = a
    · simp [insertEntry, h]
    · have h' : ¬ a = e.1 := fun ha => h ha.symm
      simp only [insertEntry, if_neg h, List.map_cons, keys_insertEntry a b l, List.mem_cons,
        h', false_or]
      split <;> rfl

/-- Set the value at `a`. A key that is there keeps its place, a new one goes to the end. -/
def insert (m : OrderedMap α β) (a : α) (b : β) : OrderedMap α β :=
  ⟨insertEntry a b m.entries, by
    rw [keys_insertEntry]
    split
    · exact m.nodup
    · rename_i h
      refine List.nodup_append.mpr ⟨m.nodup, by simp, fun x hx y hy hxy => ?_⟩
      rw [List.mem_singleton.mp hy] at hxy
      exact h (hxy ▸ hx)⟩

/-- Set the values of a list of entries, one after another. -/
def insertAll (m : OrderedMap α β) (l : List (α × β)) : OrderedMap α β :=
  l.foldl (fun m e => m.insert e.1 e.2) m

theorem insertAll_append (m : OrderedMap α β) (l k : List (α × β)) :
    m.insertAll (l ++ k) = (m.insertAll l).insertAll k := List.foldl_append

theorem keys_insert_of_mem {m : OrderedMap α β} {a : α} (b : β) (h : a ∈ m.keys) :
    (m.insert a b).keys = m.keys := by
  simp only [keys, insert, keys_insertEntry]
  exact if_pos h

theorem keys_insert_of_not_mem {m : OrderedMap α β} {a : α} (b : β) (h : a ∉ m.keys) :
    (m.insert a b).keys = m.keys ++ [a] := by
  simp only [keys, insert, keys_insertEntry]
  exact if_neg h

theorem entries_insert_of_not_mem {m : OrderedMap α β} {a : α} (b : β) (h : a ∉ m.keys) :
    (m.insert a b).entries = m.entries ++ [(a, b)] := by
  have key : ∀ l : List (α × β), a ∉ l.map Prod.fst → insertEntry a b l = l ++ [(a, b)] := by
    intro l
    induction l with
    | nil => exact fun _ => rfl
    | cons e l ih =>
      intro hl
      rw [List.map_cons, List.mem_cons, not_or] at hl
      rw [insertEntry, if_neg fun he => hl.1 he.symm, ih hl.2]
      rfl
  exact key m.entries h

/-- New entries with distinct keys are appended as they come. -/
theorem entries_insertAll_of_nodup {l : List (α × β)} {m : OrderedMap α β}
    (h : (m.keys ++ l.map Prod.fst).Nodup) : (m.insertAll l).entries = m.entries ++ l := by
  induction l generalizing m with
  | nil => simp [insertAll]
  | cons e l ih =>
    have ha : ¬ e.1 ∈ m.keys := fun hm =>
      (List.nodup_append.mp h).2.2 e.1 hm e.1 List.mem_cons_self rfl
    show ((m.insert e.1 e.2).insertAll l).entries = _
    rw [ih, entries_insert_of_not_mem e.2 ha, List.append_assoc]
    · rfl
    · rw [keys_insert_of_not_mem e.2 ha, List.append_assoc]
      exact h

/-- A map may be built entry by entry. -/
theorem insertAll_entries (m : OrderedMap α β) : empty.insertAll m.entries = m :=
  OrderedMap.ext (entries_insertAll_of_nodup (m := empty) m.nodup)

/-- Set the value at `a` if there is one. -/
def insert? (m : OrderedMap α β) (a : α) (b : Option β) : OrderedMap α β :=
  b.elim m (m.insert a)

/-- Values may be recomputed one after another, and set unless they are dropped. -/
theorem filterMap_eq_foldl (f : α → β → Option γ) (m : OrderedMap α β) :
    m.filterMap f = m.entries.foldl (fun n e => n.insert? e.1 (f e.1 e.2)) empty := by
  have hfold : ∀ (l : List (α × β)) (n : OrderedMap α γ),
      l.foldl (fun n e => n.insert? e.1 (f e.1 e.2)) n =
        n.insertAll (l.filterMap fun e => (f e.1 e.2).map (e.1, ·)) := by
    intro l
    induction l with
    | nil => exact fun _ => rfl
    | cons e l ih =>
      intro n
      rw [List.foldl_cons, ih, List.filterMap_cons]
      cases f e.1 e.2 <;> rfl
  rw [hfold]
  exact (insertAll_entries (m.filterMap f)).symm

/-- Values for distinct keys may be set one after another. -/
theorem ofKeys_eq_foldl {l : List α} (h : l.Nodup) (f : α → β) :
    ofKeys l h f = l.foldl (fun m a => m.insert a (f a)) empty := by
  have hfold : l.foldl (fun m a => m.insert a (f a)) empty =
      empty.insertAll (l.map fun a => (a, f a)) := by
    rw [insertAll, List.foldl_map]
  rw [hfold]
  exact (insertAll_entries (ofKeys l h f)).symm

theorem mem_keys_insert {m : OrderedMap α β} {a x : α} {b : β} :
    x ∈ (m.insert a b).keys ↔ x ∈ m.keys ∨ x = a := by
  by_cases ha : a ∈ m.keys
  · rw [keys_insert_of_mem b ha]
    exact ⟨Or.inl, fun h => h.elim id fun hx => hx ▸ ha⟩
  · rw [keys_insert_of_not_mem b ha, List.mem_append, List.mem_singleton]

theorem mem_keys_insertAll {a : α} : ∀ {l : List (α × β)} {m : OrderedMap α β},
    a ∈ (m.insertAll l).keys ↔ a ∈ m.keys ∨ a ∈ l.map Prod.fst
  | [], _ => by simp [insertAll]
  | e :: l, m => by
    show a ∈ ((m.insert e.1 e.2).insertAll l).keys ↔ _
    rw [mem_keys_insertAll, mem_keys_insert, List.map_cons, List.mem_cons, or_assoc]

theorem find?_eq_some_iff {m : OrderedMap α β} {a : α} {b : β} :
    m.find? a = some b ↔ (a, b) ∈ m.entries := by
  obtain ⟨l, hl⟩ := m
  simp only [find?]
  induction l with
  | nil => simp
  | cons e l ih =>
    rw [List.map_cons, List.nodup_cons] at hl
    by_cases h : e.1 = a
    · subst h
      simp only [decide_true, List.find?_cons_of_pos, Option.map_some, Option.some.injEq,
        List.mem_cons]
      constructor
      · rintro rfl
        exact Or.inl rfl
      · rintro (he | he)
        · rw [← he]
        · exact absurd (List.mem_map_of_mem (f := Prod.fst) he) hl.1
    · have h' : ¬ (a, b) = e := fun he => h (he ▸ rfl)
      rw [List.find?_cons_of_neg (by simpa using h), ih hl.2, List.mem_cons]
      simp [h']

theorem eq_of_mem_entries {m : OrderedMap α β} {a : α} {b c : β} (hb : (a, b) ∈ m.entries)
    (hc : (a, c) ∈ m.entries) : b = c := by
  rw [← find?_eq_some_iff] at hb hc
  exact Option.some.inj (hb.symm.trans hc)

theorem find?_eq_none_iff {m : OrderedMap α β} {a : α} : m.find? a = none ↔ a ∉ m.keys := by
  rw [mem_keys, ← Option.not_isSome_iff_eq_none, Option.isSome_iff_exists]
  simp only [find?_eq_some_iff]

/-- Two maps are equal if their keys are, in order, and what they hold at each key. -/
theorem ext_find? {m n : OrderedMap α β} (hkeys : m.keys = n.keys)
    (hfind : ∀ a, m.find? a = n.find? a) : m = n := by
  have hread : ∀ m : OrderedMap α β,
      m.entries.map (fun e => (e.1, some e.2)) = m.keys.map fun a => (a, m.find? a) := fun m => by
    rw [keys, List.map_map]
    exact List.map_congr_left fun e he => Prod.ext rfl (find?_eq_some_iff.mpr he).symm
  have hsome : ∀ d e : α × β, (d.1, some d.2) = (e.1, some e.2) → d = e := fun d e h =>
    Prod.ext (Prod.mk.inj h).1 (Option.some.inj (Prod.mk.inj h).2)
  refine OrderedMap.ext ((List.map_inj_right hsome).mp ?_)
  rw [hread, hread, hkeys, funext hfind]

theorem find?_ofKeys {l : List α} (h : l.Nodup) (f : α → β) (a : α) :
    (ofKeys l h f).find? a = if a ∈ l then some (f a) else none := by
  by_cases ha : a ∈ l
  · rw [if_pos ha, find?_eq_some_iff]
    exact List.mem_map.mpr ⟨a, ha, rfl⟩
  · rw [if_neg ha, find?_eq_none_iff, keys_ofKeys]
    exact ha

theorem find?_filterMap (f : α → β → Option γ) (m : OrderedMap α β) (a : α) :
    (m.filterMap f).find? a = (m.find? a).bind (f a) := by
  ext c
  simp only [find?_eq_some_iff, mem_entries_filterMap, Option.bind_eq_some_iff]

theorem find?_insert (m : OrderedMap α β) (a x : α) (b : β) :
    (m.insert a b).find? x = if x = a then some b else m.find? x := by
  simp only [find?, insert]
  induction m.entries with
  | nil => by_cases h : a = x <;> simp [insertEntry, h, eq_comm]
  | cons e l ih =>
    by_cases h : e.1 = a
    · by_cases hx : a = x
      · simp [insertEntry, h, hx]
      · simp [insertEntry, h, hx, eq_comm]
    · by_cases hx : e.1 = x
      · have hxa : ¬ x = a := fun hxa => h (hx.trans hxa)
        simp [insertEntry, hx, hxa]
      · simpa [insertEntry, h, hx] using ih

theorem mem_entries_insert {m : OrderedMap α β} {a x : α} {b y : β} :
    (x, y) ∈ (m.insert a b).entries ↔ (x = a ∧ y = b) ∨ (x ≠ a ∧ (x, y) ∈ m.entries) := by
  rw [← find?_eq_some_iff, find?_insert]
  by_cases h : x = a
  · simp [h, eq_comm]
  · simp [h, find?_eq_some_iff]

/-- Entries that the list does not mention are those of the map. -/
theorem mem_entries_insertAll_of_not_mem {a : α} {b : β} :
    ∀ {l : List (α × β)} {m : OrderedMap α β}, a ∉ l.map Prod.fst →
      ((a, b) ∈ (m.insertAll l).entries ↔ (a, b) ∈ m.entries)
  | [], _, _ => Iff.rfl
  | e :: l, m, h => by
    rw [List.map_cons, List.mem_cons, not_or] at h
    show (a, b) ∈ ((m.insert e.1 e.2).insertAll l).entries ↔ _
    rw [mem_entries_insertAll_of_not_mem h.2, mem_entries_insert]
    simp [h.1]

/-- Each entry of a list with distinct keys is set. -/
theorem mem_entries_insertAll_of_mem {e : α × β} :
    ∀ {l : List (α × β)} {m : OrderedMap α β}, (l.map Prod.fst).Nodup → e ∈ l →
      e ∈ (m.insertAll l).entries
  | d :: l, m, hl, he => by
    rw [List.map_cons, List.nodup_cons] at hl
    rcases List.mem_cons.mp he with rfl | he
    · refine (mem_entries_insertAll_of_not_mem (m := m.insert e.1 e.2) hl.1).mpr ?_
      exact mem_entries_insert.mpr (.inl ⟨rfl, rfl⟩)
    · exact mem_entries_insertAll_of_mem (m := m.insert d.1 d.2) hl.2 he

/-- No entry comes from elsewhere. -/
theorem mem_entries_of_mem_insertAll {e : α × β} :
    ∀ {l : List (α × β)} {m : OrderedMap α β}, e ∈ (m.insertAll l).entries →
      e ∈ m.entries ∨ e ∈ l
  | [], _, h => Or.inl h
  | d :: l, m, h => by
    rcases mem_entries_of_mem_insertAll (l := l) (m := m.insert d.1 d.2) h with h | h
    · rcases mem_entries_insert.mp h with ⟨ha, hb⟩ | ⟨-, h⟩
      · exact Or.inr (List.mem_cons.mpr (Or.inl (Prod.ext ha hb)))
      · exact Or.inl h
    · exact Or.inr (List.mem_cons_of_mem d h)

end OrderedMap

end ChomskyForm
