import Mathlib.Data.List.Basic
import ChomskyForm.Proofs.NamedDrafts

/-!
# What the checks of a draft find

The checks of a draft go through sets, and through the symbols of the alternatives of one
left-hand side after the other. What they find is the first of its kind among all that was
declared (`Draft.overlap?_eq_some_iff`, `Draft.reserved?_eq_some_iff`,
`Draft.undefined?_eq_some_iff`).

`Draft.objection_map_iff` : each check finds what the rule of the same place objects to.
`Draft.fault?_eq_some_iff` : of all that is found the first counts.
-/

namespace ChomskyForm

/-! ## First elements -/

theorem first_iff {α : Type} {p : α → Bool} {l : List α} {a : α} :
    First (p · = true) l a ↔ l.find? p = some a := by
  rw [List.find?_eq_some_iff_append]
  constructor
  · rintro ⟨before, rest, hl, ha, hbefore⟩
    exact ⟨ha, before, rest, hl, fun b hb => by simpa using hbefore b hb⟩
  · rintro ⟨ha, before, rest, hl, hbefore⟩
    exact ⟨before, rest, hl, ha, fun b hb => by simpa using hbefore b hb⟩

theorem first_map_iff {α β : Type} {f : α → β} (hf : ∀ a b, f a = f b → a = b) {p : β → Prop}
    {q : α → Bool} (hq : ∀ a, p (f a) ↔ q a = true) {l : List α} {a : α} :
    First p (l.map f) (f a) ↔ l.find? q = some a := by
  rw [← first_iff]
  constructor
  · rintro ⟨before, rest, hl, ha, hbefore⟩
    obtain ⟨before', rest', rfl, rfl, hrest⟩ := List.map_eq_append_iff.mp hl
    obtain ⟨b, rest, rfl, hb, -⟩ := List.map_eq_cons_iff.mp hrest
    obtain rfl := hf b a hb
    exact ⟨before', rest, rfl, (hq b).mp ha, fun c hc hqc =>
      hbefore (f c) (List.mem_map_of_mem hc) ((hq c).mpr hqc)⟩
  · rintro ⟨before, rest, rfl, ha, hbefore⟩
    refine ⟨before.map f, rest.map f, by simp, (hq a).mpr ha, fun b hb hp => ?_⟩
    obtain ⟨c, hc, rfl⟩ := List.mem_map.mp hb
    exact hbefore c hc ((hq c).mp hp)

theorem First.holds {α : Type} {p : α → Prop} {l : List α} {a : α} (h : First p l a) :
    a ∈ l ∧ p a := by
  obtain ⟨before, rest, rfl, ha, -⟩ := h
  exact ⟨List.mem_append_right before List.mem_cons_self, ha⟩

theorem exists_first {α : Type} {p : α → Prop} {l : List α} (h : ∃ a ∈ l, p a) :
    ∃ a, First p l a := by
  classical
  have hfound : (l.find? fun a => decide (p a)).isSome = true :=
    List.find?_isSome.mpr (by simpa using h)
  obtain ⟨a, ha⟩ := Option.isSome_iff_exists.mp hfound
  exact ⟨a, by simpa using first_iff.mpr ha⟩

namespace Draft

/-! ## What the checks find -/

section Searches

variable (d : Draft Name)

theorem overlap?_eq : d.overlap? = d.terminals.find? fun a => a ∈ d.variableSet :=
  OrderedSet.find?_toList_ofList _ _

theorem reserved?_eq : d.reserved? =
    (d.variableList ++ d.terminals).find? fun a => hasNumberedShape d.stem.text a.text := by
  rw [reserved?, List.find?_append, List.find?_append, variableSet, letterSet,
    OrderedSet.find?_toList_ofList, OrderedSet.find?_toList_ofList]
  rfl

/-- Every name in an alternative, with the left-hand side. -/
def occurrences : List (Name × Name) :=
  d.headSet.toList.flatMap fun A => (d.spellings A).flatten.map (·, A)

theorem undefined?_eq : d.undefined? =
    d.occurrences.find? fun p => p.1 ∉ d.variableSet ∧ p.1 ∉ d.letterSet := by
  simp only [occurrences, List.find?_flatMap, List.find?_map]
  rfl

theorem mem_map_text {l : List Name} {a : Name} : a.text ∈ l.map Name.text ↔ a ∈ l :=
  List.mem_map_of_injective fun _ _ => Name.ext

section Membership

variable {d} {a : Name}

theorem text_mem_heads : a.text ∈ (d.map Name.text).heads ↔ a ∈ d.headSet := by
  rw [heads_map, mem_map_text, mem_headSet]

theorem text_mem_variableList : a.text ∈ (d.map Name.text).variableList ↔ a ∈ d.variableSet := by
  rw [variableList_map, mem_map_text, mem_variableSet]

theorem text_mem_terminals : a.text ∈ (d.map Name.text).terminals ↔ a ∈ d.letterSet :=
  mem_map_text.trans mem_letterSet.symm

end Membership

theorem unmarked_map (rhs : List Name) :
    unmarked (rhs.map Name.text) = (spelling rhs).map Name.text := by
  rw [unmarked, List.filter_map]
  rfl

theorem given_text (A : Name) :
    (d.map Name.text).given A.text = (d.given A).map (List.map Name.text) :=
  given_map (fun _ _ => Name.ext) A

theorem uses_map : (d.map Name.text).uses = d.occurrences.map fun p => (p.1.text, p.2.text) := by
  have hheads : (d.map Name.text).heads.eraseDups = d.headSet.toList.map Name.text := by
    rw [heads_map, eraseDups_map_text]
    rfl
  have hnames : ∀ A, ((d.map Name.text).given A.text).flatMap unmarked =
      (d.spellings A).flatten.map Name.text := fun A => by
    rw [given_text, spellings_eq, List.flatMap_map, List.map_flatten, List.map_map]
    simp only [unmarked_map, List.flatMap_def]
    rfl
  rw [uses, hheads, List.flatMap_map, occurrences, List.map_flatMap]
  simp only [hnames, List.map_map]
  rfl

variable {d}

theorem overlap?_eq_some_iff {a : Name} : d.overlap? = some a ↔
    First (· ∈ (d.map Name.text).variableList) (d.map Name.text).terminals a.text := by
  have htest : ∀ b : Name, b.text ∈ (d.map Name.text).variableList ↔
      decide (b ∈ d.variableSet) = true := fun b => by
    rw [text_mem_variableList, decide_eq_true_iff]
  rw [overlap?_eq]
  exact (first_map_iff (fun _ _ => Name.ext) htest).symm

theorem reserved?_eq_some_iff {a : Name} : d.reserved? = some a ↔
    First (NumberedFrom d.stem.text)
      ((d.map Name.text).variableList ++ (d.map Name.text).terminals) a.text := by
  have hnames : (d.map Name.text).variableList ++ (d.map Name.text).terminals =
      (d.variableList ++ d.terminals).map Name.text := by
    rw [variableList_map, List.map_append]
    rfl
  rw [reserved?_eq, hnames]
  exact (first_map_iff (fun _ _ => Name.ext) fun b => hasNumberedShape_iff.symm).symm

theorem undefined?_eq_some_iff {a A : Name} : d.undefined? = some (a, A) ↔
    First (fun p => p.1 ∉ (d.map Name.text).variableList ∧ p.1 ∉ (d.map Name.text).terminals)
      (d.map Name.text).uses (a.text, A.text) := by
  have htest : ∀ p : Name × Name, (p.1.text ∉ (d.map Name.text).variableList ∧
      p.1.text ∉ (d.map Name.text).terminals) ↔
        decide (p.1 ∉ d.variableSet ∧ p.1 ∉ d.letterSet) = true := fun p => by
    rw [text_mem_variableList, text_mem_terminals, decide_eq_true_iff]
  have hinj : ∀ p q : Name × Name, (p.1.text, p.2.text) = (q.1.text, q.2.text) → p = q :=
    fun p q h => Prod.ext (Name.ext (Prod.mk.inj h).1) (Name.ext (Prod.mk.inj h).2)
  rw [undefined?_eq, uses_map]
  exact (first_map_iff hinj htest).symm

end Searches

/-! ## Objections and checks -/

/-- The outcomes of the checks, in order. The first, that no name is empty, has been passed. -/
def checks (d : Draft Name) : List (Option Fault) :=
  [none,
    d.overlap?.map .alphabetOverlap,
    d.reserved?.map (.reservedName · d.stem),
    if d.productions = [] then some (.noProductions d.start) else none,
    if d.start ∈ d.variableSet then none else some (.unknownStart d.start),
    d.undefined?.map fun p => .undefinedSymbol p.1 p.2,
    if d.start ∈ d.headSet then none else some (.noProductions d.start)]

/-- What stands before the first outcome that is a fault does not count. -/
theorem join_find?_cons {α : Type} (o : Option α) (l : List (Option α)) :
    ((o :: l).find? Option.isSome).join = (o <|> (l.find? Option.isSome).join) := by
  cases o <;> rfl

theorem fault?_eq (d : Draft Name) : d.fault? = (d.checks.find? Option.isSome).join := by
  simp only [checks, join_find?_cons, fault?]
  simp

variable {d : Draft Name}

/-- The fault that is found is the first one in the order of the checks. -/
theorem fault?_eq_some_iff {f : Fault} : d.fault? = some f ↔
    ∃ n : Nat, d.checks[n]? = some (some f) ∧ ∀ m < n, ∀ f', d.checks[m]? ≠ some (some f') := by
  rw [fault?_eq, Option.join_eq_some_iff, List.find?_eq_some_iff_getElem]
  constructor
  · rintro ⟨-, n, hn, hf, hbefore⟩
    refine ⟨n, by rw [List.getElem?_eq_getElem hn, hf], fun m hm f' h => ?_⟩
    obtain ⟨hm', hf'⟩ := List.getElem?_eq_some_iff.mp h
    have hnone := hbefore m hm
    rw [hf'] at hnone
    cases hnone
  · rintro ⟨n, h, hbefore⟩
    obtain ⟨hn, hf⟩ := List.getElem?_eq_some_iff.mp h
    refine ⟨rfl, n, hn, hf, fun m hm => ?_⟩
    have hm' := hm.trans hn
    cases hc : d.checks[m] with
    | none => rfl
    | some f' => exact absurd (List.getElem?_eq_some_iff.mpr ⟨hm', hc⟩) (hbefore m hm f')

theorem productions_map_eq_nil_iff : (d.map Name.text).productions = [] ↔ d.productions = [] :=
  List.map_eq_nil_iff

/-- What speaks against a draft of names is what its checks find. -/
theorem objection_map_iff {n : Nat} {f : Fault} :
    (d.map Name.text).Objection n f ↔ d.checks[n]? = some (some f) := by
  constructor
  · intro h
    cases h with
    | emptyName h => exact absurd h (exists_map_text_iff.mp ⟨d, rfl⟩)
    | alphabetOverlap h => simp [checks, overlap?_eq_some_iff.mpr h]
    | reservedName hstem h =>
      obtain rfl := Name.ext hstem
      simp [checks, reserved?_eq_some_iff.mpr h]
    | noProductions hstart h =>
      obtain rfl := Name.ext hstart
      simp [checks, productions_map_eq_nil_iff.mp h]
    | unknownStart hstart h =>
      obtain rfl := Name.ext hstart
      simp [checks, mt text_mem_variableList.mpr h]
    | undefinedSymbol h => simp [checks, undefined?_eq_some_iff.mpr h]
    | barrenStart hstart h =>
      obtain rfl := Name.ext hstart
      simp [checks, mt text_mem_heads.mpr h]
  · -- the entry of the check at this place is the one that is read
    intro h
    match n with
    | 0 => cases h
    | 1 =>
      obtain ⟨a, ha, rfl⟩ := Option.map_eq_some_iff.mp (Option.some.inj h)
      exact .alphabetOverlap (overlap?_eq_some_iff.mp ha)
    | 2 =>
      obtain ⟨a, ha, rfl⟩ := Option.map_eq_some_iff.mp (Option.some.inj h)
      exact .reservedName rfl (reserved?_eq_some_iff.mp ha)
    | 3 =>
      obtain ⟨hnil, hf⟩ := Option.ite_none_right_eq_some.mp (Option.some.inj h)
      cases hf
      exact .noProductions rfl (productions_map_eq_nil_iff.mpr hnil)
    | 4 =>
      obtain ⟨hstart, hf⟩ := Option.ite_none_left_eq_some.mp (Option.some.inj h)
      cases hf
      exact .unknownStart rfl (mt text_mem_variableList.mp hstart)
    | 5 =>
      obtain ⟨p, hp, rfl⟩ := Option.map_eq_some_iff.mp (Option.some.inj h)
      exact .undefinedSymbol (undefined?_eq_some_iff.mp hp)
    | 6 =>
      obtain ⟨hstart, hf⟩ := Option.ite_none_left_eq_some.mp (Option.some.inj h)
      cases hf
      exact .barrenStart rfl (mt text_mem_heads.mp hstart)
    | n + 7 => cases h

end Draft

end ChomskyForm
