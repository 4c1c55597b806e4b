import Mathlib.Data.Set.List
import ChomskyForm.Objection
import ChomskyForm.Proofs.CheckedLoops

/-!
# Drafts of texts and drafts of names

A draft of texts is read as a draft of names (`Draft.named?`). This succeeds exactly if no text
is empty (`Draft.named?_eq_none_iff`), and the draft of names then has the same texts
(`Draft.named?_eq_some_iff`), so that a draft of texts without empty ones is the image of a
draft of names under `Draft.map`.

What a draft mentions is mapped along with it.
-/

namespace ChomskyForm

/-- Texts that are not empty are those of names. -/
theorem exists_map_text {l : List String} (h : ∀ s ∈ l, s ≠ "") :
    ∃ m : List Name, m.map Name.text = l :=
  (Set.range_list_map Name.text).ge fun s hs => ⟨⟨s, h s hs⟩, rfl⟩

/-- Names are repeated where their texts are. -/
theorem eraseDups_map_text (l : List Name) :
    (l.map Name.text).eraseDups = (OrderedSet.ofList l).toList.map Name.text := by
  rw [← OrderedSet.toList_ofList, OrderedSet.toList_ofList_map fun _ _ => Name.ext]

namespace Draft

variable {α β : Type}

/-- The draft with `f` applied to all that it mentions. -/
def map (f : α → β) (d : Draft α) : Draft β :=
  ⟨f d.start, d.nonTerminals.map f, d.terminals.map f,
    d.productions.map fun p => (f p.1, p.2.map f), f d.stem⟩

section Map

variable (f : α → β) (d : Draft α)

theorem heads_map : (d.map f).heads = d.heads.map f := by
  simp only [heads, map, List.map_map]
  rfl

theorem variableList_map : (d.map f).variableList = d.variableList.map f := by
  rw [variableList, variableList, heads_map, List.map_append]
  rfl

theorem mentioned_map : (d.map f).mentioned = d.mentioned.map f := by
  rw [mentioned, mentioned, variableList_map]
  simp [map, List.flatMap_map, List.map_flatMap]

variable [DecidableEq α] [DecidableEq β]

variable {f d} in
theorem given_map (hf : ∀ a b, f a = f b → a = b) (A : α) :
    (d.map f).given (f A) = (d.given A).map (List.map f) := by
  have hfilter : ∀ p : α × List α, decide (f p.1 = f A) = decide (p.1 = A) := fun p =>
    decide_eq_decide.mpr ⟨hf p.1 A, congrArg f⟩
  simp [given, map, List.filter_map, Function.comp_def, hfilter]

end Map

/-- The names of a draft of texts have its texts. -/
theorem named?_eq_some_iff {d : Draft String} {d' : Draft Name} :
    d.named? = some d' ↔ d'.map Name.text = d := by
  have htext : ∀ s a, Name.ofString? s = some a ↔ a.text = s := fun _ _ =>
    Name.ofString?_eq_some_iff
  have hproduction : ∀ (p : String × List String) (q : Name × List Name),
      (do return (← Name.ofString? p.1, ← p.2.mapM Name.ofString?)) = some q ↔
        (q.1.text, q.2.map Name.text) = p := fun p q => by
    simp only [Option.bind_eq_bind, Option.bind_eq_some_iff, Option.pure_def, Option.some.injEq,
      mapM_eq_some_iff htext, htext, Prod.ext_iff]
    exact ⟨fun ⟨a, ha, l, hl, hq⟩ => ⟨hq.1 ▸ ha, hq.2 ▸ hl⟩,
      fun ⟨ha, hl⟩ => ⟨q.1, ha, q.2, hl, rfl, rfl⟩⟩
  have hproductions := fun l m => mapM_eq_some_iff hproduction (l := l) (m := m)
  obtain ⟨start, nonTerminals, terminals, productions, stem⟩ := d
  obtain ⟨start', nonTerminals', terminals', productions', stem'⟩ := d'
  simp only [named?, map, Option.bind_eq_bind, Option.bind_eq_some_iff, Option.pure_def,
    Option.some.injEq, mapM_eq_some_iff htext, htext, Draft.mk.injEq] at hproductions ⊢
  simp only [hproductions]
  constructor
  · rintro ⟨_, hstart, _, hnon, _, hterm, _, hprod, _, hstem, rfl, rfl, rfl, rfl, rfl⟩
    exact ⟨hstart, hnon, hterm, hprod, hstem⟩
  · rintro ⟨hstart, hnon, hterm, hprod, hstem⟩
    exact ⟨_, hstart, _, hnon, _, hterm, _, hprod, _, hstem, rfl, rfl, rfl, rfl, rfl⟩

/-- A draft of texts has names unless it mentions the empty text. -/
theorem exists_map_text_iff {d : Draft String} :
    (∃ d' : Draft Name, d'.map Name.text = d) ↔ "" ∉ d.mentioned := by
  constructor
  · rintro ⟨d', rfl⟩ hmem
    rw [mentioned_map] at hmem
    obtain ⟨a, -, ha⟩ := List.mem_map.mp hmem
    exact a.text_ne ha
  · intro h
    have hne : ∀ s ∈ d.mentioned, s ≠ "" := fun s hs heq => h (heq ▸ hs)
    simp only [mem_mentioned, variableList, heads, List.mem_append, List.mem_map] at hne
    have hstem : d.stem ≠ "" := hne _ (by simp)
    have hstart : d.start ≠ "" := hne _ (by simp)
    obtain ⟨nonTerminals, hnon⟩ := exists_map_text (l := d.nonTerminals) fun s hs =>
      hne s (by simp [hs])
    obtain ⟨terminals, hterm⟩ := exists_map_text (l := d.terminals) fun s hs =>
      hne s (by simp [hs])
    have hproduction : ∀ p ∈ d.productions, ∃ q : Name × List Name,
        (q.1.text, q.2.map Name.text) = p := fun p hp => by
      have hlhs : p.1 ≠ "" := hne _ (.inr (.inr (.inl (.inr ⟨p, hp, rfl⟩))))
      obtain ⟨rhs, hrhs⟩ := exists_map_text (l := p.2) fun s hs =>
        hne s (.inr (.inr (.inr (.inr ⟨p, hp, hs⟩))))
      exact ⟨(⟨p.1, hlhs⟩, rhs), by rw [hrhs]⟩
    obtain ⟨productions, hprod⟩ := (Set.range_list_map _).ge hproduction
    refine ⟨⟨⟨d.start, hstart⟩, nonTerminals, terminals, productions, ⟨d.stem, hstem⟩⟩, ?_⟩
    rw [map, hnon, hterm, hprod]

theorem named?_eq_none_iff {d : Draft String} : d.named? = none ↔ "" ∈ d.mentioned := by
  rw [← not_iff_not, ← exists_map_text_iff]
  simp only [← named?_eq_some_iff]
  exact Option.ne_none_iff_exists'

theorem build_map (d : Draft Name) : (d.map Name.text).build = okUnless d.fault? d.grammar := by
  have hnamed : (d.map Name.text).named? = some d := named?_eq_some_iff.mpr rfl
  cases hfault : d.fault? <;> simp only [build, hnamed, hfault, okUnless]

end Draft

end ChomskyForm
