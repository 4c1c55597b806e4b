import ChomskyForm.OrderedSet
import ChomskyForm.OrderedMap
import ChomskyForm.Word

/-!
# Context-free grammars

A `Grammar` has a start symbol, two alphabets, and for each left-hand side the set of its
alternatives, all in the order in which they were given. `Grammar.rules` lists the
productions in that order. The stem names the non-terminals that conversion introduces.

`Grammar.WellFormed` is what the construction of a grammar and every pass keep : the
alphabets are disjoint and hold every symbol of the productions, and no left-hand side is
without alternatives. `Grammar.Alike` is equality without regard to order, and
`Grammar.isNormal` tests for Chomsky normal form.
-/

namespace ChomskyForm

namespace OrderedMap

variable {α β γ : Type} {a : α} {c : γ}

/-- What a map of sets holds at a key that it need not have. -/
theorem mem_find?_getD [DecidableEq α] {m : OrderedMap α (OrderedSet γ)} :
    c ∈ (m.find? a).getD .empty ↔ ∃ s, (a, s) ∈ m.entries ∧ c ∈ s := by
  simp only [← find?_eq_some_iff]
  cases m.find? a with
  | none => simp
  | some s => simp

/-- No key keeps an empty set if entries with empty sets are dropped. -/
theorem exists_mem_of_mem_keys_filterMap {m : OrderedMap α β} {f : α → β → OrderedSet γ}
    (ha : a ∈ (m.filterMap fun a b => (f a b).nonempty?).keys) :
    ∃ s, (a, s) ∈ (m.filterMap fun a b => (f a b).nonempty?).entries ∧ ∃ c, c ∈ s := by
  obtain ⟨s, hs⟩ := mem_keys.mp ha
  obtain ⟨b, -, hb⟩ := mem_entries_filterMap.mp hs
  exact ⟨s, hs, List.exists_mem_of_ne_nil _ (OrderedSet.nonempty?_eq_some_iff.mp hb).2⟩

end OrderedMap

/-- The left-hand sides of a grammar with their alternatives. -/
abbrev Productions := OrderedMap NonTerminal (OrderedSet Word)

/-- Every production on its own, in order. -/
def Productions.rules (p : Productions) : List Rule :=
  p.entries.flatMap fun e => e.2.toList.map (e.1, ·)

theorem Productions.mem_rules {p : Productions} {A : NonTerminal} {w : Word} :
    (A, w) ∈ p.rules ↔ ∃ ws, (A, ws) ∈ p.entries ∧ w ∈ ws := by
  simp only [rules, List.mem_flatMap, List.mem_map, Prod.mk.injEq, OrderedSet.mem_toList]
  constructor
  · rintro ⟨⟨B, ws⟩, he, v, hv, rfl, rfl⟩
    exact ⟨ws, he, hv⟩
  · rintro ⟨ws, he, hw⟩
    exact ⟨(A, ws), he, w, hw, rfl, rfl⟩

/-- Productions that are recomputed entry by entry, without those left empty. -/
theorem Productions.mem_rules_filterMap {p : Productions}
    {f : NonTerminal → OrderedSet Word → OrderedSet Word} {A : NonTerminal} {w : Word} :
    (A, w) ∈ Productions.rules (p.filterMap fun A ws => (f A ws).nonempty?) ↔
      ∃ ws, (A, ws) ∈ p.entries ∧ w ∈ f A ws := by
  simp only [mem_rules, OrderedMap.mem_entries_filterMap, OrderedSet.nonempty?_eq_some_iff]
  refine ⟨fun h => ?_, fun ⟨ws, he, hw⟩ => ?_⟩
  · obtain ⟨vs, ⟨ws, he, rfl, -⟩, hw⟩ := h
    exact ⟨ws, he, hw⟩
  · exact ⟨f A ws, ⟨ws, he, rfl, List.ne_nil_of_mem hw⟩, hw⟩

/-- A context-free grammar. -/
@[ext] structure Grammar where
  start : NonTerminal
  nonTerminals : OrderedSet NonTerminal
  terminals : OrderedSet Terminal
  productions : Productions
  stem : Name
  deriving DecidableEq

namespace Grammar

/-- Every production on its own, in order. -/
def rules (g : Grammar) : List Rule := g.productions.rules

/-- The right-hand sides of `A`. -/
def alternatives (g : Grammar) (A : NonTerminal) : OrderedSet Word :=
  (g.productions.find? A).getD .empty

/-- The left-hand sides of empty productions. -/
def erasing (g : Grammar) : List NonTerminal :=
  (g.productions.entries.filter fun e => [] ∈ e.2).map Prod.fst

/-- The same grammar with other productions. Their left-hand sides join the non-terminals. -/
def withProductions (g : Grammar) (p : Productions) : Grammar :=
  { g with productions := p, nonTerminals := g.nonTerminals.insertAll p.keys }

@[simp] theorem rules_withProductions (g : Grammar) (p : Productions) :
    (g.withProductions p).rules = p.rules := rfl

@[simp] theorem mem_nonTerminals_withProductions {g : Grammar} {p : Productions}
    {A : NonTerminal} :
    A ∈ (g.withProductions p).nonTerminals ↔ A ∈ g.nonTerminals ∨ A ∈ p.keys :=
  OrderedSet.mem_insertAll

theorem fst_mem_keys {g : Grammar} {r : Rule} (hr : r ∈ g.rules) :
    r.1 ∈ g.productions.keys := by
  obtain ⟨ws, he, -⟩ := Productions.mem_rules.mp hr
  exact OrderedMap.mem_keys.mpr ⟨ws, he⟩

theorem mem_alternatives {g : Grammar} {A : NonTerminal} {w : Word} :
    w ∈ g.alternatives A ↔ (A, w) ∈ g.rules :=
  OrderedMap.mem_find?_getD.trans Productions.mem_rules.symm

theorem mem_erasing {g : Grammar} {A : NonTerminal} : A ∈ g.erasing ↔ (A, []) ∈ g.rules := by
  simp [erasing, rules, Productions.mem_rules]

/-! ## Well-formed grammars -/

/-- The symbol is in the alphabet of its kind. -/
def Declares (g : Grammar) : Symbol → Prop
  | .terminal t => t ∈ g.terminals
  | .nonTerminal A => A ∈ g.nonTerminals

instance (g : Grammar) (s : Symbol) : Decidable (g.Declares s) := by
  cases s <;> unfold Declares <;> infer_instance

/-- Disjoint alphabets that hold every symbol, and no left-hand side without alternatives. -/
structure WellFormed (g : Grammar) : Prop where
  start_mem : g.start ∈ g.nonTerminals
  disjoint : ∀ a ∈ g.nonTerminals, a ∉ g.terminals
  keys_mem : ∀ A ∈ g.productions.keys, A ∈ g.nonTerminals
  declares : ∀ r ∈ g.rules, ∀ s ∈ r.2, g.Declares s
  nonempty : ∀ e ∈ g.productions.entries, e.2.toList ≠ []

/-! ## Equality without regard to order -/

/-- Equal start, stem, alphabets and alternatives, where order does not count. -/
structure Alike (g h : Grammar) : Prop where
  start : g.start = h.start
  nonTerminals : g.nonTerminals.SameElements h.nonTerminals
  terminals : g.terminals.SameElements h.terminals
  keys : ∀ A, A ∈ g.productions.keys ↔ A ∈ h.productions.keys
  alternatives : ∀ A, (g.alternatives A).SameElements (h.alternatives A)
  stem : g.stem = h.stem

/-- Test `Alike` by comparison of the alphabets and of each entry. -/
def alike (g h : Grammar) : Bool :=
  g.start = h.start ∧ g.nonTerminals.SameElements h.nonTerminals ∧
    g.terminals.SameElements h.terminals ∧
    (∀ A ∈ g.productions.keys, A ∈ h.productions.keys) ∧
    (∀ A ∈ h.productions.keys, A ∈ g.productions.keys) ∧
    (∀ A ∈ g.productions.keys, (g.alternatives A).SameElements (h.alternatives A)) ∧
    g.stem = h.stem

theorem find?_productions {g : Grammar} {A : NonTerminal} (h : A ∈ g.productions.keys) :
    g.productions.find? A = some (g.alternatives A) := by
  obtain ⟨ws, he⟩ := OrderedMap.mem_keys.mp h
  rw [alternatives, OrderedMap.find?_eq_some_iff.mpr he, Option.getD_some]

theorem alternatives_eq_empty {g : Grammar} {A : NonTerminal} (h : A ∉ g.productions.keys) :
    g.alternatives A = .empty := by
  rw [alternatives, OrderedMap.find?_eq_none_iff.mpr h, Option.getD_none]

theorem alike_iff {g h : Grammar} : g.alike h = true ↔ g.Alike h := by
  rw [alike, decide_eq_true_iff]
  constructor
  · rintro ⟨hs, hn, ht, hgh, hhg, ha, hm⟩
    refine ⟨hs, hn, ht, fun A => ⟨hgh A, hhg A⟩, fun A => ?_, hm⟩
    by_cases hA : A ∈ g.productions.keys
    · exact ha A hA
    · rw [alternatives_eq_empty hA, alternatives_eq_empty fun hA' => hA (hhg A hA')]
      exact fun _ => Iff.rfl
  · rintro ⟨hs, hn, ht, hk, ha, hm⟩
    exact ⟨hs, hn, ht, fun A => (hk A).mp, fun A => (hk A).mpr, fun A _ => ha A, hm⟩

/-! ## Chomsky normal form -/

/-- The shapes `A → B C` and `A → a`, and `S → ε` for the start symbol `S`. -/
def isNormalRule (start : NonTerminal) : Rule → Bool
  | (A, []) => A = start
  | (_, [s]) => s.isTerminal
  | (_, [s, t]) => !s.isTerminal && !t.isTerminal
  | _ => false

/-- Whether every production has one of the shapes of Chomsky normal form. -/
def isNormal (g : Grammar) : Bool := g.rules.all (isNormalRule g.start)

end Grammar

end ChomskyForm
