import ChomskyForm.Draft

/-!
# What speaks against a draft

The rules for a draft of texts, apart from the way in which they are checked. `Objection` says
of each rule when a draft breaks it, which fault this is, and the place of the rule in the
order in which objections count. `Describes` says which grammar a draft stands for.

Both read the draft as it was declared, with its repetitions and with texts that may be empty.
No symbol is made, and no set is built.
-/

namespace ChomskyForm

/-- The first element of a list that has the property. -/
def First {α : Type} (p : α → Prop) (l : List α) (a : α) : Prop :=
  ∃ before rest, l = before ++ a :: rest ∧ p a ∧ ∀ b ∈ before, ¬ p b

/-- A symbol is told by its kind and its name. -/
def Symbol.kinded (s : Symbol) : Bool × String := (s.isTerminal, s.text)

namespace Draft

/-! ## What a draft mentions -/

section Mentions

variable {α : Type} (d : Draft α)

/-- The left-hand sides, as often as they have alternatives. -/
def heads : List α := d.productions.map Prod.fst

/-- The declared non-terminals, then the left-hand sides. -/
def variableList : List α := d.nonTerminals ++ d.heads

/-- All names of the draft. -/
def mentioned : List α :=
  d.stem :: d.start :: (d.variableList ++ d.terminals ++ d.productions.flatMap Prod.snd)

/-- The alternatives of `A`, in order, with repetitions. -/
def given [DecidableEq α] (A : α) : List (List α) :=
  (d.productions.filter fun p => p.1 = A).map Prod.snd

variable {d} in
theorem mem_mentioned {a : α} : a ∈ d.mentioned ↔ a = d.stem ∨ a = d.start ∨
    a ∈ d.variableList ∨ a ∈ d.terminals ∨ ∃ p ∈ d.productions, a ∈ p.2 := by
  simp only [mentioned, List.mem_cons, List.mem_append, List.mem_flatMap, or_assoc]

theorem given_eq_nil [DecidableEq α] {d : Draft α} {A : α} (h : A ∉ d.heads) :
    d.given A = [] := by
  rw [given, List.filter_eq_nil_iff.mpr fun p hp heq => h ?_, List.map_nil]
  exact decide_eq_true_iff.mp heq ▸ List.mem_map_of_mem hp

end Mentions

section Sets

variable {d : Draft Name} {a : Name}

theorem mem_headSet : a ∈ d.headSet ↔ a ∈ d.heads := OrderedSet.mem_ofList

theorem mem_variableSet : a ∈ d.variableSet ↔ a ∈ d.variableList := OrderedSet.mem_ofList

theorem mem_letterSet : a ∈ d.letterSet ↔ a ∈ d.terminals := OrderedSet.mem_ofList

theorem spellings_eq (d : Draft Name) (A : NonTerminal) :
    d.spellings A = (d.given A).map spelling := by
  rw [given, List.map_map]
  rfl

end Sets

variable (d : Draft String)

/-- An alternative without the marks of the empty word. -/
def unmarked (rhs : List String) : List String := rhs.filter (· ≠ Word.emptyMark)

/-- Every name in an alternative, with the left-hand side. -/
def uses : List (String × String) :=
  d.heads.eraseDups.flatMap fun A => ((d.given A).flatMap unmarked).map (·, A)

/-- A name in an alternative is a terminal unless it is a variable. -/
def kinded (a : String) : Bool × String := (a ∉ d.variableList, a)

/-! ## Objections -/

/-- The rules that a draft breaks, with their places in the order. -/
inductive Objection : Nat → Fault → Prop
  | emptyName : "" ∈ d.mentioned → Objection 0 .emptyName
  | alphabetOverlap {a : Name} : First (· ∈ d.variableList) d.terminals a.text →
      Objection 1 (.alphabetOverlap a)
  | reservedName {a stem : Name} : stem.text = d.stem →
      First (NumberedFrom d.stem) (d.variableList ++ d.terminals) a.text →
        Objection 2 (.reservedName a stem)
  | noProductions {S : Name} : S.text = d.start → d.productions = [] →
      Objection 3 (.noProductions S)
  | unknownStart {S : Name} : S.text = d.start → d.start ∉ d.variableList →
      Objection 4 (.unknownStart S)
  | undefinedSymbol {a A : Name} :
      First (fun p => p.1 ∉ d.variableList ∧ p.1 ∉ d.terminals) d.uses (a.text, A.text) →
        Objection 5 (.undefinedSymbol a A)
  | barrenStart {S : Name} : S.text = d.start → d.start ∉ d.heads →
      Objection 6 (.noProductions S)

/-! ## The grammar that is meant -/

/-- The grammar has the names that were declared, and for each left-hand side the alternatives
that were given, without marks and repetitions. -/
structure Describes (g : Grammar) : Prop where
  start : g.start.text = d.start
  nonTerminals : g.nonTerminals.toList.map Name.text = d.variableList.eraseDups
  terminals : g.terminals.toList.map Name.text = d.terminals.eraseDups
  keys : g.productions.keys.map Name.text = d.heads.eraseDups
  alternatives : ∀ A, (g.alternatives A).toList.map (List.map Symbol.kinded) =
    ((d.given A.text).map fun rhs => (unmarked rhs).map d.kinded).eraseDups
  stem : g.stem.text = d.stem

end Draft

end ChomskyForm
