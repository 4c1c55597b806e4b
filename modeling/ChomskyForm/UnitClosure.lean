import ChomskyForm.Grammar

/-!
# Removal of unit productions

A production `A → B` with a single non-terminal on the right is a unit production.
`Grammar.unitClosure g A` lists the non-terminals to which unit productions lead from `A`,
by levels : a level holds what the level before it leads to and was not seen. Every
non-terminal on a shortest way, but for its end, has productions, so as many rounds as
there are left-hand sides reach everything.

`Grammar.removeUnits` gives each left-hand side the other alternatives of its closure. An
empty alternative stays with its own left-hand side.
-/

namespace ChomskyForm

/-- Progress of the search : what was seen, and the last level of it. -/
structure UnitSearch where
  seen : OrderedSet NonTerminal
  level : OrderedSet NonTerminal
  deriving DecidableEq

namespace Grammar

/-- The non-terminals to which a unit production of `A` leads. -/
def unitTargets (g : Grammar) (A : NonTerminal) : List NonTerminal :=
  (g.alternatives A).toList.filterMap Word.unit?

/-- Go on to the next level. -/
def unitStep (g : Grammar) (s : UnitSearch) : UnitSearch :=
  let level := OrderedSet.ofList <|
    (s.level.toList.flatMap g.unitTargets).filter fun B => B ∉ s.seen
  ⟨s.seen.insertAll level.toList, level⟩

/-- The search after `n` levels. -/
def unitSearch (g : Grammar) (A : NonTerminal) : Nat → UnitSearch
  | 0 => ⟨.singleton A, .singleton A⟩
  | n + 1 => g.unitStep (g.unitSearch A n)

/-- The non-terminal `A` and what unit productions lead to from it, nearest first. -/
def unitClosure (g : Grammar) (A : NonTerminal) : OrderedSet NonTerminal :=
  (g.unitSearch A g.productions.size).seen

/-- What `A` takes over from a member of its closure. -/
def takenOver (g : Grammar) (A B : NonTerminal) : List Word :=
  (g.alternatives B).toList.filter fun w => w.unit?.isNone && (!w.isEmpty || A = B)

/-- The same sentences without unit productions. -/
def removeUnits (g : Grammar) : Grammar :=
  g.withProductions <| g.productions.filterMap fun A _ =>
    (OrderedSet.ofList ((g.unitClosure A).toList.flatMap (g.takenOver A))).nonempty?

end Grammar

end ChomskyForm
