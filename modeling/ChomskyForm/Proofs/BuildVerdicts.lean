import Mathlib.Data.Nat.Find
import ChomskyForm.Proofs.BuiltGrammars
import ChomskyForm.Proofs.Assembly
import ChomskyForm.Proofs.DraftObjections

/-!
# Which fault is reported, and what is built

`Draft.build_eq_error_iff` : a draft is rejected for the first objection to it, in the order of
the rules, whatever else is wrong. `Draft.build_eq_ok_iff` : if there is none, the grammar that
the draft describes is built, and a draft describes one grammar only (`Draft.Describes.unique`).

`Draft.verdict_ofDeclarations` : both for any sequence of declarations, also where they are
collected in sets and checked as texts.
-/

namespace ChomskyForm

theorem Symbol.kinded_inj {s t : Symbol} (h : s.kinded = t.kinded) : s = t := by
  obtain ⟨hkind, htext⟩ := Prod.mk.inj h
  cases s with
  | terminal a =>
    cases t with
    | terminal b => exact congrArg Symbol.terminal (Name.ext htext)
    | nonTerminal B => cases hkind
  | nonTerminal A =>
    cases t with
    | terminal b => cases hkind
    | nonTerminal B => exact congrArg Symbol.nonTerminal (Name.ext htext)

theorem Word.kinded_inj {v w : Word} (h : v.map Symbol.kinded = w.map Symbol.kinded) : v = w :=
  (List.map_inj_right fun _ _ => Symbol.kinded_inj).mp h

namespace Draft

variable {d : Draft Name}

/-! ## The grammar that is built -/

theorem kinded_classify (a : Name) :
    (classify d.variableSet a).kinded = (d.map Name.text).kinded a.text := by
  have hvar := text_mem_variableList (d := d) (a := a)
  unfold classify
  split
  · rename_i ha
    simp [kinded, hvar, ha, Symbol.kinded, Symbol.isTerminal, Symbol.text, Symbol.name]
  · rename_i ha
    simp [kinded, hvar, ha, Symbol.kinded, Symbol.isTerminal, Symbol.text, Symbol.name]

theorem describes_grammar : (d.map Name.text).Describes d.grammar where
  start := rfl
  nonTerminals := by
    rw [variableList_map, eraseDups_map_text]
    rfl
  terminals := (eraseDups_map_text d.terminals).symm
  keys := by
    rw [keys_grammar, heads_map, eraseDups_map_text]
    rfl
  alternatives A := by
    have hwords : ((d.map Name.text).given A.text).map
        (fun rhs => (unmarked rhs).map (d.map Name.text).kinded) =
          ((d.spellings A).map (List.map (classify d.variableSet))).map
            (List.map Symbol.kinded) := by
      rw [given_text, spellings_eq, List.map_map, List.map_map, List.map_map]
      refine List.map_congr_left fun rhs _ => ?_
      simp only [Function.comp_apply, unmarked_map, List.map_map]
      exact List.map_congr_left fun a _ => (kinded_classify a).symm
    rw [alternatives_grammar, hwords, ← OrderedSet.toList_ofList,
      OrderedSet.toList_ofList_map fun _ _ => Word.kinded_inj]
  stem := rfl

/-- A draft describes at most one grammar. -/
theorem Describes.unique {d : Draft String} {g h : Grammar} (hg : d.Describes g)
    (hh : d.Describes h) : g = h := by
  have hnames : ∀ {l m : List Name}, l.map Name.text = m.map Name.text → l = m :=
    (List.map_inj_right fun _ _ => Name.ext).mp
  have hkeys : g.productions.keys = h.productions.keys := hnames (hg.keys.trans hh.keys.symm)
  have halternatives : ∀ A, g.alternatives A = h.alternatives A := fun A => by
    have hwords := (hg.alternatives A).trans (hh.alternatives A).symm
    exact OrderedSet.ext ((List.map_inj_right fun _ _ => Word.kinded_inj).mp hwords)
  refine Grammar.ext (Name.ext (hg.start.trans hh.start.symm))
    (OrderedSet.ext (hnames (hg.nonTerminals.trans hh.nonTerminals.symm)))
    (OrderedSet.ext (hnames (hg.terminals.trans hh.terminals.symm)))
    (OrderedMap.ext_find? hkeys fun A => ?_) (Name.ext (hg.stem.trans hh.stem.symm))
  by_cases hA : A ∈ g.productions.keys
  · rw [Grammar.find?_productions hA, Grammar.find?_productions (hkeys ▸ hA), halternatives]
  · rw [OrderedMap.find?_eq_none_iff.mpr hA, OrderedMap.find?_eq_none_iff.mpr (hkeys ▸ hA)]

/-! ## Verdicts -/

/-- The fault that is reported is the objection that comes first. -/
theorem build_eq_error_iff {d : Draft String} {f : Fault} : d.build = .error f ↔
    ∃ n, d.Objection n f ∧ ∀ m < n, ∀ f', ¬ d.Objection m f' := by
  cases hnamed : d.named? with
  | none =>
    have hempty := named?_eq_none_iff.mp hnamed
    have hbuild : d.build = .error .emptyName := by rw [build, hnamed]
    rw [hbuild]
    constructor
    · intro h
      cases h
      exact ⟨0, .emptyName hempty, fun m hm => absurd hm (Nat.not_lt_zero m)⟩
    · -- any later objection comes after the one to the empty text
      rintro ⟨n, hn, hbefore⟩
      cases n with
      | zero =>
        cases hn
        rfl
      | succ n => exact absurd (.emptyName hempty) (hbefore 0 n.succ_pos .emptyName)
  | some d' =>
    obtain rfl := named?_eq_some_iff.mp hnamed
    simp only [objection_map_iff]
    refine Iff.trans ?_ fault?_eq_some_iff
    rw [build_map]
    cases d'.fault? <;> simp [okUnless]

theorem exists_error_of_objection {d : Draft String} {n : Nat} {f : Fault}
    (h : d.Objection n f) : ∃ f', d.build = .error f' := by
  classical
  have hexists : ∃ n, ∃ f, d.Objection n f := ⟨n, f, h⟩
  obtain ⟨f', hf'⟩ := Nat.find_spec hexists
  exact ⟨f', build_eq_error_iff.mpr ⟨Nat.find hexists, hf', fun m hm g hg =>
    Nat.find_min hexists hm ⟨g, hg⟩⟩⟩

theorem describes_of_build {d : Draft String} {g : Grammar} (h : d.build = .ok g) :
    d.Describes g := by
  obtain ⟨d', hnamed, -, rfl⟩ := exists_of_build h
  exact named?_eq_some_iff.mp hnamed ▸ describes_grammar

/-- A grammar is built unless something speaks against the draft, and it is the one meant. -/
theorem build_eq_ok_iff {d : Draft String} {g : Grammar} : d.build = .ok g ↔
    (∀ n f, ¬ d.Objection n f) ∧ d.Describes g := by
  cases hbuild : d.build with
  | error f =>
    refine ⟨nofun, fun ⟨hnone, _⟩ => ?_⟩
    obtain ⟨n, hn, -⟩ := build_eq_error_iff.mp hbuild
    exact absurd hn (hnone n f)
  | ok h =>
    have hdescribes := describes_of_build hbuild
    refine ⟨fun heq => ?_, fun ⟨_, hg⟩ => congrArg Except.ok (hdescribes.unique hg)⟩
    cases heq
    refine ⟨fun n f hn => ?_, hdescribes⟩
    obtain ⟨f', hf'⟩ := exists_error_of_objection hn
    rw [hbuild] at hf'
    cases hf'

/-- The rules for drafts decide which fault is reported, and otherwise which grammar is built.
This does not depend on how the declarations are collected, and no empty name comes up. -/
theorem verdict_ofDeclarations (start : String) (l : List Declaration) :
    (Outline.ofDeclarations start l).assemble = (ofDeclarations start l).build.mapError .fault ∧
      (∀ f, (ofDeclarations start l).build = .error f ↔
        ∃ n, (ofDeclarations start l).Objection n f ∧
          ∀ m < n, ∀ f', ¬ (ofDeclarations start l).Objection m f') ∧
      ∀ g, (ofDeclarations start l).build = .ok g ↔
        (∀ n f, ¬ (ofDeclarations start l).Objection n f) ∧
          (ofDeclarations start l).Describes g :=
  ⟨Outline.assemble_ofDeclarations start l, fun _ => build_eq_error_iff, fun _ => build_eq_ok_iff⟩

/-- Two symbols are undefined and the start symbol has no production. The left-hand side that
came first is looked at first, all its alternatives included. -/
example : ((ofDeclarations "S" [.nonTerminals ["S"], .production "A" ["ε"], .production "B" ["x"],
    .production "A" ["ε", "y"]]).build.map fun _ => ()) =
      .error (.undefinedSymbol ⟨"y", by decide⟩ ⟨"A", by decide⟩) := by
  decide +kernel

end Draft

end ChomskyForm
