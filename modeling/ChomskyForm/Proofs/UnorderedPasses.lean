import ChomskyForm.Proofs.ProductionLists

/-!
# The removals do not look at order

Two grammars that are equal without regard to order have the same productions
(`Grammar.Alike.mem_rules_iff`). The searches for nullable non-terminals and for unit
closures find what derivations and unit productions lead to, so on such grammars they find
the same, if not in the same order. With that the two removals take equal grammars to
equal grammars (`Grammar.Alike.removeErasing`, `Grammar.Alike.removeUnits`).

For grammars that have a production for every left-hand side (`Grammar.Trim`), the
productions decide about the left-hand sides as well (`Grammar.Alike.of_rules`). Whatever the
supplies of names, passes lead from a grammar that was built to such grammars only
(`Grammar.Reachable.trim`).
-/

namespace ChomskyForm

/-- Only membership among the erasable symbols counts. -/
theorem Word.variants_congr {E F : List NonTerminal} (h : ∀ A, A ∈ E ↔ A ∈ F) :
    ∀ w : Word, w.variants E = w.variants F
  | [] => rfl
  | .terminal t :: w => by rw [variants, variants, variants_congr h w]
  | .nonTerminal A :: w => by simp only [variants, variants_congr h w, h A]

namespace Grammar

variable {g h : Grammar} {A B : NonTerminal}

/-! ## Left-hand sides -/

/-- Every left-hand side is a non-terminal and has a production. -/
structure Trim (g : Grammar) : Prop where
  keys_mem : ∀ A ∈ g.productions.keys, A ∈ g.nonTerminals
  exists_mem_rules : ∀ A ∈ g.productions.keys, ∃ w, (A, w) ∈ g.rules

theorem WellFormed.trim (hg : g.WellFormed) : g.Trim := ⟨hg.keys_mem, fun _ => hg.exists_mem_rules⟩

theorem Trim.mem_keys_iff (hg : g.Trim) : A ∈ g.productions.keys ↔ ∃ w, (A, w) ∈ g.rules :=
  ⟨hg.exists_mem_rules A, fun ⟨_, hr⟩ => fst_mem_keys hr⟩

theorem trim_withProductions {p : Productions} (h : ∀ A ∈ p.keys, ∃ w, (A, w) ∈ p.rules) :
    (g.withProductions p).Trim :=
  ⟨fun _ hA => mem_nonTerminals_withProductions.mpr (.inr hA), h⟩

theorem trim_removeErasing (g : Grammar) (e : EmptySentence) : (g.removeErasing e).Trim :=
  trim_withProductions fun _ => exists_mem_rules_filterMap

theorem trim_removeUnits (g : Grammar) : g.removeUnits.Trim :=
  trim_withProductions fun _ => exists_mem_rules_filterMap

/-- A helper that replaces a left-hand side brings its own production. -/
theorem Trim.isolate (hg : g.Trim) (s : NameSupply) : (g.isolate s).grammar.Trim := by
  refine trim_withProductions fun A hA => ?_
  by_cases hX : A ∈ (g.isolate s).helpers.map Prod.snd
  · obtain ⟨x, hx, rfl⟩ := List.mem_map.mp hX
    exact ⟨_, helperRule_mem_rules hx⟩
  · obtain ⟨w, hw⟩ := hg.exists_mem_rules A ((mem_keys_isolate.mp hA).resolve_right hX)
    exact ⟨_, isolate_mem_rules hX hw⟩

theorem Trim.binarize (hg : g.Trim) (s : NameSupply) : (g.binarize s).grammar.Trim := by
  refine trim_withProductions fun A hA => ?_
  by_cases hX : A ∈ (g.binarize s).links.map Prod.fst
  · obtain ⟨l, hl, rfl⟩ := List.mem_map.mp hX
    exact ⟨_, link_mem_rules hl⟩
  · obtain ⟨w, hw⟩ := hg.exists_mem_rules A ((mem_keys_binarize.mp hA).resolve_right hX)
    obtain ⟨Xs, hd⟩ := exists_mem_dealt hw s
    exact ⟨_, chainHead_mem_rules hX hd⟩

theorem Reachable.trim : ∀ {g : Grammar}, g.Reachable → g.Trim
  | _, .build h => (Draft.wellFormed_of_build h).trim
  | _, .pass _ (.removeErasing e) _ => trim_removeErasing _ e
  | _, .pass _ .removeUnits _ => trim_removeUnits _
  | _, .pass s .isolate h => h.trim.isolate s
  | _, .pass s .binarize h => h.trim.binarize s

namespace Alike

theorem refl (g : Grammar) : g.Alike g :=
  ⟨rfl, fun _ => Iff.rfl, fun _ => Iff.rfl, fun _ => Iff.rfl, fun _ _ => Iff.rfl, rfl⟩

/-- Grammars are equal if their productions are, and all that is no production. -/
theorem of_rules (hg : g.Trim) (hh : h.Trim) (hstart : g.start = h.start)
    (hnonTerminals : g.nonTerminals.SameElements h.nonTerminals)
    (hterminals : g.terminals.SameElements h.terminals) (hstem : g.stem = h.stem)
    (hrules : ∀ A w, (A, w) ∈ g.rules ↔ (A, w) ∈ h.rules) : g.Alike h where
  start := hstart
  nonTerminals := hnonTerminals
  terminals := hterminals
  keys A := by simp only [hg.mem_keys_iff, hh.mem_keys_iff, hrules]
  alternatives A w := by
    rw [mem_alternatives, mem_alternatives]
    exact hrules A w
  stem := hstem

variable (hgh : g.Alike h)
include hgh

theorem mem_rules_iff {w : Word} : (A, w) ∈ g.rules ↔ (A, w) ∈ h.rules := by
  rw [← mem_alternatives, ← mem_alternatives]
  exact hgh.alternatives A w

theorem perm_rules : g.rules.Perm h.rules :=
  (List.perm_ext_iff_of_nodup g.nodup_rules h.nodup_rules).mpr fun _ => hgh.mem_rules_iff

/-! ## What the searches find -/

theorem derives_iff {u : Sentence} : g.Derives A u ↔ h.Derives A u :=
  ⟨.mono fun _ => hgh.mem_rules_iff.mp, .mono fun _ => hgh.mem_rules_iff.mpr⟩

theorem mem_nullable_iff : A ∈ g.nullable ↔ A ∈ h.nullable := by
  rw [mem_nullable, mem_nullable, hgh.derives_iff]

theorem unitReaches_iff : g.UnitReaches A B ↔ h.UnitReaches A B :=
  ⟨Relation.ReflTransGen.mono (fun _ _ => hgh.mem_rules_iff.mp) A B,
    Relation.ReflTransGen.mono (fun _ _ => hgh.mem_rules_iff.mpr) A B⟩

theorem unitClosure (A : NonTerminal) : (g.unitClosure A).SameElements (h.unitClosure A) :=
  fun B => by rw [mem_unitClosure, mem_unitClosure, hgh.unitReaches_iff]

/-! ## What the removals leave -/

theorem removeErasing (hg : g.WellFormed) (hh : h.WellFormed) (e : EmptySentence) :
    (g.removeErasing e).Alike (h.removeErasing e) := by
  refine of_rules (g.trim_removeErasing e) (h.trim_removeErasing e) hgh.start ?_ hgh.terminals
    hgh.stem fun A w => ?_
  · rw [nonTerminals_removeErasing hg, nonTerminals_removeErasing hh]
    exact hgh.nonTerminals
  · have hvariants := Word.variants_congr (E := g.nullable) fun A => hgh.mem_nullable_iff (A := A)
    simp only [mem_rules_removeErasing, hvariants, hgh.mem_rules_iff, hgh.derives_iff, hgh.start]

theorem removeUnits (hg : g.WellFormed) (hh : h.WellFormed) :
    g.removeUnits.Alike h.removeUnits := by
  refine of_rules g.trim_removeUnits h.trim_removeUnits hgh.start ?_ hgh.terminals hgh.stem
    fun A w => ?_
  · rw [nonTerminals_removeUnits hg, nonTerminals_removeUnits hh]
    exact hgh.nonTerminals
  · simp only [mem_rules_removeUnits, hgh.mem_rules_iff, hgh.unitReaches_iff]

end Alike

end Grammar

end ChomskyForm
