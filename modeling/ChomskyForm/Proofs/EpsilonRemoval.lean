import ChomskyForm.Erasure
import ChomskyForm.Sample
import ChomskyForm.Proofs.NullableSearch

/-!
# Removal of empty productions keeps the language

`Grammar.mem_rules_removeErasing` lists the productions that are left : the non-empty
variants of the old ones, and `S → ε` for the start symbol if it is to be kept.

Nothing new is derived, though a kept `S → ε` may be used anywhere
(`Grammar.yields_of_removeErasing`), and every non-empty sentence is derived without it
(`Grammar.yields_solid_removeErasing`). A derivation chooses the variant by itself : the
symbols to leave out are those that derive the empty part of the sentence
(`Yields.exists_variant`).

`Grammar.derives_removeErasing` puts this together for every non-terminal.
-/

namespace ChomskyForm

namespace Word

variable {erasable : List NonTerminal}

theorem mem_variants_cons_terminal {t : Terminal} {w v : Word} :
    v ∈ variants erasable (.terminal t :: w) ↔
      ∃ v' ∈ variants erasable w, v = .terminal t :: v' := by
  simp [variants, eq_comm]

theorem mem_variants_cons_nonTerminal {A : NonTerminal} {w v : Word} :
    v ∈ variants erasable (.nonTerminal A :: w) ↔
      (∃ v' ∈ variants erasable w, v = .nonTerminal A :: v') ∨
        (A ∈ erasable ∧ v ∈ variants erasable w) := by
  by_cases hA : A ∈ erasable <;> simp [variants, hA, eq_comm]

/-- Each variant is what is left of the word. -/
theorem sublist_of_mem_variants : ∀ {w v : Word}, v ∈ variants erasable w → v.Sublist w
  | [], _, h => by
    obtain rfl := List.mem_singleton.mp h
    exact .slnil
  | .terminal t :: w, _, h => by
    obtain ⟨v, hv, rfl⟩ := mem_variants_cons_terminal.mp h
    exact (sublist_of_mem_variants hv).cons_cons _
  | .nonTerminal A :: w, _, h => by
    rcases mem_variants_cons_nonTerminal.mp h with ⟨v, hv, rfl⟩ | ⟨-, hv⟩
    · exact (sublist_of_mem_variants hv).cons_cons _
    · exact (sublist_of_mem_variants hv).cons _

end Word

/-! ## Variants -/

variable {rules more : List Rule} {erasable : List NonTerminal}

/-- A word derives what its variants derive. -/
theorem Yields.of_mem_variants (hE : ∀ A ∈ erasable, Yields rules [.nonTerminal A] []) :
    ∀ {w v : Word} {u : Sentence}, v ∈ w.variants erasable → Yields rules v u → Yields rules w u
  | [], _, _, hv, h => List.mem_singleton.mp hv ▸ h
  | .terminal t :: w, _, _, hv, h => by
    obtain ⟨v, hv', rfl⟩ := Word.mem_variants_cons_terminal.mp hv
    obtain ⟨u, rfl, hu⟩ := yields_terminal_iff.mp h
    exact .terminal (hu.of_mem_variants hE hv')
  | .nonTerminal A :: w, _, _, hv, h => by
    rcases Word.mem_variants_cons_nonTerminal.mp hv with ⟨v, hv', rfl⟩ | ⟨hA, hv'⟩
    · obtain ⟨x, y, rfl, ⟨r, hr, hx⟩, hy⟩ := yields_nonTerminal_iff.mp h
      exact .nonTerminal hr hx (hy.of_mem_variants hE hv')
    · exact (hE A hA).append (h.of_mem_variants hE hv')

/-- What a word derives, one of its variants derives without empty productions. -/
theorem Yields.exists_variant (hE : ∀ A, Yields rules [.nonTerminal A] [] → A ∈ erasable)
    (hmore : ∀ A w v, (A, w) ∈ rules → v ∈ w.variants erasable → v ≠ [] → (A, v) ∈ more) :
    ∀ {w : Word} {u : Sentence}, Yields rules w u → ∃ v ∈ w.variants erasable, Yields more v u
  | _, _, .nil => ⟨[], List.mem_singleton.mpr rfl, .nil⟩
  | _, _, .terminal h => by
    obtain ⟨v, hv, hu⟩ := h.exists_variant hE hmore
    exact ⟨_, Word.mem_variants_cons_terminal.mpr ⟨v, hv, rfl⟩, .terminal hu⟩
  | _, _, .nonTerminal (A := A) (x := x) hr hx hy => by
    obtain ⟨v, hv, hu⟩ := hy.exists_variant hE hmore
    by_cases hempty : x = []
    · subst hempty
      exact ⟨v, Word.mem_variants_cons_nonTerminal.mpr (.inr ⟨hE A (.of_mem hr hx), hv⟩), hu⟩
    · obtain ⟨v', hv', hx'⟩ := hx.exists_variant hE hmore
      have hne : v' ≠ [] := by
        rintro rfl
        exact hempty (yields_nil_iff.mp hx')
      exact ⟨.nonTerminal A :: v, Word.mem_variants_cons_nonTerminal.mpr (.inl ⟨v, hv, rfl⟩),
        .nonTerminal (hmore A _ v' hr hv' hne) hx' hu⟩

/-! ## The pass -/

namespace Grammar

variable {g : Grammar} {e : EmptySentence}

theorem mem_shortenings {ws : OrderedSet Word} {w : Word} :
    w ∈ shortenings erasable ws ↔ w ≠ [] ∧ ∃ v ∈ ws, w ∈ v.variants erasable := by
  simp [shortenings, and_comm]

/-- What becomes of the alternatives of one left-hand side. -/
theorem mem_kept {A : NonTerminal} {ws : OrderedSet Word} {w : Word} :
    w ∈ (if g.keepsEmpty e g.nullable A then (shortenings g.nullable ws).insert []
      else shortenings g.nullable ws) ↔
    (w ≠ [] ∧ ∃ v ∈ ws, w ∈ v.variants g.nullable) ∨
      (w = [] ∧ A = g.start ∧ e = .retain ∧ g.Derives A []) := by
  rw [← mem_nullable, ← mem_shortenings]
  split
  · rename_i h
    rw [keepsEmpty, decide_eq_true_iff] at h
    rw [OrderedSet.mem_insert]
    exact or_congr_right ⟨fun hw => ⟨hw, h⟩, And.left⟩
  · rename_i h
    rw [keepsEmpty, decide_eq_true_iff] at h
    exact ⟨Or.inl, fun hw => hw.elim id fun hw => absurd hw.2 h⟩

/-- The productions that are left. -/
theorem mem_rules_removeErasing {A : NonTerminal} {w : Word} :
    (A, w) ∈ (g.removeErasing e).rules ↔
      (w ≠ [] ∧ ∃ v, (A, v) ∈ g.rules ∧ w ∈ v.variants g.nullable) ∨
        (w = [] ∧ A = g.start ∧ e = .retain ∧ g.Derives A []) := by
  rw [removeErasing, rules_withProductions, Productions.mem_rules_filterMap]
  simp only [mem_kept]
  refine ⟨fun ⟨ws, he, h⟩ => ?_, fun h => ?_⟩
  · refine h.imp_left fun ⟨hw, v, hv, hvar⟩ => ⟨hw, v, ?_, hvar⟩
    exact Productions.mem_rules.mpr ⟨ws, he, hv⟩
  · rcases h with ⟨hw, v, hr, hv⟩ | h
    · obtain ⟨ws, he, hmem⟩ := Productions.mem_rules.mp hr
      exact ⟨ws, he, .inl ⟨hw, v, hmem, hv⟩⟩
    · obtain ⟨v, hr, -⟩ := derives_iff.mp h.2.2.2
      obtain ⟨ws, he, -⟩ := Productions.mem_rules.mp hr
      exact ⟨ws, he, .inr h⟩

/-- No symbol comes from elsewhere. -/
theorem mem_of_mem_rules_removeErasing {A : NonTerminal} {w : Word} {a : Symbol}
    (h : (A, w) ∈ (g.removeErasing e).rules) (ha : a ∈ w) : ∃ r ∈ g.rules, a ∈ r.2 := by
  rcases mem_rules_removeErasing.mp h with ⟨-, v, hr, hv⟩ | ⟨rfl, -⟩
  · exact ⟨_, hr, (Word.sublist_of_mem_variants hv).subset ha⟩
  · exact absurd ha List.not_mem_nil

/-- The start symbol alone may keep an empty production. -/
theorem nil_mem_rules_removeErasing {A : NonTerminal} :
    (A, []) ∈ (g.removeErasing e).rules ↔ A = g.start ∧ e = .retain ∧ g.Generates [] := by
  rw [mem_rules_removeErasing]
  refine ⟨fun h => ?_, fun h => ?_⟩
  · rcases h with ⟨hne, -⟩ | ⟨-, rfl, he, h⟩
    · exact absurd rfl hne
    · exact ⟨rfl, he, h⟩
  · obtain ⟨rfl, he, h⟩ := h
    exact .inr ⟨rfl, rfl, he, h⟩

/-- Nothing new is derived. -/
theorem yields_of_removeErasing {w : Word} {u : Sentence}
    (h : Yields (g.removeErasing e).rules w u) : Yields g.rules w u := by
  refine h.simulate fun A v u hr hv => ?_
  rcases mem_rules_removeErasing.mp hr with ⟨-, v', hr', hvar⟩ | ⟨rfl, -, -, hA⟩
  · exact .of_mem hr' (hv.of_mem_variants (fun B hB => mem_nullable.mp hB) hvar)
  · rw [yields_nil_iff.mp hv]
    exact hA

/-- A non-empty sentence is still derived, and without empty productions. -/
theorem yields_solid_removeErasing {A : NonTerminal} {u : Sentence} (hu : u ≠ [])
    (h : g.Derives A u) : Yields (solid (g.removeErasing e).rules) [.nonTerminal A] u := by
  obtain ⟨w, hr, hw⟩ := derives_iff.mp h
  have hmore : ∀ B w v, (B, w) ∈ g.rules → v ∈ w.variants g.nullable → v ≠ [] →
      (B, v) ∈ solid (g.removeErasing e).rules := fun B w v hr hv hne =>
    mem_solid.mpr ⟨mem_rules_removeErasing.mpr (.inl ⟨hne, w, hr, hv⟩), hne⟩
  obtain ⟨v, hv, hvu⟩ := hw.exists_variant (fun B hB => mem_nullable.mpr hB) hmore
  refine .of_mem (hmore A w v hr hv ?_) hvu
  rintro rfl
  exact hu (yields_nil_iff.mp hvu)

theorem derives_removeErasing_iff {A : NonTerminal} {u : Sentence} (hu : u ≠ []) :
    (g.removeErasing e).Derives A u ↔ g.Derives A u :=
  ⟨yields_of_removeErasing, fun h => (yields_solid_removeErasing hu h).of_solid⟩

theorem generates_removeErasing_nil :
    (g.removeErasing e).Generates [] ↔ e = .retain ∧ g.Generates [] := by
  refine ⟨fun h => ?_, fun ⟨he, h⟩ => ?_⟩
  · obtain ⟨B, hB⟩ := h.exists_empty (List.cons_ne_nil _ _) rfl
    exact (nil_mem_rules_removeErasing.mp hB).2
  · exact .of_mem (nil_mem_rules_removeErasing.mpr ⟨rfl, he, h⟩) .nil

/-- Every non-terminal derives the non-empty sentences that it derived. The empty one is
left to the start symbol, if it derived it and this is to be retained. -/
theorem derives_removeErasing (g : Grammar) (e : EmptySentence) :
    (∀ A u, u ≠ [] → ((g.removeErasing e).Derives A u ↔ g.Derives A u)) ∧
      ((g.removeErasing e).Generates [] ↔ e = .retain ∧ g.Generates []) :=
  ⟨fun _ _ hu => derives_removeErasing_iff hu, generates_removeErasing_nil⟩

/-- In the grammar of parentheses the start symbol occurs on the right, and its empty
production is used between the parentheses. -/
theorem derives_removeErasing_parentheses : ∃ g, Sample.parentheses.grammar = .ok g ∧
    (g.removeErasing .retain).Derives g.start ["(", ")"] ∧
      (g.removeErasing .retain).Generates [] ∧ ¬ (g.removeErasing .drop).Generates [] := by
  let opening : Terminal := ⟨"(", by decide⟩
  let closing : Terminal := ⟨")", by decide⟩
  obtain ⟨g, hbuild, hpair, hnil⟩ : ∃ g, Sample.parentheses.grammar = .ok g ∧
      (g.start, [.terminal opening, .nonTerminal g.start, .terminal closing,
        .nonTerminal g.start]) ∈ g.rules ∧ (g.start, []) ∈ g.rules :=
    ⟨_, rfl, by decide +kernel, by decide +kernel⟩
  have hempty : g.Generates [] := .of_mem hnil .nil
  have hnested : g.Derives g.start ["(", ")"] :=
    .of_mem hpair (.terminal (hempty.append (.terminal hempty)))
  obtain ⟨hsame, hretain⟩ := derives_removeErasing g .retain
  obtain ⟨-, hdrop⟩ := derives_removeErasing g .drop
  refine ⟨g, hbuild, (hsame _ _ (List.cons_ne_nil _ _)).mpr hnested, hretain.mpr ⟨rfl, hempty⟩, ?_⟩
  exact fun h => nomatch (hdrop.mp h).1

end Grammar

end ChomskyForm
