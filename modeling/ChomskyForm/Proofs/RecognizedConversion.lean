import ChomskyForm.Proofs.SquareTabulation

/-!
# Conversion keeps the answers

The scan of a grammar and the square table of a normal form look things up that need not be
there, and the scan goes round until nothing changes. Both always come to an answer, which is that
of the recognisers of whole rounds and of rows (`Grammar.scan_eq_recognizes`,
`NormalForm.tabulate_eq_recognizes`). What conversion keeps is known of those
(`Grammar.recognizes_binarized_eq`).

`Grammar.normalize_recognizes` : conversion succeeds, and the table of the result has the answer
of the scan for every sentence, but for the empty one if it was dropped.
-/

namespace ChomskyForm

namespace Grammar

variable {d : Draft String} {g : Grammar} {e : EmptySentence} {u : Sentence}

/-- The scan and the table come to the same answer on a sentence that is not dropped. -/
theorem exists_common_answer (hg : g.WellFormed) (hu : u = [] → e = .retain) : ∃ answer,
    g.scan u = some answer ∧
      (NormalForm.typed (g.binarized e).grammar).tabulate u = some answer := by
  refine ⟨g.recognizes u, g.scan_eq_recognizes u, ?_⟩
  rw [NormalForm.tabulate_eq_recognizes, recognizes_binarized_eq hg hu]

/-- Conversion of a grammar that was built succeeds, and the table of its result comes to the
answer of a scan of the grammar, whatever the sentence. If the empty sentence is dropped, this
holds of the others, and the empty sentence is rejected. -/
theorem normalize_recognizes (h : d.build = .ok g) :
    (∃ n, g.normalize .retain = .ok n ∧
      ∀ u, ∃ answer, g.scan u = some answer ∧ n.result.tabulate u = some answer) ∧
    ∃ n, g.normalize .drop = .ok n ∧
      (∀ u, u ≠ [] → ∃ answer, g.scan u = some answer ∧ n.result.tabulate u = some answer) ∧
      n.result.tabulate [] = some false := by
  have hg := Draft.wellFormed_of_build h
  refine ⟨?_, ?_⟩
  · obtain ⟨n, hn, -, hresult⟩ := g.exists_normalize .retain
    refine ⟨n, hn, fun u => ?_⟩
    rw [hresult]
    exact exists_common_answer hg fun _ => rfl
  · obtain ⟨n, hn, -, hresult⟩ := g.exists_normalize .drop
    refine ⟨n, hn, fun u hu => ?_, ?_⟩
    · rw [hresult]
      exact exists_common_answer hg fun hnil => absurd hnil hu
    · rw [hresult, NormalForm.tabulate_eq_recognizes, recognizes_binarized_drop_nil hg]

/-- The empty production of the grammar of parentheses is recursive. Without it `( )` is
still recognised. -/
theorem normalize_recognizes_parentheses : ∃ g, Sample.parentheses.grammar = .ok g ∧
    (∃ n, g.normalize .retain = .ok n ∧
      ∀ u, ∃ answer, g.scan u = some answer ∧ n.result.tabulate u = some answer) ∧
    ∃ n, g.normalize .drop = .ok n ∧ n.result.tabulate ["(", ")"] = some true ∧
      n.result.tabulate [] = some false := by
  refine ⟨_, rfl, ?_⟩
  obtain ⟨hretain, n, hn, hne, hnil⟩ :=
    normalize_recognizes (d := Draft.ofDeclarations "S" Sample.parentheses.declarations) rfl
  obtain ⟨answer, hscan, htable⟩ := hne ["(", ")"] (List.cons_ne_nil _ _)
  refine ⟨hretain, n, hn, ?_, hnil⟩
  rw [htable, ← hscan]
  decide +kernel

end Grammar

end ChomskyForm
