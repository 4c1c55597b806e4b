import ChomskyForm.Draft
import ChomskyForm.Occurrences
import ChomskyForm.Proofs.NullableSearch

/-!
# The indexed search finds its justification on the way

A second visit to a production does nothing (`Worklist.visit_visit`), so that a step with the
index is a step without it (`Worklist.foldl_visit_listed`). At any time what was found was
taken from the stack or still waits there (`Worklist.Accounts`), so that in the end all of
it was taken (`Worklist.exists_drain`).

`Grammar.nullable_justified` : the search ends within as many steps as there are left-hand
sides, has taken each find from the stack once, and lists the nullable non-terminals in an
order in which each is shown to be nullable by those before it.
-/

namespace ChomskyForm

variable {rules : List Rule} {A : NonTerminal}

/-! ## The index -/

namespace Occurrences

theorem listed_insert (m : Occurrences) (B : NonTerminal) (l : List Rule) :
    listed (m.insert B l) A = if A = B then l else m.listed A := by
  rw [listed, OrderedMap.find?_insert]
  split <;> rfl

theorem listed_enter (r : Rule) : ∀ (w : Word) (m : Occurrences),
    (enter r w m).listed A = m.listed A ++ List.replicate (w.count (.nonTerminal A)) r
  | [], m => by rw [enter, List.count_nil, List.replicate_zero, List.append_nil]
  | .terminal t :: w, m => by
    rw [enter, listed_enter r w, List.count_cons_of_ne (by simp)]
  | .nonTerminal B :: w, m => by
    rw [enter, listed_enter r w, listed_insert]
    by_cases hAB : A = B
    · subst hAB
      rw [if_pos rfl, List.count_cons_self, List.replicate_succ, List.append_assoc]
      rfl
    · rw [if_neg hAB, List.count_cons_of_ne (by simpa using Ne.symm hAB)]

theorem listed_foldl_enter : ∀ (rules : List Rule) (m : Occurrences),
    listed (rules.foldl (fun m r => enter r r.2 m) m) A =
      m.listed A ++ rules.flatMap fun r => List.replicate (r.2.count (.nonTerminal A)) r
  | [], m => (List.append_nil _).symm
  | r :: rules, m => by
    rw [List.foldl_cons, listed_foldl_enter rules, listed_enter, List.flatMap_cons,
      List.append_assoc]

/-- A production is listed as often as the non-terminal occurs in it. -/
theorem listed_ofRules (rules : List Rule) (A : NonTerminal) : (ofRules rules).listed A =
    rules.flatMap fun r => List.replicate (r.2.count (.nonTerminal A)) r :=
  listed_foldl_enter rules .empty

end Occurrences

/-! ## Following up -/

namespace Worklist

theorem visit_of_knows {l : Worklist} {r : Rule} (h : l.knows r.1 = true) : l.visit r = l := by
  rw [visit, h]
  rfl

theorem visit_visit (l : Worklist) (r : Rule) : (l.visit r).visit r = l.visit r := by
  by_cases hv : (!l.knows r.1 && r.2.all l.erases) = true
  · exact visit_of_knows (knows_visit (Bool.and_eq_true_iff.mp hv).2)
  · have hsame : l.visit r = l := if_neg hv
    rw [hsame, hsame]

theorem foldl_visit_replicate (l : Worklist) (r : Rule) :
    ∀ n, (List.replicate (n + 1) r).foldl visit l = l.visit r
  | 0 => rfl
  | n + 1 => by
    rw [List.replicate_succ', List.foldl_append, foldl_visit_replicate l r n]
    exact visit_visit l r

/-- Repeated visits are as good as one. -/
theorem foldl_visit_flatMap_replicate : ∀ (rules : List Rule) (l : Worklist),
    (rules.flatMap fun r => List.replicate (r.2.count (.nonTerminal A)) r).foldl visit l =
      (rules.filter fun r => .nonTerminal A ∈ r.2).foldl visit l
  | [], _ => rfl
  | r :: rules, l => by
    rw [List.flatMap_cons, List.foldl_append, foldl_visit_flatMap_replicate rules]
    by_cases hA : .nonTerminal A ∈ r.2
    · obtain ⟨n, hn⟩ := Nat.exists_eq_succ_of_ne_zero (Nat.ne_of_gt (List.count_pos_iff.mpr hA))
      rw [hn, foldl_visit_replicate, List.filter_cons_of_pos (by simpa using hA), List.foldl_cons]
    · rw [List.count_eq_zero_of_not_mem hA, List.filter_cons_of_neg (by simpa using hA)]
      rfl

theorem foldl_visit_listed (rules : List Rule) (A : NonTerminal) (l : Worklist) :
    ((Occurrences.ofRules rules).listed A).foldl visit l =
      (rules.filter fun r => .nonTerminal A ∈ r.2).foldl visit l := by
  rw [Occurrences.listed_ofRules, foldl_visit_flatMap_replicate]

/-! ## Taking from the stack -/

/-- What was found was taken from the stack, or it waits there. -/
def Accounts (done : List NonTerminal) (l : Worklist) : Prop :=
  (done ++ l.stack).Perm (l.found.map Prod.fst)

variable {done : List NonTerminal}

theorem Accounts.visit {l : Worklist} (h : Accounts done l) (r : Rule) :
    Accounts done (l.visit r) := by
  unfold Worklist.visit
  split
  · show (done ++ r.1 :: l.stack).Perm ((l.found ++ [r]).map Prod.fst)
    rw [List.map_append]
    exact List.perm_middle.trans ((h.cons r.1).trans (List.perm_append_singleton r.1 _).symm)
  · exact h

theorem Accounts.foldl_visit : ∀ (rs : List Rule) {l : Worklist}, Accounts done l →
    Accounts done (rs.foldl Worklist.visit l)
  | [], _, h => h
  | r :: rs, _, h => foldl_visit rs (h.visit r)

theorem Accounts.take {found : List Rule} {stack : List NonTerminal}
    (h : Accounts done ⟨found, A :: stack⟩) : Accounts (done ++ [A]) ⟨found, stack⟩ := by
  rw [Accounts, List.append_assoc]
  exact h

theorem accounts_seed (rules : List Rule) : Accounts [] (seed rules) :=
  Accounts.foldl_visit _ (show Accounts [] blank from .refl [])

/-- If the stack runs empty, then the search with the index ends in the same state, and it
has taken from the stack what is found in the end. -/
theorem exists_drain (rules : List Rule) : ∀ (n : Nat) {l : Worklist} {done : List NonTerminal},
    (l.run rules n).stack = [] → Accounts done l →
      ∃ popped, drain (.ofRules rules) n l = some (popped, l.run rules n) ∧
        (done ++ popped).Perm ((l.run rules n).found.map Prod.fst)
  | n, ⟨found, []⟩, done, _, h => by
    rw [run_of_stack_nil n rfl]
    exact ⟨[], by cases n <;> rfl, h⟩
  | 0, ⟨_, _ :: _⟩, _, hempty, _ => nomatch hempty
  | n + 1, ⟨found, A :: stack⟩, done, hempty, h => by
    have hpop : pop rules ⟨found, A :: stack⟩ =
        ((Occurrences.ofRules rules).listed A).foldl Worklist.visit ⟨found, stack⟩ :=
      (foldl_visit_listed rules A _).symm
    have hnext : Accounts (done ++ [A]) (pop rules ⟨found, A :: stack⟩) :=
      hpop ▸ h.take.foldl_visit _
    obtain ⟨popped, hdrain, hall⟩ := exists_drain rules n hempty hnext
    refine ⟨A :: popped, ?_, ?_⟩
    · rw [drain, ← hpop, hdrain]
      rfl
    · rwa [List.append_assoc] at hall

end Worklist

/-! ## The order of discovery -/

/-- The production of a find has nothing on its right-hand side but earlier finds. -/
theorem Justified.exists_earlier : ∀ {found : List Rule}, Justified rules found →
    ∀ {earlier later : List NonTerminal}, found.map Prod.fst = earlier ++ A :: later →
      ∃ w, (A, w) ∈ rules ∧ ∀ s ∈ w, ∃ B ∈ earlier, s = .nonTerminal B
  | _, .nil, _, _, hsplit => by simp at hsplit
  | _, .snoc (r := r) h hr _ hsym, earlier, later, hsplit => by
    rw [List.map_append, List.map_singleton] at hsplit
    rcases later.eq_nil_or_concat with rfl | ⟨later, B, rfl⟩
    · obtain ⟨rfl, hA⟩ := List.append_inj' hsplit rfl
      obtain rfl : r.1 = A := List.singleton_inj.mp hA
      exact ⟨r.2, hr, hsym⟩
    · rw [List.concat_eq_append, ← List.cons_append, ← List.append_assoc] at hsplit
      exact h.exists_earlier (List.append_inj' hsplit rfl).1

namespace Grammar

/-- The search has an answer, and it has taken each find from the stack once. The finds are
the non-terminals that derive the empty sentence. Each has an empty production, or else a
production that holds only earlier finds. -/
theorem nullable_justified (g : Grammar) :
    (∃ popped, g.searchNullable = some (popped, g.nullable) ∧ popped.Perm g.nullable) ∧
      g.nullable.Nodup ∧ (∀ A, A ∈ g.nullable ↔ g.Derives A []) ∧
      ∀ earlier A later, g.nullable = earlier ++ A :: later →
        (A, []) ∈ g.rules ∨ ∃ w, w ≠ [] ∧ (A, w) ∈ g.rules ∧
          ∀ s ∈ w, ∃ B ∈ earlier, s = .nonTerminal B := by
  refine ⟨?_, justified_erasureProofs.nodup, fun _ => mem_nullable, fun earlier A later h => ?_⟩
  · have hstack := Worklist.stack_run fun (r : Rule) (hr : r ∈ g.rules) => fst_mem_keys hr
    rw [OrderedMap.length_keys] at hstack
    obtain ⟨popped, hdrain, hall⟩ :=
      Worklist.exists_drain g.rules g.productions.size hstack (Worklist.accounts_seed g.rules)
    refine ⟨popped, ?_, hall⟩
    unfold searchNullable
    rw [hdrain]
    rfl
  · obtain ⟨w, hr, hw⟩ := justified_erasureProofs.exists_earlier h
    by_cases hnil : w = []
    · exact .inl (hnil ▸ hr)
    · exact .inr ⟨w, hnil, hr, hw⟩

/-- The youngest find is followed up first. The last is `A`, and the production in which it
occurs is then visited twice. -/
example : ∃ g, (Draft.ofDeclarations "S" [.erasing "A", .erasing "B",
      .production "S" ["A", "B", "A"]]).build = .ok g ∧
    (g.searchNullable.map fun s => (s.1.map Name.text, s.2.map Name.text)) =
      some (["B", "S", "A"], ["A", "B", "S"]) :=
  ⟨_, rfl, by decide +kernel⟩

end Grammar

end ChomskyForm
