import ChomskyForm.Nullable
import ChomskyForm.Proofs.Simulation

/-!
# The search for nullable non-terminals

What `Grammar.nullable` finds are exactly the non-terminals that derive the empty
sentence (`Grammar.mem_nullable`).

A search only finds what it can show : each production it keeps has on its right-hand
side nothing but non-terminals found before (`Justified`). It misses nothing because of
what the stack holds : a production whose symbols are all found either has its left-hand
side found, or one of its symbols still waits on the stack (`Worklist.Covers`). Each pop
takes one from the stack and each find adds one to both lists, so that as many pops as
there are left-hand sides empty the stack (`Worklist.stack_run`).
-/

namespace ChomskyForm

variable {rules : List Rule}

/-! ## What is found is nullable -/

/-- Each production is the first for its left-hand side, and its right-hand side holds
only left-hand sides of productions before it. -/
inductive Justified (rules : List Rule) : List Rule → Prop
  | nil : Justified rules []
  | snoc {found : List Rule} {r : Rule} : Justified rules found → r ∈ rules →
      r.1 ∉ found.map Prod.fst →
      (∀ s ∈ r.2, ∃ A ∈ found.map Prod.fst, s = .nonTerminal A) → Justified rules (found ++ [r])

namespace Justified

theorem mem {found : List Rule} : Justified rules found → ∀ r ∈ found, r ∈ rules
  | .nil => by simp
  | .snoc h hr _ _ => fun q hq => by
    rcases List.mem_append.mp hq with hq | hq
    · exact h.mem q hq
    · exact List.mem_singleton.mp hq ▸ hr

theorem nodup {found : List Rule} : Justified rules found → (found.map Prod.fst).Nodup
  | .nil => List.nodup_nil
  | .snoc h _ hnew _ => by
    rw [List.map_append, List.nodup_append]
    refine ⟨h.nodup, by simp, fun A hA B hB hAB => hnew ?_⟩
    rw [List.map_singleton, List.mem_singleton] at hB
    exact hB ▸ hAB ▸ hA

theorem yields_empty {found : List Rule} : Justified rules found →
    ∀ A ∈ found.map Prod.fst, Yields rules [.nonTerminal A] []
  | .nil => by simp
  | .snoc (r := r) h hr _ hsym => fun A hA => by
    rw [List.map_append, List.map_singleton, List.mem_append, List.mem_singleton] at hA
    rcases hA with hA | rfl
    · exact h.yields_empty A hA
    · refine .of_mem hr (yields_empty_iff.mpr fun s hs => ?_)
      obtain ⟨B, hB, rfl⟩ := hsym s hs
      exact ⟨B, rfl, h.yields_empty B hB⟩

end Justified

namespace Worklist

theorem knows_iff {l : Worklist} {A : NonTerminal} :
    l.knows A = true ↔ A ∈ l.found.map Prod.fst := by
  simp [knows]

theorem erases_iff {l : Worklist} {s : Symbol} :
    l.erases s = true ↔ ∃ A, s = .nonTerminal A ∧ l.knows A = true := by
  cases s <;> simp [erases]

theorem justified_visit {l : Worklist} (h : Justified rules l.found) {r : Rule}
    (hr : r ∈ rules) : Justified rules (l.visit r).found := by
  unfold visit
  split
  · rename_i hv
    rw [Bool.and_eq_true, Bool.not_eq_true', List.all_eq_true] at hv
    refine .snoc h hr (fun hmem => ?_) fun s hs => ?_
    · rw [knows_iff.mpr hmem] at hv
      exact Bool.noConfusion hv.1
    · obtain ⟨A, rfl, hA⟩ := erases_iff.mp (hv.2 s hs)
      exact ⟨A, knows_iff.mp hA, rfl⟩
  · exact h

theorem justified_foldl_visit : ∀ (rs : List Rule) {l : Worklist}, Justified rules l.found →
    (∀ r ∈ rs, r ∈ rules) → Justified rules (rs.foldl visit l).found
  | [], _, h, _ => h
  | r :: rs, _, h, hrs =>
    justified_foldl_visit rs (justified_visit h (hrs r List.mem_cons_self))
      fun q hq => hrs q (List.mem_cons_of_mem _ hq)

theorem justified_pop {l : Worklist} (h : Justified rules l.found) :
    Justified rules (l.pop rules).found := by
  unfold pop
  split
  · exact h
  · exact justified_foldl_visit _ h fun r hr => (List.mem_filter.mp hr).1

theorem justified_run : ∀ (n : Nat) {l : Worklist}, Justified rules l.found →
    Justified rules (l.run rules n).found
  | 0, _, h => h
  | n + 1, _, h => justified_run n (justified_pop h)

theorem justified_seed (rules : List Rule) : Justified rules (seed rules).found :=
  justified_foldl_visit (l := blank) _ .nil fun _ hr => (List.mem_filter.mp hr).1

/-! ## What visits add -/

/-- What is found goes to the end of one list and to the top of the other. -/
theorem exists_visit (l : Worklist) (r : Rule) :
    ∃ new : List Rule, (l.visit r).found = l.found ++ new ∧
      (l.visit r).stack = (new.map Prod.fst).reverse ++ l.stack := by
  unfold visit
  split
  · exact ⟨[r], rfl, rfl⟩
  · exact ⟨[], by simp, rfl⟩

theorem exists_foldl_visit : ∀ (rs : List Rule) (l : Worklist),
    ∃ new : List Rule, (rs.foldl visit l).found = l.found ++ new ∧
      (rs.foldl visit l).stack = (new.map Prod.fst).reverse ++ l.stack
  | [], _ => ⟨[], by simp, rfl⟩
  | r :: rs, l => by
    obtain ⟨new, hf, hs⟩ := exists_visit l r
    obtain ⟨more, hf', hs'⟩ := exists_foldl_visit rs (l.visit r)
    refine ⟨new ++ more, ?_, ?_⟩
    · rw [List.foldl_cons, hf', hf, List.append_assoc]
    · rw [List.foldl_cons, hs', hs, List.map_append, List.reverse_append, List.append_assoc]

/-- Whatever is known stays known. -/
theorem knows_foldl_visit {l : Worklist} {A : NonTerminal} (rs : List Rule)
    (h : l.knows A = true) : (rs.foldl visit l).knows A = true := by
  obtain ⟨new, hf, -⟩ := exists_foldl_visit rs l
  rw [knows_iff, hf, List.map_append]
  exact List.mem_append_left _ (knows_iff.mp h)

/-- A find waits on the stack. -/
theorem mem_stack_foldl_visit {l : Worklist} {A : NonTerminal} (rs : List Rule)
    (h : (rs.foldl visit l).knows A = true) :
    l.knows A = true ∨ A ∈ (rs.foldl visit l).stack := by
  obtain ⟨new, hf, hs⟩ := exists_foldl_visit rs l
  rw [knows_iff, hf, List.map_append, List.mem_append] at h
  rw [hs, knows_iff]
  exact h.imp_right fun hA => List.mem_append_left _ (List.mem_reverse.mpr hA)

theorem knows_visit {l : Worklist} {r : Rule} (h : r.2.all l.erases = true) :
    (l.visit r).knows r.1 = true := by
  unfold visit
  split
  · simp [knows]
  · simp_all

theorem erases_mono {l l' : Worklist} (h : ∀ A, l.knows A = true → l'.knows A = true)
    {w : Word} (hw : w.all l.erases = true) : w.all l'.erases = true := by
  rw [List.all_eq_true] at hw ⊢
  intro s hs
  obtain ⟨A, rfl, hA⟩ := erases_iff.mp (hw s hs)
  exact erases_iff.mpr ⟨A, rfl, h A hA⟩

/-- A visit to a production with nothing but known symbols shows its left-hand side. -/
theorem knows_of_visited : ∀ (rs : List Rule) {l : Worklist} {r : Rule}, r ∈ rs →
    r.2.all l.erases = true → (rs.foldl visit l).knows r.1 = true
  | q :: rs, l, r, hr, h => by
    rcases List.mem_cons.mp hr with rfl | hr
    · exact knows_foldl_visit rs (knows_visit h)
    · refine knows_of_visited rs hr (erases_mono (fun A hA => ?_) h)
      exact knows_foldl_visit [q] hA

/-! ## The stack covers what is missing -/

/-- A production whose symbols are all found has its left-hand side found, or one of the
symbols waits on the stack. -/
def Covers (rules : List Rule) (l : Worklist) : Prop :=
  ∀ r ∈ rules, r.2.all l.erases = true → l.knows r.1 = true ∨ ∃ A ∈ l.stack, .nonTerminal A ∈ r.2

theorem covers_seed (rules : List Rule) : Covers rules (seed rules) := by
  intro r hr hall
  unfold seed at hall ⊢
  cases hw : r.2 with
  | nil =>
    refine .inl (knows_of_visited _ (List.mem_filter.mpr ⟨hr, by simp [hw]⟩) ?_)
    simp [hw]
  | cons s w =>
    rw [hw, List.all_cons, Bool.and_eq_true] at hall
    obtain ⟨A, rfl, hA⟩ := erases_iff.mp hall.1
    rcases mem_stack_foldl_visit _ hA with hA | hA
    · simp [knows, blank] at hA
    · exact .inr ⟨A, hA, List.mem_cons_self⟩

/-- After `A` is followed up, a production waits only for symbols that are on the stack. -/
theorem covers_pop {l : Worklist} (h : Covers rules l) : Covers rules (l.pop rules) := by
  intro r hr hall
  unfold pop at hall ⊢
  split at hall
  · exact h r hr hall
  · rename_i A stack hstack
    generalize hvisits : rules.filter (fun r => .nonTerminal A ∈ r.2) = visits at hall ⊢
    by_cases hwait : ∃ B ∈ (visits.foldl visit ⟨l.found, stack⟩).stack, .nonTerminal B ∈ r.2
    · exact .inr hwait
    · refine .inl ?_
      -- no symbol of the right-hand side is a find of these visits
      have hold : r.2.all l.erases = true := by
        rw [List.all_eq_true] at hall ⊢
        intro s hs
        obtain ⟨B, rfl, hB⟩ := erases_iff.mp (hall s hs)
        rcases mem_stack_foldl_visit _ hB with hB | hB
        · exact erases_iff.mpr ⟨B, rfl, hB⟩
        · exact absurd ⟨B, hB, hs⟩ hwait
      rcases h r hr hold with hknown | ⟨B, hB, hs⟩
      · exact knows_foldl_visit _ hknown
      · rw [hstack] at hB
        rcases List.mem_cons.mp hB with rfl | hB
        · refine knows_of_visited _ ?_ hold
          rw [← hvisits]
          exact List.mem_filter.mpr ⟨hr, by simpa using hs⟩
        · obtain ⟨new, -, hs'⟩ := exists_foldl_visit visits ⟨l.found, stack⟩
          exact absurd ⟨B, hs' ▸ List.mem_append_right _ hB, hs⟩ hwait

theorem covers_run : ∀ (n : Nat) {l : Worklist}, Covers rules l → Covers rules (l.run rules n)
  | 0, _, h => h
  | n + 1, _, h => covers_run n (covers_pop h)

/-! ## The stack runs empty -/

theorem length_found_seed (rules : List Rule) :
    (seed rules).found.length = (seed rules).stack.length := by
  obtain ⟨new, hf, hs⟩ := exists_foldl_visit (rules.filter fun r => r.2.isEmpty) blank
  unfold seed
  rw [hf, hs]
  simp [blank]

/-- Each pop makes the list of finds longer than the stack by one more. -/
theorem length_found_pop (rules : List Rule) {l : Worklist} {k : Nat}
    (h : l.found.length = l.stack.length + k) :
    (l.pop rules).stack = [] ∨
      (l.pop rules).found.length = (l.pop rules).stack.length + (k + 1) := by
  unfold pop
  split
  · rename_i hs
    exact .inl hs
  · rename_i A stack hs
    right
    obtain ⟨new, hf', hs'⟩ :=
      exists_foldl_visit (rules.filter fun r => .nonTerminal A ∈ r.2) ⟨l.found, stack⟩
    rw [hf', hs']
    simp only [hs, List.length_cons] at h
    simp only [List.length_append, List.length_reverse, List.length_map]
    omega

theorem run_of_stack_nil : ∀ (n : Nat) {l : Worklist}, l.stack = [] → l.run rules n = l
  | 0, _, _ => rfl
  | n + 1, l, h => by
    have hpop : l.pop rules = l := by simp [pop, h]
    rw [run, hpop, run_of_stack_nil n h]

theorem length_found_run (rules : List Rule) : ∀ (n : Nat) {l : Worklist} {k : Nat},
    l.found.length = l.stack.length + k → (l.run rules n).stack = [] ∨
      (l.run rules n).found.length = (l.run rules n).stack.length + (k + n)
  | 0, _, _, h => .inr h
  | n + 1, l, k, h => by
    rw [run]
    rcases length_found_pop rules h with hs | hl
    · rw [run_of_stack_nil n hs]
      exact .inl hs
    · have hcount : k + (n + 1) = k + 1 + n := by omega
      rw [hcount]
      exact length_found_run rules n hl

/-- As many pops as there are left-hand sides empty the stack. -/
theorem stack_run {heads : List NonTerminal} (hheads : ∀ r ∈ rules, r.1 ∈ heads) :
    ((seed rules).run rules heads.length).stack = [] := by
  rcases length_found_run rules (k := 0) heads.length (length_found_seed rules) with hs | hl
  · exact hs
  · have hj := justified_run heads.length (justified_seed rules)
    have hle := hj.nodup.length_le_of_subset fun A hA => by
      obtain ⟨r, hr, rfl⟩ := List.mem_map.mp hA
      exact hheads r (hj.mem r hr)
    rw [List.length_map] at hle
    exact List.eq_nil_of_length_eq_zero (by omega)

/-- With nothing on the stack, every nullable word has only symbols that were found. -/
theorem erases_of_yields {l : Worklist} (hc : Covers rules l) (hs : l.stack = []) :
    ∀ {w : Word} {u : Sentence}, Yields rules w u → u = [] → w.all l.erases = true
  | _, _, .nil, _ => rfl
  | _, _, .nonTerminal (A := A) (v := v) hr hv hw, hu => by
    obtain ⟨hx, hy⟩ := List.append_eq_nil_iff.mp hu
    rw [List.all_cons, erases_of_yields hc hs hw hy, Bool.and_true]
    rcases hc _ hr (erases_of_yields hc hs hv hx) with hA | ⟨B, hB, -⟩
    · exact hA
    · rw [hs] at hB
      exact absurd hB List.not_mem_nil

end Worklist

namespace Grammar

variable {g : Grammar}

theorem justified_erasureProofs : Justified g.rules g.erasureProofs :=
  Worklist.justified_run _ (Worklist.justified_seed _)

/-- The search finds exactly the non-terminals that derive the empty sentence. -/
theorem mem_nullable {A : NonTerminal} : A ∈ g.nullable ↔ g.Derives A [] := by
  refine ⟨fun h => justified_erasureProofs.yields_empty A h, fun h => ?_⟩
  have hstack := Worklist.stack_run fun (r : Rule) (hr : r ∈ g.rules) => fst_mem_keys hr
  have hall := Worklist.erases_of_yields
    (Worklist.covers_run _ (Worklist.covers_seed _)) hstack h rfl
  rw [List.all_cons, List.all_nil, Bool.and_true] at hall
  obtain ⟨B, hB, hknown⟩ := Worklist.erases_iff.mp hall
  cases hB
  rw [Worklist.knows_iff, OrderedMap.length_keys] at hknown
  exact hknown

end Grammar

end ChomskyForm
