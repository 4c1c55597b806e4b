/-!
# Loops whose steps may fail

A loop over a list, each step of which looks things up and may fail, is a `List.foldlM` in
`Option`. It gets to its end if every step succeeds in the states that the loop can be in.

`exists_foldlM` is the rule for loops over states that only grow : an invariant holds after
the loop, and what each step has brought about is still there. `exists_foldlM_range` is the
rule for a loop that counts, where the invariant says how far the loop has come. A search
in which every test has an answer is a search without failures (`anyM_eq_some`), and a list
whose elements are all read has a list that reads as it (`mapM_eq_some_iff`).

A loop in `Except` that fails at an element, whatever the state, fails at the first such
element and is a loop without failures otherwise (`mapM_okUnless`, `foldlM_okUnless`). If such
loops are nested, that element is the first of them all (`findSome?_flatMap`).
-/

namespace ChomskyForm

variable {σ α β ε : Type}

theorem anyM_eq_some {f : α → Option Bool} {p : α → Bool} : ∀ {l : List α},
    (∀ a ∈ l, f a = some (p a)) → l.anyM f = some (l.any p)
  | [], _ => rfl
  | a :: l, h => by
    have ih := anyM_eq_some fun b hb => h b (List.mem_cons_of_mem a hb)
    rw [List.anyM, h a List.mem_cons_self, List.any_cons, ih]
    cases p a <;> rfl

/-- A list is turned into another element by element, if each element comes from one only. -/
theorem mapM_eq_some_iff {f : α → Option β} {g : β → α}
    (h : ∀ a b, f a = some b ↔ g b = a) : ∀ {l : List α} {m : List β},
      l.mapM f = some m ↔ m.map g = l
  | [], m => by simp [eq_comm]
  | a :: l, m => by
    rw [List.mapM_cons]
    simp only [Option.bind_eq_bind, Option.bind_eq_some_iff, Option.pure_def, Option.some.injEq,
      mapM_eq_some_iff h, h, List.map_eq_cons_iff]
    refine ⟨fun ⟨b, hb, k, hk, hm⟩ => ⟨b, k, hm.symm, hb, hk⟩, fun ⟨b, k, hm, hb, hk⟩ => ?_⟩
    exact ⟨b, hb, k, hk, hm.symm⟩

section Growing

variable {f : σ → α → Option σ} {P : σ → Prop} {R : σ → σ → Prop} {Q : α → σ → Prop}

/-- If each step succeeds, keeps the invariant `P`, lets the state grow along `R` and brings
about `Q`, then the loop succeeds, and in the end `Q` holds for all steps. -/
theorem exists_foldlM (hrefl : ∀ s, R s s) (htrans : ∀ s t u, R s t → R t u → R s u)
    (hkeep : ∀ a s t, R s t → Q a s → Q a t) : ∀ {l : List α} {s : σ},
      (∀ a ∈ l, ∀ s, P s → ∃ t, f s a = some t ∧ P t ∧ R s t ∧ Q a t) → P s →
        ∃ t, l.foldlM f s = some t ∧ P t ∧ R s t ∧ ∀ a ∈ l, Q a t
  | [], s, _, hs => ⟨s, rfl, hs, hrefl s, fun _ ha => absurd ha List.not_mem_nil⟩
  | a :: l, s, hstep, hs => by
    obtain ⟨t, hst, ht, hgrow, hdone⟩ := hstep a List.mem_cons_self s hs
    obtain ⟨u, htu, hu, hgrow', hall⟩ :=
      exists_foldlM hrefl htrans hkeep (fun b hb => hstep b (List.mem_cons_of_mem a hb)) ht
    refine ⟨u, ?_, hu, htrans s t u hgrow hgrow', fun b hb => ?_⟩
    · rw [List.foldlM_cons, hst]
      exact htu
    · rcases List.mem_cons.mp hb with rfl | hb
      · exact hkeep b t u hgrow' hdone
      · exact hall b hb

end Growing

/-- A loop that counts succeeds if the invariant leads from each number to the next. -/
theorem exists_foldlM_range {f : σ → Nat → Option σ} {P : Nat → σ → Prop} {s : σ}
    (hs : P 0 s) : ∀ n, (∀ k < n, ∀ s, P k s → ∃ t, f s k = some t ∧ P (k + 1) t) →
      ∃ t, (List.range n).foldlM f s = some t ∧ P n t
  | 0, _ => ⟨s, rfl, hs⟩
  | n + 1, hstep => by
    obtain ⟨t, hst, ht⟩ := exists_foldlM_range hs n fun k hk => hstep k (Nat.lt_succ_of_lt hk)
    obtain ⟨u, htu, hu⟩ := hstep n (Nat.lt_succ_self n) t ht
    refine ⟨u, ?_, hu⟩
    rw [List.range_succ, List.foldlM_append, hst]
    exact (bind_pure (f t n)).trans htu

/-! ## Failures that the state does not decide -/

/-- The value, unless there is a reason against it. -/
def okUnless (reason : Option ε) (x : α) : Except ε α :=
  match reason with
  | some e => .error e
  | none => .ok x

theorem mapM_okUnless {f : α → Except ε β} {q : α → Option ε} {g : α → β} :
    ∀ {l : List α}, (∀ a ∈ l, f a = okUnless (q a) (g a)) →
      l.mapM f = okUnless (l.findSome? q) (l.map g)
  | [], _ => rfl
  | a :: l, h => by
    rw [List.mapM_cons, h a List.mem_cons_self,
      mapM_okUnless fun b hb => h b (List.mem_cons_of_mem a hb), List.findSome?_cons]
    cases q a with
    | some e => rfl
    | none => cases l.findSome? q <;> rfl

theorem foldlM_okUnless {f : σ → α → Except ε σ} {q : α → Option ε} {g : σ → α → σ} :
    ∀ {l : List α} {s : σ}, (∀ a ∈ l, ∀ s, f s a = okUnless (q a) (g s a)) →
      l.foldlM f s = okUnless (l.findSome? q) (l.foldl g s)
  | [], _, _ => rfl
  | a :: l, s, h => by
    rw [List.foldlM_cons, h a List.mem_cons_self, List.findSome?_cons]
    cases q a with
    | some e => rfl
    | none => exact foldlM_okUnless fun b hb => h b (List.mem_cons_of_mem a hb)

/-- The first failure of nested loops. -/
theorem findSome?_flatMap {f : α → List β} {q : β → Option ε} : ∀ l : List α,
    (l.flatMap f).findSome? q = l.findSome? fun a => (f a).findSome? q
  | [] => rfl
  | a :: l => by
    rw [List.flatMap_cons, List.findSome?_append, List.findSome?_cons, findSome?_flatMap l]
    cases (f a).findSome? q <;> rfl

/-! ## Notes on the way -/

/-- A loop may note on the way whether something is met. -/
theorem foldl_noting {f : Bool × σ → α → Bool × σ} {p : α → Bool} {g : σ → α → σ}
    (h : ∀ b s a, f (b, s) a = (b || p a, g s a)) : ∀ {l : List α} {b : Bool} {s : σ},
      l.foldl f (b, s) = (b || l.any p, l.foldl g s)
  | [], b, s => by rw [List.any_nil, Bool.or_false]; rfl
  | a :: l, b, s => by
    rw [List.foldl_cons, h, foldl_noting h, Bool.or_assoc]
    rfl

end ChomskyForm
