import ChomskyForm.Gathering
import ChomskyForm.Outline
import ChomskyForm.Proofs.BuiltGrammars
import ChomskyForm.Proofs.DraftObjections

/-!
# A grammar assembled from sets of texts

What an outline collects in sets is what a draft collects in lists (`Draft.outline`), one
declaration after the other (`Draft.outline_declare`). The alternatives of a left-hand side are
gathered under it (`Draft.outline_produce`).

A draft without empty texts is a draft of names (`Draft.exists_map_text_iff`). Each part of the
assembly is then what the draft of names has in its place, unless the part of the checks that
belongs to it finds a fault (`okUnless`). `Outline.assemble_ofDeclarations` : the outline ends
as the draft does, and no name is ever refused.
-/

namespace ChomskyForm

namespace Draft

/-! ## Collecting in sets -/

/-- What was declared, collected in sets. -/
def outline (d : Draft String) : Outline :=
  { start := d.start
    nonTerminals := .ofList d.nonTerminals
    terminals := .ofList d.terminals
    productions :=
      .ofKeys (OrderedSet.ofList d.heads).toList (OrderedSet.ofList d.heads).nodup d.given
    stem := d.stem }

theorem entries_outline (d : Draft String) : d.outline.productions.entries =
    (OrderedSet.ofList d.heads).toList.map fun A => (A, d.given A) := rfl

theorem keys_outline (d : Draft String) :
    d.outline.productions.keys = (OrderedSet.ofList d.heads).toList :=
  OrderedMap.keys_gathered d.productions

theorem outline_produce (d : Draft String) (lhs : String) (rhs : List String) :
    ({ d with productions := d.productions ++ [(lhs, rhs)] } : Draft String).outline =
      d.outline.produce lhs rhs := by
  have hproductions : OrderedMap.gathered (d.productions ++ [(lhs, rhs)]) =
      d.outline.productions.insert lhs ((d.outline.productions.find? lhs).getD [] ++ [rhs]) :=
    OrderedMap.gathered_concat d.productions lhs rhs
  rw [Outline.produce, ← hproductions]
  rfl

theorem outline_declare (d : Draft String) (c : Declaration) :
    (d.declare c).outline = d.outline.declare c := by
  cases c with
  | nonTerminals names =>
    have h := OrderedSet.insertAll_append .empty d.nonTerminals names
    simp only [declare, outline, Outline.declare, OrderedSet.ofList, h]
    rfl
  | terminals names =>
    have h := OrderedSet.insertAll_append .empty d.terminals names
    simp only [declare, outline, Outline.declare, OrderedSet.ofList, h]
    rfl
  | production lhs rhs => exact outline_produce d lhs rhs
  | erasing lhs => exact outline_produce d lhs [Word.emptyMark]
  | stem text => rfl

theorem outline_ofDeclarations (start : String) (l : List Declaration) :
    (ofDeclarations start l).outline = Outline.ofDeclarations start l := by
  have hfold : ∀ (l : List Declaration) (d : Draft String),
      (l.foldl declare d).outline = l.foldl Outline.declare d.outline := by
    intro l
    induction l with
    | nil => exact fun _ => rfl
    | cons c l ih =>
      intro d
      rw [List.foldl_cons, List.foldl_cons, ih, outline_declare]
  exact hfold l (blank start)

end Draft

namespace Outline

open Draft (map)

theorem name_text (a : Name) : name a.text = .ok a := by
  rw [name, Name.ofString, Name.ofString?_eq_some_iff.mpr rfl]
  rfl

theorem mapM_name : ∀ l : List Name, (l.map Name.text).mapM name = .ok l
  | [] => rfl
  | a :: l => by
    rw [List.map_cons, List.mapM_cons, name_text, mapM_name l]
    rfl

/-! ## Empty texts -/

theorem variableSet_outline (d : Draft String) :
    d.outline.variableSet = .ofList d.variableList := by
  rw [variableSet, Draft.keys_outline, OrderedSet.insertAll_toList_ofList]
  exact (OrderedSet.insertAll_append _ _ _).symm

theorem hasEmptyText_iff (d : Draft String) :
    d.outline.hasEmptyText = true ↔ "" ∈ d.mentioned := by
  have hgiven : ∀ s, s ∈ d.outline.productions.entries.flatMap (fun e => e.2.flatten) ↔
      ∃ p ∈ d.productions, s ∈ p.2 := fun s => by
    simp only [Draft.entries_outline, List.flatMap_map, List.mem_flatMap, OrderedSet.mem_toList,
      OrderedSet.mem_ofList, List.mem_flatten, Draft.given, List.mem_map, List.mem_filter,
      decide_eq_true_iff, Draft.heads]
    constructor
    · rintro ⟨A, -, rhs, ⟨p, ⟨hp, -⟩, rfl⟩, hs⟩
      exact ⟨p, hp, hs⟩
    · rintro ⟨p, hp, hs⟩
      exact ⟨p.1, ⟨p, hp, rfl⟩, p.2, ⟨p, ⟨hp, rfl⟩, rfl⟩, hs⟩
  have hany : ∀ l : List String, l.any String.isEmpty = true ↔ "" ∈ l := fun l => by
    simp
  rw [hasEmptyText, Bool.or_eq_true, Bool.or_eq_true, Bool.or_eq_true, hany, hany, hgiven,
    declared, variableSet_outline, Draft.mem_mentioned]
  simp [Draft.outline, eq_comm (a := ""), or_assoc]

/-! ## Drafts of names -/

section Named

variable (d : Draft Name)

theorem toList_variableSet_outline :
    (d.map Name.text).outline.variableSet.toList = d.variableSet.toList.map Name.text := by
  rw [variableSet_outline, Draft.variableList_map, OrderedSet.toList_ofList_map fun _ _ => Name.ext]
  rfl

theorem toList_terminals_outline :
    (d.map Name.text).outline.terminals.toList = d.letterSet.toList.map Name.text :=
  OrderedSet.toList_ofList_map (fun _ _ => Name.ext) d.terminals

theorem mem_variableSet_outline {a : Name} :
    a.text ∈ (d.map Name.text).outline.variableSet ↔ a ∈ d.variableSet := by
  rw [← OrderedSet.mem_toList, toList_variableSet_outline, Draft.mem_map_text,
    OrderedSet.mem_toList]

theorem mem_terminals_outline {a : Name} :
    a.text ∈ (d.map Name.text).outline.terminals ↔ a ∈ d.letterSet := by
  rw [← OrderedSet.mem_toList, toList_terminals_outline, Draft.mem_map_text,
    OrderedSet.mem_toList]

theorem keys_outline_map :
    (d.map Name.text).outline.productions.keys = d.headSet.toList.map Name.text := by
  rw [Draft.keys_outline, Draft.heads_map, OrderedSet.toList_ofList_map fun _ _ => Name.ext]
  rfl

theorem name_start_outline : name (d.map Name.text).outline.start = .ok d.start :=
  name_text d.start

theorem name_stem_outline : name (d.map Name.text).outline.stem = .ok d.stem :=
  name_text d.stem

/-- What is wrong with a draft before its alternatives are read. -/
def earlyFault? : Option Fault :=
  (d.overlap?.map .alphabetOverlap) <|>
  (d.reserved?.map (.reservedName · d.stem)) <|>
  (if d.productions = [] then some (.noProductions d.start) else none) <|>
  (if d.start ∈ d.variableSet then none else some (.unknownStart d.start))

theorem fault?_eq_or : d.fault? = (earlyFault? d <|>
    (d.undefined?.map fun p => .undefinedSymbol p.1 p.2) <|>
    (if d.start ∈ d.headSet then none else some (.noProductions d.start))) := by
  simp only [Draft.fault?, earlyFault?, Option.orElse_eq_orElse, Option.orElse_eq_or,
    Option.or_assoc]

/-- The checks before that find among texts what they find among names. -/
theorem precheck_outline : (d.map Name.text).outline.precheck =
    okUnless ((earlyFault? d).map .fault) () := by
  have hempty : (d.map Name.text).outline.hasEmptyText = false := by
    rw [← Bool.not_eq_true, hasEmptyText_iff]
    exact Draft.exists_map_text_iff.mp ⟨d, rfl⟩
  have hoverlap : ((d.map Name.text).outline.terminals.toList.find? fun a =>
      a ∈ (d.map Name.text).outline.variableSet) = d.overlap?.map Name.text := by
    rw [toList_terminals_outline, List.find?_map]
    simp only [Function.comp_def, mem_variableSet_outline]
    rfl
  have hreserved : (d.map Name.text).outline.declared.find?
      (hasNumberedShape (d.map Name.text).outline.stem) = d.reserved?.map Name.text := by
    rw [declared, toList_variableSet_outline, toList_terminals_outline, ← List.map_append,
      List.find?_map]
    rfl
  have hproductions : (d.map Name.text).outline.productions.entries.isEmpty = true ↔
      d.productions = [] := by
    rw [List.isEmpty_iff, ← List.map_eq_nil_iff (f := Prod.fst), ← OrderedMap.keys,
      keys_outline_map, List.map_eq_nil_iff, Draft.headSet, List.eq_nil_iff_forall_not_mem]
    simp only [OrderedSet.mem_toList, OrderedSet.mem_ofList, ← List.eq_nil_iff_forall_not_mem,
      List.map_eq_nil_iff]
  have hstart : (d.map Name.text).outline.start ∈ (d.map Name.text).outline.variableSet ↔
      d.start ∈ d.variableSet := mem_variableSet_outline d
  rw [precheck, hempty, hoverlap, hreserved, name_start_outline, name_stem_outline,
    earlyFault?]
  simp only [hproductions, hstart]
  cases d.overlap? with
  | some a =>
    simp only [Option.map_some, name_text]
    rfl
  | none =>
    cases d.reserved? with
    | some a =>
      simp only [Option.map_some, name_text]
      rfl
    | none =>
      by_cases hnil : d.productions = []
      · simp only [hnil]
        rfl
      · by_cases hvar : d.start ∈ d.variableSet
        · simp only [hnil, hvar, not_true_eq_false]
          rfl
        · simp only [hnil, hvar, not_false_eq_true]
          rfl

/-! ## Productions -/

/-- The report of the first undefined name among names in alternatives of `A`. -/
def undefinedIn (A : Name) (v : List Name) : Option Halt :=
  (v.find? fun a => a ∉ d.variableSet ∧ a ∉ d.letterSet).map fun a =>
    .fault (.undefinedSymbol a A)

theorem symbol_outline (A a : Name) : (d.map Name.text).outline.symbol A.text a.text =
    okUnless ((Option.guard (fun a => a ∉ d.variableSet ∧ a ∉ d.letterSet) a).map fun a =>
      .fault (.undefinedSymbol a A)) (Draft.classify d.variableSet a) := by
  unfold symbol Draft.classify Option.guard
  simp only [mem_variableSet_outline, mem_terminals_outline, name_text]
  by_cases hvar : a ∈ d.variableSet
  · simp only [hvar, not_true_eq_false, false_and, decide_false]
    rfl
  · by_cases hlet : a ∈ d.letterSet
    · simp only [hvar, hlet, not_true_eq_false, and_false, decide_false]
      rfl
    · simp only [hvar, hlet, not_false_eq_true, and_self, decide_true]
      rfl

theorem word_outline (A : Name) (rhs : List Name) :
    (d.map Name.text).outline.word A.text (rhs.map Name.text) =
      okUnless (undefinedIn d A (Draft.spelling rhs))
        ((Draft.spelling rhs).map (Draft.classify d.variableSet)) := by
  have hspelling : (rhs.map Name.text).filter (· ≠ Word.emptyMark) =
      (Draft.spelling rhs).map Name.text := Draft.unmarked_map rhs
  rw [word, hspelling, List.mapM_map, undefinedIn, List.find?_eq_findSome?_guard,
    List.map_findSome?]
  exact mapM_okUnless fun a _ => symbol_outline d A a

theorem alternatives_outline (A : Name) :
    (d.map Name.text).outline.alternatives A.text ((d.map Name.text).given A.text) =
      okUnless (undefinedIn d A (d.spellings A).flatten) (d.grammar.alternatives A) := by
  have hstep : ∀ rhs ∈ d.given A, ∀ ws : OrderedSet Word,
      (do return ws.insert (← (d.map Name.text).outline.word A.text (rhs.map Name.text))) =
        okUnless (undefinedIn d A (Draft.spelling rhs))
          (ws.insert ((Draft.spelling rhs).map (Draft.classify d.variableSet))) := by
    intro rhs _ ws
    rw [word_outline]
    cases undefinedIn d A (Draft.spelling rhs) <;> rfl
  have hreason : undefinedIn d A (d.spellings A).flatten =
      (d.given A).findSome? fun rhs => undefinedIn d A (Draft.spelling rhs) := by
    rw [undefinedIn, Draft.spellings_eq, List.find?_flatten, List.map_findSome?,
      List.findSome?_map]
    rfl
  have hwords : (d.given A).foldl (fun ws rhs =>
      ws.insert ((Draft.spelling rhs).map (Draft.classify d.variableSet))) .empty =
        d.grammar.alternatives A := by
    rw [Draft.alternatives_grammar, Draft.spellings_eq, List.map_map, OrderedSet.ofList,
      OrderedSet.insertAll, List.foldl_map]
    rfl
  rw [alternatives, Draft.given_text, List.foldlM_map, foldlM_okUnless hstep, hreason, hwords]

theorem classified_outline : (d.map Name.text).outline.classified =
    okUnless (d.undefined?.map fun p => .fault (.undefinedSymbol p.1 p.2))
      d.grammar.productions := by
  have hentries : (d.map Name.text).outline.productions.entries =
      d.headSet.toList.map fun A => (A.text, (d.map Name.text).given A.text) := by
    rw [Draft.entries_outline, ← Draft.keys_outline, keys_outline_map, List.map_map]
    rfl
  have hstep : ∀ A ∈ d.headSet.toList, ∀ p : Productions, (do
      let ws ← (d.map Name.text).outline.alternatives A.text ((d.map Name.text).given A.text)
      return p.insert (← name A.text) ws) =
        okUnless (undefinedIn d A (d.spellings A).flatten)
          (p.insert A (d.grammar.alternatives A)) := by
    intro A _ p
    rw [alternatives_outline, name_text]
    cases undefinedIn d A (d.spellings A).flatten <;> rfl
  have hreason : (d.undefined?.map fun p => Halt.fault (.undefinedSymbol p.1 p.2)) =
      d.headSet.toList.findSome? fun A => undefinedIn d A (d.spellings A).flatten := by
    rw [Draft.undefined?, List.map_findSome?]
    simp only [Function.comp_def, Option.map_map]
    rfl
  have hproductions : d.headSet.toList.foldl
      (fun p A => p.insert A (d.grammar.alternatives A)) .empty = d.grammar.productions := by
    simp only [Draft.alternatives_grammar]
    exact (OrderedMap.ofKeys_eq_foldl d.headSet.nodup _).symm
  rw [classified, hentries, List.foldlM_map, foldlM_okUnless hstep, hreason, hproductions]

/-- Sets of texts lead to the grammar or the fault that the draft of names leads to. -/
theorem assemble_outline : (d.map Name.text).outline.assemble =
    (d.map Name.text).build.mapError .fault := by
  have hkey : (d.map Name.text).outline.start ∈ (d.map Name.text).outline.productions.keys ↔
      d.start ∈ d.headSet := by
    rw [keys_outline_map]
    exact Draft.mem_map_text
  rw [assemble, precheck_outline, classified_outline, Draft.build_map, fault?_eq_or]
  cases earlyFault? d with
  | some f => rfl
  | none =>
    cases d.undefined? with
    | some p => rfl
    | none =>
      by_cases hstart : d.start ∈ d.headSet
      · simp only [hkey, hstart, name_start_outline, name_stem_outline, toList_variableSet_outline,
          toList_terminals_outline, mapM_name]
        show Except.ok (⟨d.start, .ofList d.variableSet.toList, .ofList d.letterSet.toList,
          d.grammar.productions, d.stem⟩ : Grammar) = .ok d.grammar
        rw [OrderedSet.ofList_toList, OrderedSet.ofList_toList]
        rfl
      · simp only [hkey, hstart, name_start_outline]
        rfl

end Named

/-- The sets are assembled to what the lists are built to, and no name is refused. -/
theorem assemble_ofDeclarations (start : String) (l : List Declaration) :
    (ofDeclarations start l).assemble =
      (Draft.ofDeclarations start l).build.mapError .fault := by
  rw [← Draft.outline_ofDeclarations]
  -- only the first check sees an empty text
  generalize Draft.ofDeclarations start l = d
  cases hnamed : d.named? with
  | none =>
    have hempty := (hasEmptyText_iff d).mpr (Draft.named?_eq_none_iff.mp hnamed)
    rw [Draft.build, hnamed, assemble, precheck, hempty]
    rfl
  | some d' =>
    rw [← Draft.named?_eq_some_iff.mp hnamed]
    exact assemble_outline d'

end Outline

end ChomskyForm
