/-!
# Names

Terminals and non-terminals are known by a non-empty text (`Name`). Names compare by
their texts, code point by code point.

Conversion introduces non-terminals by number : `Name.numbered stem k` is the stem
followed by the decimal form of `k`. `hasNumberedShape` recognises names with any digits after
the stem (`hasNumberedShape_iff`), these among them (`hasNumberedShape_numbered`), and no two
numbers give one name (`numbered_inj`).
-/

namespace ChomskyForm

/-- Why a name, or a supply of names, cannot be made. -/
inductive Refusal where
  | emptyName
  | emptyStem
  deriving DecidableEq

/-- The text of a refusal. -/
def Refusal.message : Refusal → String
  | .emptyName => "assertion failed: !s.is_empty()"
  | .emptyStem => "assertion failed: !prefix.is_empty()"

/-- A non-empty text. -/
@[ext] structure Name where
  text : String
  text_ne : text ≠ ""
  deriving DecidableEq

/-- The names on the left of productions. -/
abbrev NonTerminal := Name

/-- The names that sentences are made of. -/
abbrev Terminal := Name

namespace Name

instance : Ord Name := ⟨fun a b => compare a.text b.text⟩

/-- Alphabetical order of the texts, by code point. -/
instance : LE Name := ⟨fun a b => a.text ≤ b.text⟩

instance (a b : Name) : Decidable (a ≤ b) := inferInstanceAs (Decidable (a.text ≤ b.text))

/-- The name with the given text, if there is one. -/
def ofString? (s : String) : Option Name := if h : s ≠ "" then some ⟨s, h⟩ else none

/-- The name with the given text. -/
def ofString (s : String) : Except Refusal Name :=
  match ofString? s with
  | some a => .ok a
  | none => .error .emptyName

theorem ofString?_eq_some_iff {s : String} {a : Name} : ofString? s = some a ↔ a.text = s := by
  obtain ⟨t, ht⟩ := a
  by_cases h : s = ""
  · subst h
    simp [ofString?, ht]
  · simp [ofString?, h, eq_comm]

/-- The stem followed by a number in decimal form. -/
def numbered (stem : Name) (k : Nat) : Name :=
  ⟨stem.text ++ toString k, fun h => stem.text_ne (String.append_eq_empty_iff.mp h).1⟩

theorem numbered_inj {stem : Name} {k l : Nat} (h : numbered stem k = numbered stem l) :
    k = l := by
  have htext : stem.text ++ toString k = stem.text ++ toString l := congrArg Name.text h
  have hlist := congrArg String.toList htext
  rw [String.toList_append, String.toList_append] at hlist
  have hdigits : Nat.toDigits 10 k = Nat.toDigits 10 l := by
    have := List.append_cancel_left hlist
    simpa [toString, Nat.repr] using this
  rw [← Nat.ofDigitChars_toDigits (b := 10) (n := k) (by decide) (by decide), hdigits,
    Nat.ofDigitChars_toDigits (by decide) (by decide)]

end Name

/-- Whether `name` is `stem` followed by one or more decimal digits. -/
def hasNumberedShape (stem name : String) : Bool :=
  match stem.toList.isPrefixOf? name.toList with
  | some rest => !rest.isEmpty && rest.all Char.isDigit
  | none => false

/-- The name is the stem followed by one or more decimal digits. -/
def NumberedFrom (stem name : String) : Prop :=
  ∃ digits : List Char, digits ≠ [] ∧ (∀ c ∈ digits, c.isDigit) ∧
    name = stem ++ String.ofList digits

theorem isPrefixOf?_eq_some_iff : ∀ {l m r : List Char}, l.isPrefixOf? m = some r ↔ m = l ++ r
  | [], m, r => Option.some_inj
  | c :: l, [], r => by
    show none = some r ↔ [] = c :: l ++ r
    simp
  | c :: l, b :: m, r => by
    show (if c == b then l.isPrefixOf? m else none) = some r ↔ b :: m = c :: l ++ r
    simp only [Option.ite_none_right_eq_some, beq_iff_eq, isPrefixOf?_eq_some_iff,
      List.cons_append, List.cons.injEq, eq_comm (a := c)]

theorem hasNumberedShape_iff {stem name : String} :
    hasNumberedShape stem name = true ↔ NumberedFrom stem name := by
  have hname : ∀ digits : List Char,
      name = stem ++ String.ofList digits ↔ name.toList = stem.toList ++ digits := fun digits => by
    rw [← String.toList_inj, String.toList_append, String.toList_ofList]
  simp only [NumberedFrom, hname, ← isPrefixOf?_eq_some_iff, hasNumberedShape]
  cases stem.toList.isPrefixOf? name.toList with
  | none => simp
  | some rest => simp

theorem hasNumberedShape_numbered (stem : Name) (k : Nat) :
    hasNumberedShape stem.text (stem.numbered k).text = true := by
  refine hasNumberedShape_iff.mpr ⟨Nat.toDigits 10 k, fun h => ?_, fun c hc => ?_, ?_⟩
  · have hpos := Nat.length_toDigits_pos (b := 10) (n := k)
    rw [h] at hpos
    exact absurd hpos (Nat.lt_irrefl 0)
  · exact Nat.isDigit_of_mem_toDigits (by decide) (by decide) hc
  · rfl

end ChomskyForm
