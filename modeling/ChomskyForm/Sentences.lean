import ChomskyForm.Word

/-!
# All sentences up to a length

`sentencesUpTo letters n` lists the sentences over an alphabet by length, and those of one
length in the order of a dictionary whose alphabet is ordered as given.

`growSentences` makes the same list round by round. Each round continues the sentences of the
round before by every letter.
-/

namespace ChomskyForm

/-- The sentences of a length, in dictionary order. -/
def sentencesOfLength (letters : List String) : Nat → List Sentence
  | 0 => [[]]
  | n + 1 => letters.flatMap fun a => (sentencesOfLength letters n).map (a :: ·)

/-- The sentences of at most a length, the shortest first. -/
def sentencesUpTo (letters : List String) (n : Nat) : List Sentence :=
  (List.range (n + 1)).flatMap (sentencesOfLength letters)

/-- The sentence followed by each letter. -/
def continuations (letters : List String) (w : Sentence) : List Sentence :=
  letters.map fun a => w ++ [a]

/-- All sentences after `n` rounds, and those of the last round. -/
def growSentences (letters : List String) : Nat → List Sentence × List Sentence
  | 0 => ([[]], [[]])
  | n + 1 =>
    let (sentences, frontier) := growSentences letters n
    let frontier := frontier.flatMap (continuations letters)
    (sentences ++ frontier, frontier)

end ChomskyForm
