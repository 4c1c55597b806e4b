import ChomskyForm.Draft

/-!
# Sample grammars

The grammars that the command line knows by name. The first is converted if none is named.
-/

namespace ChomskyForm

/-- The grammars to choose from. -/
inductive Sample where
  | sample
  | erasing
  | units
  | long
  | parentheses
  deriving DecidableEq

namespace Sample

/-- Every sample. -/
def all : List Sample := [sample, erasing, units, long, parentheses]

/-- What a sample is called on the command line. -/
def name : Sample → String
  | sample => "sample"
  | erasing => "erasing"
  | units => "units"
  | long => "long"
  | parentheses => "parentheses"

/-- The sample of that name. -/
def ofName? (s : String) : Option Sample := all.find? fun known => known.name = s

/-- The description of a sample. The start symbol of each is `S`. -/
def declarations : Sample → List Declaration
  | sample =>
    [.terminals ["a", "b"],
     .production "S" ["A", "B"],
     .production "S" ["B", "C"],
     .production "A" ["B", "A"],
     .production "A" ["a"],
     .production "B" ["C", "C"],
     .production "B" ["b"],
     .erasing "B",
     .production "C" ["A", "B"],
     .production "C" ["a"]]
  | erasing =>
    [.terminals ["a", "b"],
     .production "S" ["A", "B"],
     .production "A" ["a"],
     .erasing "A",
     .production "B" ["b"],
     .erasing "B"]
  | units =>
    [.terminals ["a", "b", "c", "d"],
     .production "S" ["A"],
     .production "S" ["a"],
     .production "A" ["B"],
     .production "A" ["b"],
     .production "B" ["C"],
     .production "B" ["c"],
     .production "C" ["D"],
     .production "D" ["d"]]
  | long =>
    [.terminals ["a", "b", "c", "d"],
     .production "S" ["A", "b", "C", "D"],
     .production "A" ["a"],
     .production "C" ["c"],
     .production "D" ["d"]]
  | parentheses =>
    [.terminals ["(", ")"],
     .production "S" ["(", "S", ")", "S"],
     .erasing "S"]

/-- The grammar of a sample. -/
def grammar (s : Sample) : Except Fault Grammar := (Draft.ofDeclarations "S" s.declarations).build

end Sample

end ChomskyForm
