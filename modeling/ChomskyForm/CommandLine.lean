import ChomskyForm.Sample
import ChomskyForm.Normalization

/-!
# The command line

`CommandLine.run` converts a sample grammar and prints it before and after. An argument
is the name of a sample, of which there may be one, or one of three options, each at most
once. After `--` no argument is an option. Anything else is a usage error.
-/

namespace ChomskyForm.CommandLine

/-- What the arguments ask for. -/
structure Request where
  sample? : Option Sample
  dropEmpty : Bool
  stages : Bool
  summary : Bool
  /-- The arguments that follow are not options. -/
  literal : Bool
  deriving DecidableEq

/-- What is asked for without arguments. -/
def Request.default : Request := ⟨none, false, false, false, false⟩

namespace Request

/-- Take an argument as the name of a sample. -/
def readSample (r : Request) (arg : String) : Option Request :=
  match r.sample?, Sample.ofName? arg with
  | none, some chosen => some { r with sample? := some chosen }
  | _, _ => none

/-- Take one argument, or fail on a usage error. -/
def read (r : Request) (arg : String) : Option Request :=
  if r.literal then r.readSample arg
  else match arg with
    | "--" => some { r with literal := true }
    | "--drop-start-epsilon" => if r.dropEmpty then none else some { r with dropEmpty := true }
    | "--stages" => if r.stages then none else some { r with stages := true }
    | "--summary" => if r.summary then none else some { r with summary := true }
    | arg => r.readSample arg

/-- What the arguments ask for, unless there is a usage error. -/
def ofArguments (args : List String) : Option Request := args.foldlM read default

/-- What becomes of the empty sentence. -/
def emptySentence (r : Request) : EmptySentence := if r.dropEmpty then .drop else .retain

end Request

/-- The exit status of a run and what it prints. -/
structure Outcome where
  status : Nat
  out : String
  err : String
  deriving DecidableEq

/-- What is printed for a conversion. -/
def report (r : Request) (n : Normalization) : String :=
  (if r.stages then
    String.join (n.stages.map fun (label, g) =>
      label ++ ":\n" ++ g.presentation.listing ++ "\n")
  else "Context-free grammar:\n" ++ n.source.presentation.definition ++ "\n") ++
  "Chomsky normal form:\n" ++ n.result.presentation.definition ++ "\n" ++
  if r.summary then n.summary ++ "\n" else ""

/-- What is printed when the arguments are wrong. -/
def usage : String :=
  "usage: [" ++ "|".intercalate (Sample.all.map Sample.name) ++
    "] [--drop-start-epsilon] [--stages] [--summary]\n"

/-- Run the command line. -/
def run (args : List String) : Outcome :=
  match Request.ofArguments args with
  | none => ⟨2, "", usage⟩
  | some r =>
    match (r.sample?.getD .sample).grammar with
    | .error fault => ⟨1, "", "error: " ++ fault.message ++ "\n"⟩
    | .ok g =>
      match g.normalize r.emptySentence with
      | .error fault => ⟨1, "", "error: " ++ fault.message ++ "\n"⟩
      | .ok n => ⟨0, report r n, ""⟩

end ChomskyForm.CommandLine
