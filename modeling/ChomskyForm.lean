import ChomskyForm.OrderedSet
import ChomskyForm.OrderedMap
import ChomskyForm.Word
import ChomskyForm.NameSupply
import ChomskyForm.Draft
import ChomskyForm.Outline
import ChomskyForm.Objection
import ChomskyForm.Nullable
import ChomskyForm.Erasure
import ChomskyForm.UnitClosure
import ChomskyForm.Isolation
import ChomskyForm.Columns
import ChomskyForm.Rewriting
import ChomskyForm.HelperTable
import ChomskyForm.Chain
import ChomskyForm.ChainTable
import ChomskyForm.NormalForm
import ChomskyForm.Typing
import ChomskyForm.Normalization
import ChomskyForm.Derivation
import ChomskyForm.Chart
import ChomskyForm.ChartScan
import ChomskyForm.SpanTable
import ChomskyForm.SquareTable
import ChomskyForm.Sentences
import ChomskyForm.Pass
import ChomskyForm.Journal
import ChomskyForm.CommandLine
import ChomskyForm.Main
import ChomskyForm.Proofs.Simulation
import ChomskyForm.Proofs.NullableSearch
import ChomskyForm.Proofs.EpsilonRemoval
import ChomskyForm.Proofs.UnitRemoval
import ChomskyForm.Proofs.IssuedNames
import ChomskyForm.Proofs.TerminalIsolation
import ChomskyForm.Proofs.ChainLinks
import ChomskyForm.Proofs.BuiltGrammars
import ChomskyForm.Proofs.WellFormedRuns
import ChomskyForm.Proofs.PassOrder
import ChomskyForm.Proofs.NormalShape
import ChomskyForm.Proofs.Spans
import ChomskyForm.Proofs.ChartRecognition
import ChomskyForm.Proofs.CheckedLoops
import ChomskyForm.Proofs.TableRecognition
import ChomskyForm.Proofs.ConversionLanguage
import ChomskyForm.Proofs.ProductionLists
import ChomskyForm.Proofs.TypedRules
import ChomskyForm.Proofs.IntroducedSymbols
import ChomskyForm.Proofs.UnorderedPasses
import ChomskyForm.Renaming
import ChomskyForm.Proofs.RenamedPasses
import ChomskyForm.Proofs.InsertionOrder
import ChomskyForm.Proofs.ChartScanning
import ChomskyForm.Proofs.SquareTabulation
import ChomskyForm.Proofs.RecognizedConversion
import ChomskyForm.Occurrences
import ChomskyForm.Proofs.OccurrenceSearch
import ChomskyForm.Proofs.ShortenedWords
import ChomskyForm.Proofs.NormalFixedPoints
import ChomskyForm.Proofs.SpelledChains
import ChomskyForm.Proofs.SharedHelpers
import ChomskyForm.Proofs.NamedDrafts
import ChomskyForm.Proofs.DraftObjections
import ChomskyForm.Proofs.Assembly
import ChomskyForm.Proofs.BuildVerdicts
import ChomskyForm.Proofs.DeclarationOrder
import ChomskyForm.UnitLevels
import ChomskyForm.Proofs.BreadthFirst
import ChomskyForm.NameCounter
import ChomskyForm.Proofs.LeastFreeNames
import ChomskyForm.Proofs.SentenceOrder
import ChomskyForm.Proofs.ListingLines
import ChomskyForm.Gathering
import ChomskyForm.GatheredDefinition
import ChomskyForm.Proofs.CanonicalDefinition
