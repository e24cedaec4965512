import Scalarize.Command.Disk
import Scalarize.Incremental
import Scalarize.Main
import Scalarize.Proofs.ChipSemantics
import Scalarize.Tree.Edit
import Scalarize.Workload.Arithmetic
import Scalarize.Workload.Macros
import Scalarize.Workload.Programs
import Scalarize.Proofs.DependencyGraph
import Scalarize.Proofs.Worklist
import Scalarize.Proofs.Elimination
import Scalarize.Proofs.LiveAssignments
import Scalarize.Proofs.Derivation
import Scalarize.Proofs.Evaluation
import Scalarize.Proofs.EvaluationLevels
import Scalarize.Proofs.Evaluators
import Scalarize.Proofs.Environment
import Scalarize.Proofs.Statements
import Scalarize.Proofs.Naming
import Scalarize.Proofs.ValueParts
import Scalarize.Proofs.ValueNames
import Scalarize.Proofs.SingleAssignment
import Scalarize.Proofs.Reference
import Scalarize.Proofs.ValueMeaning
import Scalarize.Proofs.Preservation
import Scalarize.Proofs.AliasResolution
import Scalarize.Proofs.ShortNames
import Scalarize.Proofs.Rewriting
import Scalarize.Proofs.CopyPropagation
import Scalarize.Proofs.ConstantFolding
import Scalarize.Proofs.Reduction
import Scalarize.Proofs.FoldingFocus
import Scalarize.Proofs.PrintedTokens
import Scalarize.Proofs.UniqueReading
import Scalarize.Proofs.Grouping
import Scalarize.Proofs.PrintedMeaning
import Scalarize.Proofs.EnvironmentInvariant
import Scalarize.Proofs.Substitution
import Scalarize.Proofs.Unfolding
import Scalarize.Proofs.LiteralTexts
import Scalarize.Proofs.GrammarDerivation
import Scalarize.Proofs.ChartSoundness
import Scalarize.Proofs.SourceShapes
import Scalarize.Proofs.SourceMacros
import Scalarize.Proofs.DeclaredFailures
import Scalarize.Proofs.MacroCalls
import Scalarize.Proofs.CallGraph
import Scalarize.Proofs.CylonDecoding
import Scalarize.Proofs.ChartCompleteness
import Scalarize.Proofs.ExternalNames
import Scalarize.Proofs.FlatChains
import Scalarize.Proofs.SourcePieces
import Scalarize.Proofs.RuleReadings
import Scalarize.Proofs.AlikePrograms
import Scalarize.Proofs.OperandReadings
import Scalarize.Proofs.SourceOperators
import Scalarize.Proofs.BracketedReadings
import Scalarize.Proofs.BracketedPrograms
import Scalarize.Proofs.WordDivisions
import Scalarize.Proofs.OneMeaning
import Scalarize.Proofs.AliasOrder
import Scalarize.Proofs.EvaluationDepth
import Scalarize.Proofs.ElementwiseApply
import Scalarize.Proofs.ImportedNames
import Scalarize.Proofs.Stems
import Scalarize.Proofs.ExportedNames
import Scalarize.Proofs.DoubleValues
import Scalarize.Proofs.DoubleRounding
import Scalarize.Proofs.MantissaRounding
import Scalarize.Proofs.NearestDouble
import Scalarize.Proofs.LiteralValues
import Scalarize.Proofs.TruthFolding
import Scalarize.Proofs.IdentityFolding
import Scalarize.Proofs.FoldedNumbers
import Scalarize.Proofs.ReductionFailures
import Scalarize.Proofs.MacroExpansion
import Scalarize.Proofs.ParameterSorts
import Scalarize.Proofs.OperandSizes
import Scalarize.Proofs.Records
import Scalarize.Proofs.RecordShapes
import Scalarize.Proofs.RowsAndColumns
import Scalarize.Proofs.PackedLines
import Scalarize.Proofs.FewestLines
import Scalarize.Proofs.EmptyLines
import Scalarize.Proofs.SqueezedText
import Scalarize.Proofs.NameOrder
import Scalarize.Proofs.ReservedNames
import Scalarize.Proofs.ConstantPrograms
import Scalarize.Proofs.TrivialOperations
import Scalarize.Proofs.ChainGroupings
import Scalarize.Proofs.LibraryInclusion
import Scalarize.Proofs.NameSequence
import Scalarize.Proofs.EvaluationFocus
import Scalarize.Proofs.FailureFocus
