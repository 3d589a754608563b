import LoopNest.Main
import LoopNest.Program.Leaves
import LoopNest.Proofs.ConstantCollectors
import LoopNest.Proofs.OpenRelations
import LoopNest.Proofs.ChainSplitting
import LoopNest.Proofs.Alignment
import LoopNest.Proofs.HeaderReading
import LoopNest.Proofs.HeaderSteps
import LoopNest.Proofs.TermExpressions
import LoopNest.Proofs.Valuation
import LoopNest.Proofs.ConstraintKeeping
import LoopNest.Proofs.SuppliedOperands
import LoopNest.Proofs.HeaderGrammar
import LoopNest.Proofs.CursorReading
import LoopNest.Proofs.ParserSound
import LoopNest.Proofs.ParserComplete
import LoopNest.Proofs.ProgramGrammar
import LoopNest.Proofs.Lexing
import LoopNest.Proofs.Spelling
import LoopNest.Proofs.ScanLexer
import LoopNest.Proofs.ProperTrees
import LoopNest.Proofs.EngineText
import LoopNest.Proofs.LoweredSpaces
import LoopNest.Proofs.WellFormedSpaces
import LoopNest.Proofs.EngineRoundTrip
import LoopNest.Proofs.SourceRoundTrip
import LoopNest.Proofs.CGrammar
import LoopNest.Proofs.CReading
import LoopNest.Proofs.CLexer
import LoopNest.Proofs.CTranslation
import LoopNest.Proofs.FieldMentions
import LoopNest.Proofs.ComputationReading
import LoopNest.Proofs.AssignedFields
import LoopNest.Proofs.Identifiers
import LoopNest.Proofs.WordWrapping
import LoopNest.Proofs.StatementTokens
import LoopNest.Proofs.TokenSubstitution
import LoopNest.Proofs.ClosedUnits
import LoopNest.Proofs.Relocation
import LoopNest.Proofs.SplicedParsing
import LoopNest.Proofs.LineJoining
import LoopNest.Proofs.JoinedPrograms
import LoopNest.Proofs.SeparateCompilation
import LoopNest.Proofs.FieldCollection
import LoopNest.Proofs.ParameterNames
import LoopNest.Proofs.SegmentReading
import LoopNest.Proofs.StatementLines
import LoopNest.Proofs.UnitLines
import LoopNest.Proofs.TextCutting
import LoopNest.Proofs.GuardStripping
import LoopNest.Proofs.CallRewriting
import LoopNest.Proofs.FunctionNames
import LoopNest.Proofs.ScriptWords
import LoopNest.Proofs.TermTexts
import LoopNest.Proofs.TermRewriting
import LoopNest.Proofs.EmittedTerms
import LoopNest.Proofs.SetReading
import LoopNest.Proofs.SpaceScripts
import LoopNest.Proofs.DeclaredConstants
import LoopNest.Proofs.DeclaredFunctions
import LoopNest.Proofs.ScheduleOrder
import LoopNest.Proofs.IndexTerms
import LoopNest.Proofs.ScalarFields
import LoopNest.Proofs.Subexpressions
import LoopNest.Proofs.TreeNodes
import LoopNest.Proofs.TreeParsing
import LoopNest.Proofs.TreeShapes
import LoopNest.Proofs.TranslationFailures
import LoopNest.Proofs.SourcePlaces
import LoopNest.Proofs.ScanTiling
import LoopNest.Proofs.PlacedTrees
import LoopNest.Proofs.PlacedReading
import LoopNest.Proofs.ParsedSpans
import LoopNest.Proofs.LongestLexemes
import LoopNest.Proofs.SpacedTokens
import LoopNest.Proofs.ParserSteps
import LoopNest.Proofs.FirstFaults
import LoopNest.Proofs.SpaceAdditions
import LoopNest.Proofs.Descent
import LoopNest.Proofs.DescentSteps
import LoopNest.Proofs.DescentReturns
import LoopNest.Proofs.TreeNodes
