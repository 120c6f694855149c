import Hegel.Lib.Numeration
import Hegel.Lib.RoseOrder
import Hegel.Lib.Shortlex
import Hegel.Lib.PrefixCode
import Hegel.Lib.Checked
import Hegel.IntervalSet
import Hegel.FloatIndex
import Hegel.FloatCode
import Hegel.FloatSimplest
import Hegel.Base64
import Hegel.Bignum
import Hegel.Blob
import Hegel.Choices
import Hegel.FloatConstraint
import Hegel.FloatRank
import Hegel.ChoiceNode
import Hegel.SortKey
import Hegel.ChoiceIndex
import Hegel.Database
import Hegel.DecoderSafety
import Hegel.StorageRoundTrip
import Hegel.ExecCache
import Hegel.ValueCode
import Hegel.KindHistory
import Hegel.Lib.Interaction
import Hegel.State
import Hegel.Draws
import Hegel.Streams
import Hegel.Lib.Attempt
import Hegel.StateMachine
import Hegel.DrawLaws
import Hegel.Steps
import Hegel.MachineSelection
import Hegel.MachineCalls
import Hegel.MachineRuns
import Hegel.MachineRounds
import Hegel.MachineRejections
import Hegel.NodeValidity
import Hegel.CloneTree
import Hegel.SpanForest
import Hegel.SpanReport
import Hegel.Reassembly
import Hegel.Conclusion
import Hegel.Replay
import Hegel.Lib.FileSystem
import Hegel.Lib.Multimap
import Hegel.DirectoryDatabase
import Hegel.DatabaseRefinement
import Hegel.Persistence
import Hegel.Reconciliation
import Hegel.LayoutGroups
import Hegel.Printer
import Hegel.InlinePrinting
import Hegel.ShrinkSoundness
import Hegel.FindInteger
import Hegel.ChangeTracking
import Hegel.Scheduling
import Hegel.Engine
import Hegel.EngineRecords
import Hegel.EngineShrinks
import Hegel.EngineRuns
import Hegel.Exploration
import Hegel.Targeting
import Hegel.Generation
import Hegel.PassControl
import Hegel.RunPhases
import Hegel.GenerationBudget
import Hegel.Contradictions
import Hegel.FloatLeast
import Hegel.FloatRatio
import Hegel.Lib.Searching
import Hegel.AdaptiveSearch
import Hegel.Identifiers
import Hegel.Lib.StableSort
import Hegel.ShrinkOrdering
import Hegel.ClimbSafety
import Hegel.ShrinkCap
import Hegel.SharedKeys
import Hegel.CloneEquality
import Hegel.OpenGroups
import Hegel.LineWidth
import Hegel.WidthLaw
import Hegel.DrawCounts
import Hegel.CachedQueries
import Hegel.DisplayNames
import Hegel.VariablePool
import Hegel.Collections
import Hegel.IntervalAlgebra
import Hegel.ShrinkAlphabet
import Hegel.TextAlphabet
import Hegel.Recursion
import Hegel.Transcript
import Hegel.TranscriptLaw
import Hegel.TranscriptRuns
import Hegel.TextPreservation
import Hegel.IfBreakText
import Hegel.DebugRepr
import Hegel.DebugSource
import Hegel.DebugLayout
import Hegel.FloatInverse
import Hegel.Lib.Weaving
import Hegel.SiblingOrder
import Hegel.Lib.Descendants
import Hegel.GuardedRenderer
import Hegel.RenderSafety
import Hegel.SpliceOnce
import Hegel.Calendar
import Hegel.ServedDraws
import Hegel.CalendarDraws
import Hegel.Domains
import Hegel.RegexSyntax
import Hegel.RegexCharacters
import Hegel.Lib.Prioritised
import Hegel.RegexMatcher
import Hegel.RegexSemantics
import Hegel.MatcherLoops
import Hegel.MatcherSoundness
import Hegel.RegexGeneration
import Hegel.RegexAlphabet
import Hegel.RegexTokenizer
import Hegel.RegexParser
import Hegel.ParserSteps
import Hegel.ParserEscapes
import Hegel.RegexShape
import Hegel.ParserSafety
import Hegel.KeptGroups
import Hegel.KeptTrees
import Hegel.ParsedPatterns
import Hegel.RunHandle
import Hegel.HandleActions
import Hegel.HandleSessions
import Hegel.HandleProtocol
import Hegel.RunLogic
import Hegel.RunReports
