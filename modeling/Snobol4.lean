import Snobol4.Bytes
import Snobol4.Ast
import Snobol4.Lexer
import Snobol4.Parser
import Snobol4.Support.Fueled
import Snobol4.LexerProgress
import Snobol4.ParserProgress
import Snobol4.ParserTermination
import Snobol4.Bytecode
import Snobol4.CharClass
import Snobol4.Code
import Snobol4.CodeAt
import Snobol4.Compiler
import Snobol4.CompilerLayout
import Snobol4.Fusion
import Snobol4.Matching
import Snobol4.MatchingProgress
import Snobol4.Placement
import Snobol4.SearchLoop
import Snobol4.VmFailure
import Snobol4.VmOutput
import Snobol4.VmHalts
import Snobol4.VmRepeat
import Snobol4.VmTrail
import Snobol4.VmPath
import Snobol4.SearchCaptures
import Snobol4.StartBitmap
import Snobol4.BranchLog
import Snobol4.VmModes
import Snobol4.NotedRun
import Snobol4.RequiredLit
import Snobol4.VmBoundary
import Snobol4.TableMap
import Snobol4.SimdTier
import Snobol4.FusionTier
import Snobol4.LiteralPrefix
import Snobol4.Decoding
import Snobol4.Trailer
import Snobol4.SearchVmSafety
import Snobol4.ClassTable
import Snobol4.SearchVmHalts
import Snobol4.Array
import Snobol4.BoundTables
import Snobol4.Labels
import Snobol4.MatchResult
import Snobol4.VmInvariant
import Snobol4.VmBounds
import Snobol4.Codepoints
import Snobol4.StringFn
import Snobol4.TemplateFormat
import Snobol4.BindTables
import Snobol4.VmRows
import Snobol4.VmFrame
import Snobol4.RegisterClasses
import Snobol4.TrailerRoundTrip
import Snobol4.Support.Intervals
import Snobol4.ClassText
import Snobol4.ClassFold
import Snobol4.LiteralOnly
import Snobol4.Minlength
import Snobol4.Automaton
import Snobol4.SearchNext
import Snobol4.TemplateBind
import Snobol4.Positional
import Snobol4.ExecutedTier
import Snobol4.StringSlices
import Snobol4.CaseMapping
import Snobol4.Breakx
import Snobol4.Support.Balance
import Snobol4.Balanced
import Snobol4.DynamicCache
import Snobol4.LexerPosition
import Snobol4.SimdVector
import Snobol4.TokenStream
import Snobol4.TakenTokens
import Snobol4.RegisterRange
import Snobol4.LexerReads
import Snobol4.Replace
import Snobol4.TypeFn
import Snobol4.WrittenIntegers
import Snobol4.ChoiceArena
import Snobol4.TableLoad
import Snobol4.Support.Offers
import Snobol4.Support.OfferLaws
import Snobol4.PlainLoops
import Snobol4.Meaning
import Snobol4.SubsetConstruction
import Snobol4.AutomatonSearch
import Snobol4.Support.Tries
import Snobol4.AltTrie
import Snobol4.AltTier
import Snobol4.Template
import Snobol4.TemplateText
import Snobol4.Support.References
import Snobol4.TableOwners
import Snobol4.AutomatonTier
import Snobol4.CandidateScan
import Snobol4.SearchVmAgrees
import Snobol4.BreakTier
import Snobol4.TrailWrap
import Snobol4.GotoTargets
