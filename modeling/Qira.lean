import Qira.TraceIndex
import Qira.Library.Timelines
import Qira.Library.Overwrites
import Qira.TraceProcess
import Qira.TraceMemory
import Qira.TraceRegisters
import Qira.ForkTree
import Qira.PendingRegisters
import Qira.QemuBuffer
import Qira.QemuChangelists
import Qira.QemuFork
import Qira.QemuPublish
import Qira.PinPublish
import Qira.PinTracer
import Qira.PinMemory
import Qira.TracePages
import Qira.ProgramPages
import Qira.StaticNames
import Qira.StaticMemory
import Qira.Library.Numerals
import Qira.RunIds
import Qira.PinChangelists
import Qira.Byteweight
import Qira.Library.Worklists
import Qira.Instructions
import Qira.Analyzer
import Qira.CallClosure
import Qira.BasicBlocks
import Qira.CrossReferences
import Qira.AnalysisNames
import Qira.DepthMap
import Qira.FakeMeteor
import Qira.HexEditor
import Qira.ConcreteExecution
import Qira.BilValidator
import Qira.Library.Gaps
import Qira.RawMemory
import Qira.InstructionTags
import Qira.SignatureLoading
import Qira.FunctionStarts
import Qira.TrainerTrie
import Qira.Library.TwosComplement
import Qira.BitVectors
import Qira.Bil
import Qira.SignedOperators
import Qira.LetScopes
import Qira.BilMemory
import Qira.Library.Ranges
import Qira.ClnumQueries
import Qira.MemoryRequests
import Qira.Library.CallStacks
import Qira.NestedCalls
import Qira.CallExtents
import Qira.FunctionNavigation
import Qira.DynamicSlice
import Qira.Library.PartialMaps
import Qira.CallingConventions
import Qira.Library.Differences
import Qira.FunctionDepths
import Qira.Library.Cuts
import Qira.DynamicBlocks
import Qira.Library.Repetitions
import Qira.LoopCollapsing
import Qira.Library.Neighbours
import Qira.TimelineFlags
import Qira.TimelineView
import Qira.FailingComputations
import Qira.HexStrings
import Qira.Library.Islands
import Qira.AddressBar
import Qira.Library.Tilings
import Qira.FlatListing
import Qira.PinSyscalls
import Qira.PinFileIds
import Qira.LogFiles
import Qira.PinWindow
import Qira.StraightBlocks
import Qira.PinHistory
import Qira.BilRuns
import Qira.BapAccesses
