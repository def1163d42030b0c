import Fuzemsys.Cpp.IfRight
import Fuzemsys.Cpp.Positions
import Fuzemsys.Cpp.IncludeRuns
import Fuzemsys.Bintools.Ld.BlockIoProofs
import Fuzemsys.Bintools.FuzixRelocProofs
import Fuzemsys.Fcc.SymbolTableProofs
import Fuzemsys.Fcc.StructLayoutProofs
import Fuzemsys.Emulators.Syscalls.PathBuffersProofs
import Fuzemsys.Libs.Aes256Right
import Fuzemsys.Libs.EnvironMap
import Fuzemsys.Libs.FgetsLines
import Fuzemsys.Libs.FileStreamRuns
import Fuzemsys.Libs.GmtimeRight
import Fuzemsys.Libs.MallocRuns
import Fuzemsys.Libs.NumberText
import Fuzemsys.Libs.PrintfRight
import Fuzemsys.Libs.Bsearch
import Fuzemsys.Libs.Tsearch
import Fuzemsys.Bintools.Ld.LayoutTheorem
import Fuzemsys.Bintools.ArchiveRight
import Fuzemsys.Bintools.RoundTrip
import Fuzemsys.Emulators.Syscalls.Exec
import Fuzemsys.Emulators.Cpu6809.Length
import Fuzemsys.Emulators.Cpu6809.LowBits
import Fuzemsys.Emulators.Cpu6809.Decimal
import Fuzemsys.Emulators.ArgEnv
import Fuzemsys.Emulators.MapFileRuns
import Fuzemsys.Emulators.Brk
import Fuzemsys.Fcc.TokenStream
import Fuzemsys.Fcc.StringBlock
import Fuzemsys.Fcc.Track6800
import Fuzemsys.Fcc.TruthHints
import Fuzemsys.Fcc.TokenizeEnds
import Fuzemsys.Fcc.TreeBuild
import Fuzemsys.Fcc.TreeConstruct
import Fuzemsys.Fcc.SwitchNesting
import Fuzemsys.Fcc.ScopeRuns
import Fuzemsys.Fcc.TypeLaw
import Fuzemsys.Fcc.StackRight
import Fuzemsys.Fcc.ExpressionGrouping
import Fuzemsys.Fcc.ConstantToken
import Fuzemsys.Fcc.FloatConstant
import Fuzemsys.Fcc.RuntimeTable
import Fuzemsys.Emulators.Monitor
import Fuzemsys.Emulators.MonitorLines
import Fuzemsys.Emulators.Cpu6809.Watch
import Fuzemsys.Emulators.Cpu6809.Breakpoints
import Fuzemsys.Emulators.Cpu6809.BreakpointRuns
import Fuzemsys.Fcc.RuntimeProduct
