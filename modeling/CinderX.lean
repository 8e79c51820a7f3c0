import CinderX.Jit.Codegen.CopyGraphWithTypeCorrect
import CinderX.Jit.Lir.LiveHomes
import CinderX.Jit.Hir.AnalysisExact
import CinderX.Jit.Hir.BindGuards
import CinderX.Jit.Hir.TypeAlgebra
import CinderX.Jit.Hir.RunPasses
import CinderX.Jit.Hir.DominatedUses
import CinderX.Jit.Hir.FloatComparisonSound
import CinderX.Jit.Hir.PrimitiveBoxRematSound
import CinderX.Jit.Lir.BitExtension
import CinderX.Jit.Lir.RoundTrip
import CinderX.Jit.Lir.Aarch64PeepholeSound
import CinderX.ParallelGC.WsDequeSound
import CinderX.ParallelGC.MarkingSound
import CinderX.Jit.Hir.ArithmeticLoweringSound
import CinderX.StaticPython.DefiniteAssignmentSound
import CinderX.StaticPython.NarrowingCorrect
import CinderX.Jit.GlobalCacheCoherent
import CinderX.Jit.Elf.RoundTrip
import CinderX.Compiler.ExceptionTableCorrect
import CinderX.Compiler.PositionTableCorrect
import CinderX.Compiler.BorrowedLoadsGraph
import CinderX.Jit.DataFlowSound
import CinderX.Jit.Hir.UpdatePrevInstrExact
import CinderX.Jit.Hir.CriticalEdgesSound
import CinderX.Jit.Lir.SecondCallResultRun
import CinderX.Jit.Hir.RefcountDeopt
import CinderX.Jit.RoiAging
import CinderX.Jit.DebugInfo
import CinderX.Common.SlabArenaSlots
import CinderX.Jit.TreeIterCycles
import CinderX.Jit.PerformOsr
import CinderX.Jit.OsrCompileStateSound
import CinderX.Jit.BindKeywordArgs
import CinderX.Compiler.StackDepth
import CinderX.Compiler.AstOptimizerCorrect
import CinderX.Compiler.FlattenTerminates
import CinderX.Compiler.LocalsPlus
import CinderX.StaticPython.TypeStateCopies
import CinderX.Jit.Codegen.ArchImmediatesExact
import CinderX.Jit.Lir.LiveIntervalVector
import CinderX.Jit.Lir.BlockEdits
