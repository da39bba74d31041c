import Firestarter.Ltckpt.GuardPage
import Firestarter.Ltckpt.HandlerFrame
import Firestarter.Ltckpt.ElimRollback
import Firestarter.Ltckpt.AllocaSkip
import Firestarter.Ltckpt.RangeCover
import Firestarter.Ltckpt.SyscallProbes
import Firestarter.Ltckpt.SetupStack
import Firestarter.Bitmap.TreeDiff
import Firestarter.Bitmap.TreeByte
import Firestarter.Bitmap.PlainByte
import Firestarter.Bitmap.EpochThreads
import Firestarter.Edfi.BbTrace
import Firestarter.Edfi.Ctl
import Firestarter.Edfi.FaultStats
import Firestarter.Edfi.StatFile
import Firestarter.Edfi.Policy
import Firestarter.Edfi.Commands
import Firestarter.Edfi.MapFile
import Firestarter.Edfi.HypermemStats
import Firestarter.Minix.HypermemLog
import Firestarter.Minix.ShutterBoard
import Firestarter.Kombiton.MergeBbtraces
import Firestarter.Rcvry.FiSites
import Firestarter.Passes.QProf
import Firestarter.Passes.RandomBlocks
import Firestarter.Passes.Sectionify
import Firestarter.Hybrid.SkipFunctions
import Firestarter.Util.MapsDiff
import Firestarter.Util.Pagemap
import Firestarter.Passes.FaultInjector
import Firestarter.Rcvry.ErrorValue
import Firestarter.Rcvry.Signal
import Firestarter.Hybrid.AdaptDecision
import Firestarter.Hybrid.FreeList
import Firestarter.Hybrid.DelayedFree
import Firestarter.Hybrid.StmSites
import Firestarter.Hybrid.SiteIds
import Firestarter.Hybrid.MergeLocals
import Firestarter.Hybrid.CloneArtifacts
import Firestarter.Hybrid.MergedArgs
import Firestarter.Hybrid.RemoveCkptExact
