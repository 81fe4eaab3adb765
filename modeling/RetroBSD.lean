import RetroBSD.BlockPrimitives
import RetroBSD.CalloutRuns
import RetroBSD.CardDisk
import RetroBSD.Ptrace
import RetroBSD.ClistLaws
import RetroBSD.DirectoryHints
import RetroBSD.ExecArguments
import RetroBSD.ExecRanges
import RetroBSD.ExecReferences
import RetroBSD.FailedRenames
import RetroBSD.Fdisk
import RetroBSD.FileSizes
import RetroBSD.FlockExclusion
import RetroBSD.ImageMountHistories
import RetroBSD.InodeAllocRuns
import RetroBSD.LogRing
import RetroBSD.NameCacheRuns
import RetroBSD.OpenOutcome
import RetroBSD.PipeFifo
import RetroBSD.ProcGroups
import RetroBSD.ResourceMapFirstFit
import RetroBSD.ResourceMapTable
import RetroBSD.SignalSets
import RetroBSD.SwapOwnership
import RetroBSD.SynchRuns
import RetroBSD.TempDeviceIsolation
import RetroBSD.TimeOfDay
import RetroBSD.UserAccess
import RetroBSD.InodeTableRuns
