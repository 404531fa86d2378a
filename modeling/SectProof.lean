import SectProof.SchedulerRuns
import SectProof.DeterministicIds
import SectProof.SignalDedup
import SectProof.ThreadAccounting
import SectProof.LayoutSoundness
import SectProof.LinkInvariant
import SectProof.SchedCollide
import SectProof.FaultInjection
import SectProof.ProgramLogs
import SectProof.DatabaseRecovery
import SectProof.CoverageFilter
import SectProof.SignalRotation
import SectProof.MaxSignalDistribution
import SectProof.InputAddresses
import SectProof.InputDelivery
import SectProof.ReproDelivery
import SectProof.CorpusDelivery
import SectProof.PctStratified
import SectProof.KconfigMinimize
import SectProof.IntRanges
import SectProof.FlagOrders
import SectProof.StructRecursion
import SectProof.EnabledCalls
import SectProof.HintReplacers
import SectProof.PageAllocation
import SectProof.MemoryAllocation
import SectProof.ProgramChoice
import SectProof.SignalMinimization
import SectProof.RequestOrder
