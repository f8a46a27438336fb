import PsacMpi.Counts
import PsacMpi.Collectives
import PsacMpi.GatherRange
import PsacMpi.ScatterBlock
import PsacMpi.ScatterStream
import PsacMpi.GlobalPrefixSum
import PsacMpi.StripedPrefixSum
import PsacMpi.Bucketing
import PsacMpi.MsgsAll2all
import PsacMpi.IntCounts
import PsacMpi.NodeDistribution
import PsacMpi.WriteFiles
