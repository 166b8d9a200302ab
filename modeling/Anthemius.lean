import Anthemius.AccountNumbers
import Anthemius.AggregatorExtension
import Anthemius.BatchCoordinators
import Anthemius.BatchQuotas
import Anthemius.BatchRequesters
import Anthemius.BatchStores
import Anthemius.BufferedStates
import Anthemius.ChangeSetSquash
import Anthemius.DependencyPrecision
import Anthemius.FirstIterationCounter
import Anthemius.InvalidSignatures
import Anthemius.LedgerExtensions
import Anthemius.MirroredOutputs
import Anthemius.ModuleRaces
import Anthemius.OldestAncestors
import Anthemius.PeerBroadcastRuns
import Anthemius.PositionTraversals
import Anthemius.ProofQueueRuns
import Anthemius.QuorumIntersections
import Anthemius.ReadyTransactions
import Anthemius.RefusedInsertions
import Anthemius.ReplayCoverage
import Anthemius.SenderOrder
import Anthemius.ShardedSenders
import Anthemius.SignatureCoverage
import Anthemius.StoredNodes
import Anthemius.TransactionDelivery
import Anthemius.TrustedStates
import Anthemius.ValidationStaffing
