import Synapse.EventAuth.Locality
import Synapse.EventAuth.Redaction
import Synapse.Federation.ReceiptEdus
import Synapse.Federation.SendQueue
import Synapse.Handlers.SyncState
import Synapse.Handlers.WorkerLock
import Synapse.Push.HttpProgress
import Synapse.Push.UnreadRotation
import Synapse.Replication.EventsStream
import Synapse.Replication.Handler
import Synapse.Replication.MergedStreams
import Synapse.State.V2EventMap
import Synapse.StateGroups.Purge
import Synapse.Storage.AuthChain
import Synapse.Storage.BackfillRows
import Synapse.Storage.ChainIndex.Run
import Synapse.Storage.EventPositions
import Synapse.Storage.EventsAround
import Synapse.Storage.ForwardExtremities
import Synapse.Storage.LoadPositions
import Synapse.Storage.PersistQueueRuns
import Synapse.Storage.PusherRows
import Synapse.Storage.StreamSafety
import Synapse.Storage.UserReceipts
import Synapse.Storage.WorkerLocks
import Synapse.Types.TokenText
import Synapse.Types.Usernames
import Synapse.Visibility.WithState
