import PluggableHcs.Hcs.ReassembleSafety
import PluggableHcs.Hcs.Interleaving
import PluggableHcs.Hcs.ValidStart
import PluggableHcs.Hcs.Consenter
import PluggableHcs.Hcs.ExactCut
import PluggableHcs.Hcs.MessageHashes
import PluggableHcs.Hcs.Shutdown
import PluggableHcs.Hcs.Reprocessing
import PluggableHcs.Hcs.Refresh
import PluggableHcs.Hcs.OrderingService
import PluggableHcs.Configtx.RoundTrip
import PluggableHcs.Policies.Monotonicity
import PluggableHcs.Policies.Manager
import PluggableHcs.Policies.Convert
import PluggableHcs.Policies.Merge
import PluggableHcs.Txmgmt.ReadErrors
import PluggableHcs.Txmgmt.Panics
import PluggableHcs.Blkstorage.Restore
import PluggableHcs.Blkstorage.TxIndex
import PluggableHcs.Confighistory.Transfer
import PluggableHcs.Etcdraft.Snapshots
import PluggableHcs.Multichannel.BlockWriter
import PluggableHcs.Txvalidator.EndorsedWrites
import PluggableHcs.Txmgmt.ConcurrentPurge
import PluggableHcs.Gossip.PayloadsBuffer
import PluggableHcs.Gossip.BlockRequests
import PluggableHcs.Gossip.Election
import PluggableHcs.Gossip.Deduplication
import PluggableHcs.Pvtdatastorage.KvEncoding
import PluggableHcs.Txvalidator.MsgValidation
import PluggableHcs.Privdata.Coordinator
import PluggableHcs.Privdata.Reconcile
