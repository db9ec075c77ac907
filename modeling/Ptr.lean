import Ptr.Ledger.Capacity
import Ptr.Ledger.Damaged
import Ptr.Ledger.TornScan
import Ptr.Raft.Membership
import Ptr.Raft.Message
import Ptr.Raft.Fence
import Ptr.Raft.Accounting
import Ptr.Runtime.Budget
import Ptr.Runtime.SectionCodec
import Ptr.Runtime.RecoverySnapshot
import Ptr.Runtime.PodHead
import Ptr.Runtime.ManifestClosure
import Ptr.Runtime.PodUri
import Ptr.Memory.Retention
import Ptr.Memory.Revocation
import Ptr.Fastmem.Revocation
import Ptr.Events.Retention
import Ptr.Exec.Mailbox
import Ptr.Vcw.Verified
import Ptr.Runtime.TierJournal
import Ptr.Adapters.Erasure
import Ptr.Podwire.Relay
