import Crossbank.Async.Prog
import Crossbank.Async.Pool
import Crossbank.Bank
import Crossbank.Registry
import Crossbank.Locker.Failure
import Crossbank.Locker.Collapse
import Crossbank.Retry
import Crossbank.Binding
import Crossbank.Locker.TxRead
import Crossbank.Async.Outline
import Crossbank.Locker.Closing
import Crossbank.System
import Crossbank.Opening
import Crossbank.Locker.Held
import Crossbank.Verify
import Crossbank.Deletion
import Crossbank.ChainRecord
import Crossbank.Locker.Mirroring
import Crossbank.Locker.ReadAlike
import Crossbank.Locker.Streaming
import Crossbank.Locker.Damage
import Crossbank.Coherence.News
import Crossbank.Backend.Redb
import Crossbank.Coherence.Budget
import Crossbank.Coherence.Lazy
import Crossbank.Coherence.Eager
import Crossbank.Coherence.Converge
import Crossbank.Service
import Crossbank.Locker.Shedding
import Crossbank.Locker.Clock
import Crossbank.Locker.Listing
import Crossbank.Locker.Ledger
import Crossbank.Locker.Acts
import Crossbank.Locker.LastUse
import Crossbank.Locker.StreamRead
import Crossbank.Locker.Latest
import Crossbank.Locker.Paging
import Crossbank.Locker.Chunking
import Crossbank.Locker.Cutting
import Crossbank.Locker.Halting
import Crossbank.Sessions
import Crossbank.Watch
import Crossbank.Quarantine
import Crossbank.Keyspace
import Crossbank.Ending
import Crossbank.Envelope
import Crossbank.Locker.Priors
import Crossbank.Handle.Shelf
import Crossbank.Handle.Raw
import Crossbank.Handle.Serve
import Crossbank.Handle.Jobs
import Crossbank.Async.Linear
import Crossbank.Handle.Calls
import Crossbank.Locker.Index
import Crossbank.Locker.Vault
