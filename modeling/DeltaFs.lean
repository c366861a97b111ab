import DeltaFs.Ancestry
import DeltaFs.Assertions
import DeltaFs.Atomicity
import DeltaFs.Balance
import DeltaFs.Base64
import DeltaFs.Batch
import DeltaFs.Buffers
import DeltaFs.Bulk
import DeltaFs.Chain
import DeltaFs.Cluster
import DeltaFs.Committed
import DeltaFs.Compacted
import DeltaFs.Compaction
import DeltaFs.Delivery
import DeltaFs.Dictionary
import DeltaFs.Dispatch
import DeltaFs.Distributed
import DeltaFs.Entries
import DeltaFs.Exclusion
import DeltaFs.Fresh
import DeltaFs.HashTable
import DeltaFs.Identity
import DeltaFs.InOrder
import DeltaFs.InTurn
import DeltaFs.Inodes
import DeltaFs.Interleaving
import DeltaFs.KVCall
import DeltaFs.Leases
import DeltaFs.Lifetime
import DeltaFs.Linear
import DeltaFs.Linearization
import DeltaFs.Linked
import DeltaFs.Locations
import DeltaFs.Lookups
import DeltaFs.LruMemory
import DeltaFs.LruSimulation
import DeltaFs.Lstat
import DeltaFs.Merging
import DeltaFs.Mkfls
import DeltaFs.Names
import DeltaFs.Partitions
import DeltaFs.Permissions
import DeltaFs.Placement
import DeltaFs.Progress
import DeltaFs.Refinement
import DeltaFs.Relative
import DeltaFs.Replies
import DeltaFs.Requests
import DeltaFs.Resolv
import DeltaFs.Splitting
import DeltaFs.Steps
import DeltaFs.Transition
import DeltaFs.Transparent
import DeltaFs.Types
import DeltaFs.UriMap
