import Galois.Effect.Prog
import Galois.Bitmap
import Galois.Code.Cauchy
import Galois.Code.GF256
import Galois.Effect.ByteMem
import Galois.Effect.System
import Galois.IsaL
import Galois.Cluster
import Galois.FailStop
import Galois.Interleaving
import Galois.Outage
import Galois.Placement
import Galois.Code.XorShift
import Galois.Completion
import Galois.DMServer
import Galois.Directory
import Galois.FMStore
import Galois.FileSystem
import Galois.Isolation
import Galois.Coherence
import Galois.FileKey
import Galois.Opens
import Galois.Orphans
import Galois.PageUpdates
import Galois.ReedSolomon
import Galois.SizeUpdates
import Galois.Traceless
import Galois.Readdir
import Galois.Effect.Registry
import Galois.FileMap
import Galois.Identity
import Galois.Routing
import Galois.Barrier
import Galois.ReadFailures
import Galois.SelfTest
import Galois.ReadRange
import Galois.Renaming
import Galois.Attributes
import Galois.Usable
import Galois.EntryRemoval
import Galois.InodePairs
import Galois.RawListing
import Galois.CacheValues
import Galois.CacheBound
import Galois.CacheExpiry
import Galois.ClusterConfig
import Galois.Sessions
import Galois.Spelling
import Galois.Effect.Answers
import Galois.Refusals
import Galois.Segments
import Galois.Regions
import Galois.Addresses
import Galois.Contention
import Galois.Baseline
import Galois.Effect.Total
import Galois.Erpc.Packet
import Galois.Erpc.Client
import Galois.Erpc.Server
import Galois.Erpc.Datapath
import Galois.Erpc.Invariant
import Galois.Erpc.Sending
import Galois.Erpc.Enqueue
import Galois.Erpc.Resending
import Galois.Erpc.PacketLoss
import Galois.Erpc.Receiving
import Galois.Erpc.Responses
import Galois.Erpc.Serving
import Galois.Erpc.Log
import Galois.Erpc.ExactlyOnce
import Galois.Erpc.Progress
import Galois.Erpc.RpcCall
import Galois.Storage
import Galois.Durability
