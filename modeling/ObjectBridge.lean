import ObjectBridge.Gallery.Members
import ObjectBridge.Heap.Session
import ObjectBridge.Session
import ObjectBridge.Proofs.SlotStore
import ObjectBridge.Proofs.StringPool
import ObjectBridge.Proofs.Tracing
import ObjectBridge.Proofs.Collection
import ObjectBridge.Proofs.Lineage
import ObjectBridge.Proofs.Registration
import ObjectBridge.Proofs.Descriptors
import ObjectBridge.Proofs.Anchors
import ObjectBridge.Proofs.References
import ObjectBridge.Proofs.Shelf
import ObjectBridge.Proofs.Calling
import ObjectBridge.Proofs.Casting
import ObjectBridge.Proofs.Identity
import ObjectBridge.Proofs.Intact
import ObjectBridge.Proofs.ListContainers
import ObjectBridge.Proofs.Turns
import ObjectBridge.Proofs.WeakSafety
import ObjectBridge.Proofs.MapContainers
import ObjectBridge.Proofs.NativeCalls
import ObjectBridge.Proofs.MapWalks
import ObjectBridge.Proofs.RoundTrips
import ObjectBridge.Proofs.FullCollections
import ObjectBridge.Proofs.PackingParity
import ObjectBridge.Proofs.SlotOwners
import ObjectBridge.Proofs.Pinned
import ObjectBridge.Proofs.Pinning
import ObjectBridge.Proofs.Overriding
import ObjectBridge.Proofs.Finality
import ObjectBridge.Proofs.CastAlgebra
import ObjectBridge.Proofs.CastChains
import ObjectBridge.Proofs.Conversions
import ObjectBridge.Proofs.MapCursors
import ObjectBridge.Proofs.Decoding
import ObjectBridge.Proofs.Holdings
import ObjectBridge.Proofs.RawEquality
import ObjectBridge.Proofs.Storing
import ObjectBridge.Proofs.Ledger
import ObjectBridge.Proofs.FailedCasts
import ObjectBridge.Proofs.Interning
import ObjectBridge.Proofs.GlobalTables
import ObjectBridge.Proofs.Validity
import ObjectBridge.Proofs.StaleWords
import ObjectBridge.Proofs.FinalizerOrder
import ObjectBridge.Proofs.Grants
import ObjectBridge.Proofs.Insertions
