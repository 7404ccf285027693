import BankedMemory.Context.Call
import BankedMemory.Proofs.Arena.Addresses
import BankedMemory.Proofs.Arena.Bounds
import BankedMemory.Proofs.Arena.FirstFit
import BankedMemory.Proofs.Arena.Growth
import BankedMemory.Proofs.Arena.Lowering
import BankedMemory.Proofs.Arena.Outlines
import BankedMemory.Proofs.Arena.Relocation
import BankedMemory.Proofs.Arena.Reserved
import BankedMemory.Proofs.Arena.Tiling
import BankedMemory.Proofs.Checkpoint.AllOrNothing
import BankedMemory.Proofs.Checkpoint.Bookkeeping
import BankedMemory.Proofs.Checkpoint.Depth
import BankedMemory.Proofs.Checkpoint.Failing
import BankedMemory.Proofs.Checkpoint.Freeing
import BankedMemory.Proofs.Checkpoint.Reclaiming
import BankedMemory.Proofs.Checkpoint.Snapshot
import BankedMemory.Proofs.Checkpoint.Windows
import BankedMemory.Proofs.Client.Chains
import BankedMemory.Proofs.Client.Lists
import BankedMemory.Proofs.Context.Banks
import BankedMemory.Proofs.Context.Derived
import BankedMemory.Proofs.Context.Journals
import BankedMemory.Proofs.Context.Stores
import BankedMemory.Proofs.Object.Canonical
import BankedMemory.Proofs.Object.Storage
import BankedMemory.Proofs.Real.Shortest
import BankedMemory.Proofs.Stack.Failing
import BankedMemory.Proofs.Stack.Listing
