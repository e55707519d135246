import PagedMap.Proofs.Block.Divided
import PagedMap.Proofs.Block.Edits
import PagedMap.Proofs.Block.Halves
import PagedMap.Proofs.Block.Separators
import PagedMap.Proofs.Block.Walk
import PagedMap.Proofs.Block.Written
import PagedMap.Proofs.Codec.Separator
import PagedMap.Proofs.Json.Accepted
import PagedMap.Proofs.Json.Options
import PagedMap.Proofs.Store.Allocation
import PagedMap.Proofs.Store.Sections
import PagedMap.Proofs.Tree.Alike
import PagedMap.Proofs.Tree.Damaged
import PagedMap.Proofs.Tree.Failure
import PagedMap.Proofs.Tree.Faultless
import PagedMap.Proofs.Tree.Foreign
import PagedMap.Proofs.Tree.Full
import PagedMap.Proofs.Tree.Initialised
import PagedMap.Proofs.Tree.Occupancy
import PagedMap.Proofs.Tree.Selection
import PagedMap.Proofs.Workspace.Resumed
