import VertexFetch.Cache
import VertexFetch.Call
import VertexFetch.Channel
import VertexFetch.Code
import VertexFetch.Code.Text
import VertexFetch.Conversion
import VertexFetch.Draft
import VertexFetch.Draw
import VertexFetch.Event
import VertexFetch.Fault
import VertexFetch.Fetch.Attributes
import VertexFetch.Fetch.Indices
import VertexFetch.Fetch.Rows
import VertexFetch.Fetch.Window
import VertexFetch.Format
import VertexFetch.Graph
import VertexFetch.Graph.Order
import VertexFetch.Graph.Registers
import VertexFetch.Graph.Sweep
import VertexFetch.Graph.Value
import VertexFetch.IndexWidth
import VertexFetch.Kernel
import VertexFetch.Lanes
import VertexFetch.Layout
import VertexFetch.Machine
import VertexFetch.Op
import VertexFetch.Op.Eval
import VertexFetch.Pass
import VertexFetch.Pass.DeadStores
import VertexFetch.Pass.Folding
import VertexFetch.Pass.Promotion
import VertexFetch.Pass.Selects
import VertexFetch.Pass.Sharing
import VertexFetch.Proofs.Batch
import VertexFetch.Proofs.Bounds
import VertexFetch.Proofs.Cache
import VertexFetch.Proofs.Call
import VertexFetch.Proofs.Call.Padding
import VertexFetch.Proofs.Code.Text
import VertexFetch.Proofs.Code.Words
import VertexFetch.Proofs.Draft
import VertexFetch.Proofs.Draw
import VertexFetch.Proofs.Fetch.Decode
import VertexFetch.Proofs.Fetch.Gathering
import VertexFetch.Proofs.Fetch.Indices
import VertexFetch.Proofs.Fetch.Loading
import VertexFetch.Proofs.Fetch.Memory
import VertexFetch.Proofs.Fetch.Rows
import VertexFetch.Proofs.Fetch.Window
import VertexFetch.Proofs.Gathered
import VertexFetch.Proofs.Graph.Allocation
import VertexFetch.Proofs.Graph.Holds
import VertexFetch.Proofs.Graph.Images
import VertexFetch.Proofs.Graph.Lowering
import VertexFetch.Proofs.Graph.Order
import VertexFetch.Proofs.Graph.Pressure
import VertexFetch.Proofs.Graph.Settled
import VertexFetch.Proofs.Graph.Sound
import VertexFetch.Proofs.Graph.Sweep
import VertexFetch.Proofs.Graph.Traversal
import VertexFetch.Proofs.Graph.Value
import VertexFetch.Proofs.Graph.Visits
import VertexFetch.Proofs.Indexed
import VertexFetch.Proofs.Kernel
import VertexFetch.Proofs.Lane
import VertexFetch.Proofs.Lanes
import VertexFetch.Proofs.LargeStreams
import VertexFetch.Proofs.Layout
import VertexFetch.Proofs.Loaded
import VertexFetch.Proofs.NodeCount
import VertexFetch.Proofs.NormalForm
import VertexFetch.Proofs.Packing
import VertexFetch.Proofs.Pass
import VertexFetch.Proofs.Pass.Apart
import VertexFetch.Proofs.Pass.DeadStores
import VertexFetch.Proofs.Pass.Folding
import VertexFetch.Proofs.Pass.Masks
import VertexFetch.Proofs.Pass.Merging
import VertexFetch.Proofs.Pass.Promotion
import VertexFetch.Proofs.Pass.Queries
import VertexFetch.Proofs.Pass.Resting
import VertexFetch.Proofs.Pass.Selects
import VertexFetch.Proofs.Pass.Sharing
import VertexFetch.Proofs.Pass.Uniformity
import VertexFetch.Proofs.Refusal
import VertexFetch.Proofs.Single
import VertexFetch.Proofs.Single.Half
import VertexFetch.Proofs.Single.Nearest
import VertexFetch.Proofs.StoreOrder
import VertexFetch.Proofs.Stores
import VertexFetch.Proofs.Strategies
import VertexFetch.Proofs.Support
import VertexFetch.Proofs.Unchecked
import VertexFetch.Proofs.View
import VertexFetch.Proofs.Widths
import VertexFetch.Proofs.Word
import VertexFetch.Selector
import VertexFetch.Single
import VertexFetch.Single.Decimal
import VertexFetch.Word
