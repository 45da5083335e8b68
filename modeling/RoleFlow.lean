import RoleFlow.Main
import RoleFlow.Service.Agent
import RoleFlow.Service.Server
import RoleFlow.Service.Web
import RoleFlow.Graph.Draft
import RoleFlow.Source.Stream
import RoleFlow.Proofs.Parsing
import RoleFlow.Proofs.Walks
import RoleFlow.Proofs.Building
import RoleFlow.Proofs.Trips
import RoleFlow.Proofs.Links
import RoleFlow.Proofs.Contents
import RoleFlow.Proofs.NodeData
import RoleFlow.Proofs.Bindings
import RoleFlow.Proofs.Courses
import RoleFlow.Proofs.Straight
import RoleFlow.Proofs.SecondTrip
import RoleFlow.Proofs.Numbers
import RoleFlow.Proofs.Layout
import RoleFlow.Proofs.Written
import RoleFlow.Proofs.Accepted
import RoleFlow.Proofs.References
import RoleFlow.Proofs.CleanGraphs
import RoleFlow.Proofs.Editing
import RoleFlow.Proofs.Dangling
import RoleFlow.Proofs.Formatting
import RoleFlow.Proofs.Respacing
import RoleFlow.Proofs.Concatenation
import RoleFlow.Proofs.FirstErrors
import RoleFlow.Proofs.Structure
import RoleFlow.Proofs.Soundness
import RoleFlow.Proofs.Disconnecting
import RoleFlow.Proofs.Services
import RoleFlow.Proofs.Parts
import RoleFlow.Proofs.Greedy
import RoleFlow.Proofs.Extension
import RoleFlow.Proofs.Renaming
import RoleFlow.Proofs.Scanning
import RoleFlow.Proofs.Cursors
import RoleFlow.Proofs.Warnings
import RoleFlow.Proofs.Flows
import RoleFlow.Proofs.Losses
import RoleFlow.Proofs.LineEnds
import RoleFlow.Proofs.Literals
import RoleFlow.Proofs.Dumps
import RoleFlow.Proofs.Adjacency
import RoleFlow.Proofs.Diagnostics
import RoleFlow.Proofs.Termination
