import VerilogOutline.Design
import VerilogOutline.Files
import VerilogOutline.Main
import VerilogOutline.Proofs.Sighting.Boundary
import VerilogOutline.Proofs.Outline.Description
import VerilogOutline.Proofs.Comment.Placed
import VerilogOutline.Proofs.Port.Settled
import VerilogOutline.Proofs.Port.Unreadable
import VerilogOutline.Proofs.Outline.Clean
import VerilogOutline.Proofs.Design.Registered
import VerilogOutline.Proofs.InstanceNames.LeastFree
import VerilogOutline.Proofs.InstanceNames.Repeated
import VerilogOutline.Proofs.Design.Lineage
import VerilogOutline.Proofs.InstanceNames.Interleaved
import VerilogOutline.Proofs.Design.Routed
import VerilogOutline.Proofs.Outline.Strict
import VerilogOutline.Proofs.InstanceNames.History
import VerilogOutline.Proofs.Design.Undo
import VerilogOutline.Proofs.Region.Grammar
import VerilogOutline.Proofs.Outline.Undecodable
import VerilogOutline.Proofs.Parameter.RoundTrip
import VerilogOutline.Proofs.Design.Frame
import VerilogOutline.Proofs.Outline.Account
import VerilogOutline.Proofs.Numbered.Spelling
import VerilogOutline.Proofs.InstanceNames.Search
import VerilogOutline.Proofs.Sighting.Offset
