import ProgramFlow.Text.Describe
import ProgramFlow.Text.Names
import ProgramFlow.Facts.Roster
import ProgramFlow.Facts.BitSet
import ProgramFlow.Facts.Domain
import ProgramFlow.Facts.Gate
import ProgramFlow.Facts.Catalog
import ProgramFlow.Graph.Basic
import ProgramFlow.Graph.Edit
import ProgramFlow.Graph.Layer
import ProgramFlow.Graph.Adjacency
import ProgramFlow.Graph.Labelled
import ProgramFlow.Graph.Table
import ProgramFlow.Graph.Dot
import ProgramFlow.Fixpoint.PostOrder
import ProgramFlow.Fixpoint.Agenda
import ProgramFlow.Fixpoint.Topology
import ProgramFlow.Fixpoint.Solve
import ProgramFlow.Fixpoint.Gates
import ProgramFlow.Slicing.Policy
import ProgramFlow.Slicing.Closure
import ProgramFlow.Program.CallGraph
import ProgramFlow.Program.Escape
import ProgramFlow.Program.Statement
import ProgramFlow.Program.CallSlice
import ProgramFlow.Proofs.Lookup
import ProgramFlow.Proofs.Agenda
import ProgramFlow.Proofs.Sound
import ProgramFlow.Proofs.Topology
import ProgramFlow.Proofs.Run
import ProgramFlow.Proofs.Equations
import ProgramFlow.Proofs.Adjacency
import ProgramFlow.Proofs.Histories
import ProgramFlow.Proofs.LeastFixpoint
import ProgramFlow.Proofs.Gates
import ProgramFlow.Proofs.Closure
import ProgramFlow.Proofs.Escape
import ProgramFlow.Proofs.Audit
import ProgramFlow.Proofs.Edits
import ProgramFlow.Proofs.PlainGraph
import ProgramFlow.Proofs.Labels
import ProgramFlow.Proofs.Views
import ProgramFlow.Proofs.Projection
import ProgramFlow.Proofs.CallGraph
import ProgramFlow.Proofs.CallSlice
import ProgramFlow.Proofs.LeftOut
import ProgramFlow.Proofs.SelfEdges
import ProgramFlow.Proofs.Widths
import ProgramFlow.Proofs.Spread
import ProgramFlow.Proofs.Transposed
import ProgramFlow.Proofs.Unreported
import ProgramFlow.Proofs.AllOrNothing
import ProgramFlow.Proofs.Reslicing
import ProgramFlow.Proofs.Iterations
import ProgramFlow.Proofs.Growth
import ProgramFlow.Proofs.Cancellation
import ProgramFlow.Proofs.DepthFirst
import ProgramFlow.Proofs.Unreadable
import ProgramFlow.Proofs.FinishOrder
import ProgramFlow.Proofs.SinglePass
import ProgramFlow.Proofs.BreadthFirst
import ProgramFlow.Proofs.Drawings
import ProgramFlow.Proofs.Misfits
import ProgramFlow.Proofs.Quoting
import ProgramFlow.Proofs.Encoding
import ProgramFlow.Proofs.InOrder
import ProgramFlow.Proofs.Queueing
import ProgramFlow.Proofs.Distributive
import ProgramFlow.Proofs.OneWidth
import ProgramFlow.Proofs.Registration
