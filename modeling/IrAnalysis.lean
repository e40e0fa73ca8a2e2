import IrAnalysis.Item
import IrAnalysis.Nullness
import IrAnalysis.Primitive
import IrAnalysis.Table
import IrAnalysis.NatSet
import IrAnalysis.Hierarchy
import IrAnalysis.Ty.Basic
import IrAnalysis.TypeFact
import IrAnalysis.AbsVal
import IrAnalysis.Graph.Instruction
import IrAnalysis.Violation
import IrAnalysis.Ty.Lattice
import IrAnalysis.Computation
import IrAnalysis.SymbolTable
import IrAnalysis.Lens.Basic
import IrAnalysis.Lens.Lookup
import IrAnalysis.Assumption.Info
import IrAnalysis.Assumption.Collection
import IrAnalysis.Graph.Basic
import IrAnalysis.Graph.Error
import IrAnalysis.Graph.Verify
import IrAnalysis.Graph.Change
import IrAnalysis.Graph.Edit
import IrAnalysis.PhiTypes.Reset
import IrAnalysis.PhiTypes.Recompute
import IrAnalysis.Settings
import IrAnalysis.Workers
import IrAnalysis.Report.Decision
import IrAnalysis.Report.Reporter
import IrAnalysis.Program
import IrAnalysis.Proofs.ClassTree
import IrAnalysis.Proofs.TypeOrder
import IrAnalysis.Proofs.TypeFlow
import IrAnalysis.Proofs.GraphViews
import IrAnalysis.Proofs.GraphChanges
import IrAnalysis.Proofs.InStep
import IrAnalysis.Proofs.Reshaping
import IrAnalysis.Proofs.Pruning
import IrAnalysis.Proofs.EditOutcomes
import IrAnalysis.Proofs.Merging
import IrAnalysis.Proofs.Reachable
import IrAnalysis.Proofs.LateChecks
import IrAnalysis.Proofs.LockStep
import IrAnalysis.Proofs.Refusals
import IrAnalysis.Proofs.Complete
import IrAnalysis.Proofs.Grounded
import IrAnalysis.Proofs.Traces
import IrAnalysis.Proofs.Resetting
import IrAnalysis.Proofs.PhiEquations
import IrAnalysis.Proofs.Recomputing
import IrAnalysis.Proofs.Updating
import IrAnalysis.Proofs.Rewriting
import IrAnalysis.Proofs.Symmetry
import IrAnalysis.Proofs.Equivariance
import IrAnalysis.Proofs.LensStack
import IrAnalysis.Proofs.Lookups
import IrAnalysis.Proofs.Meeting
import IrAnalysis.Proofs.Moving
import IrAnalysis.Proofs.UpdateOrder
import IrAnalysis.Proofs.ResetExtent
import IrAnalysis.Proofs.Narrowing
import IrAnalysis.Proofs.Evaluation
import IrAnalysis.Proofs.Publishing
import IrAnalysis.Proofs.Incoming
import IrAnalysis.Proofs.UpdateReport
import IrAnalysis.Proofs.Replacing
import IrAnalysis.Proofs.SplitMerge
import IrAnalysis.Proofs.DeadBlocks
import IrAnalysis.Proofs.PassThroughs
import IrAnalysis.Proofs.Asking
import IrAnalysis.Proofs.Raising
import IrAnalysis.Proofs.Declaring
import IrAnalysis.Proofs.Checked
import IrAnalysis.Proofs.Members
import IrAnalysis.Proofs.Gathering
import IrAnalysis.Proofs.RuleOrder
import IrAnalysis.Proofs.Forgetting
import IrAnalysis.Proofs.Interning
import IrAnalysis.Proofs.Ancestors
import IrAnalysis.Proofs.Renaming
import IrAnalysis.Proofs.Refining
import IrAnalysis.Proofs.Republishing
import IrAnalysis.Proofs.Assuming
import IrAnalysis.Proofs.TypeHeight
import IrAnalysis.Proofs.CarryingOver
import IrAnalysis.Proofs.Emptiness
import IrAnalysis.Proofs.GoingUp
import IrAnalysis.Proofs.Folding
