import ScriptMachine.Host
import ScriptMachine.Listing
import ScriptMachine.Settings.Source
import ScriptMachine.Proofs.ArenaSlots
import ScriptMachine.Proofs.ArenaHistories
import ScriptMachine.Proofs.NumericEquality
import ScriptMachine.Proofs.PoolTexts
import ScriptMachine.Proofs.KeyEquality
import ScriptMachine.Proofs.Table.Probing
import ScriptMachine.Proofs.Table.Shape
import ScriptMachine.Proofs.Table.Runs
import ScriptMachine.Proofs.Table.Termination
import ScriptMachine.Proofs.Table.Bindings
import ScriptMachine.Proofs.Table.FiniteMap
import ScriptMachine.Proofs.Heap.Marking
import ScriptMachine.Proofs.Heap.Tracing
import ScriptMachine.Proofs.Machine.Collection
import ScriptMachine.Proofs.Heap.Growth
import ScriptMachine.Proofs.Table.References
import ScriptMachine.Proofs.Machine.Births
import ScriptMachine.Proofs.Machine.Sessions
import ScriptMachine.Proofs.Machine.Coverage
import ScriptMachine.Proofs.Machine.Judgement
import ScriptMachine.Proofs.Machine.Cover.State
import ScriptMachine.Proofs.Machine.Cover.Unwinding
import ScriptMachine.Proofs.Machine.Cover.Call
import ScriptMachine.Proofs.Machine.Cover.Member
import ScriptMachine.Proofs.Machine.Cover.Element
import ScriptMachine.Proofs.Machine.Cover.Operator
import ScriptMachine.Proofs.Machine.Cover.Step
import ScriptMachine.Proofs.Machine.Construction
import ScriptMachine.Proofs.Machine.Liveness
import ScriptMachine.Proofs.Machine.StockNatives
import ScriptMachine.Proofs.Machine.Idleness
import ScriptMachine.Proofs.Code.Sufficiency
import ScriptMachine.Proofs.Code.RegionExits
import ScriptMachine.Proofs.Machine.Turn
import ScriptMachine.Proofs.Machine.Coherence
import ScriptMachine.Proofs.Machine.Ledger
import ScriptMachine.Proofs.Machine.Shifts
import ScriptMachine.Proofs.Code.Execution
import ScriptMachine.Proofs.Code.Assembling
import ScriptMachine.Proofs.Machine.Footing.Instruction
import ScriptMachine.Proofs.Machine.Activations
import ScriptMachine.Proofs.Machine.Captures.Contents
import ScriptMachine.Proofs.Machine.Captures.Step
import ScriptMachine.Proofs.Machine.SharedVariables
import ScriptMachine.Proofs.Table.Contents
import ScriptMachine.Proofs.Heap.Walks
import ScriptMachine.Proofs.Machine.Renaming
import ScriptMachine.Proofs.Machine.Renaming.Tables
import ScriptMachine.Proofs.Machine.Renaming.Heaps
import ScriptMachine.Proofs.Machine.Renaming.Queries
import ScriptMachine.Proofs.Interning
import ScriptMachine.Proofs.Code.Operands
import ScriptMachine.Proofs.Code.Agreement
import ScriptMachine.Proofs.Machine.Lineage
import ScriptMachine.Proofs.Machine.Safety
import ScriptMachine.Proofs.Machine.Safety.Data
import ScriptMachine.Proofs.Machine.Safety.Call
import ScriptMachine.Proofs.Machine.Safety.Member
import ScriptMachine.Proofs.Machine.Safety.Instruction
import ScriptMachine.Proofs.Machine.StackHeight
import ScriptMachine.Proofs.Machine.BoundMethods
import ScriptMachine.Proofs.Machine.Safety.Session
import ScriptMachine.Proofs.Machine.ClassChains
import ScriptMachine.Proofs.Machine.ArgumentBinding
import ScriptMachine.Proofs.Machine.Propagation
import ScriptMachine.Proofs.Machine.FusedInvocation
import ScriptMachine.Proofs.Machine.Transparency
import ScriptMachine.Proofs.Table.Lookups
import ScriptMachine.Proofs.Heap.NearestClass
import ScriptMachine.Proofs.Machine.Facets
import ScriptMachine.Proofs.Machine.PropertyWrites
import ScriptMachine.Proofs.Machine.ReadBack
import ScriptMachine.Proofs.Machine.InstanceDefaults
import ScriptMachine.Proofs.Machine.Inheritance
import ScriptMachine.Proofs.Machine.PrivateNames
import ScriptMachine.Proofs.Table.PeakCapacity
import ScriptMachine.Proofs.Positions
import ScriptMachine.Proofs.Machine.ArrayPositions
import ScriptMachine.Proofs.Machine.SlicedContents
import ScriptMachine.Proofs.Machine.UntouchedDicts
import ScriptMachine.Proofs.Table.InsertionOrder
import ScriptMachine.Proofs.Machine.DictWork
import ScriptMachine.Proofs.Machine.InsertionOrder
import ScriptMachine.Proofs.Code.Listings
import ScriptMachine.Proofs.Code.WellFormedness
import ScriptMachine.Proofs.Code.NarrowedOperands
import ScriptMachine.Proofs.Machine.Confinement
import ScriptMachine.Proofs.Machine.Confinement.Operations
import ScriptMachine.Proofs.Machine.Confinement.Calls
import ScriptMachine.Proofs.Table.ContentLookup
import ScriptMachine.Proofs.Machine.GlobalBindings
import ScriptMachine.Proofs.Machine.GlobalNames
import ScriptMachine.Proofs.Machine.Captures.Sessions
import ScriptMachine.Proofs.Machine.Rendering
import ScriptMachine.Proofs.Machine.Reentry
