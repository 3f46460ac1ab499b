import FlowFacts.Assignability
import FlowFacts.Body.Basic
import FlowFacts.Body.Draft
import FlowFacts.Body.Edit
import FlowFacts.Body.Effect
import FlowFacts.Body.Knowledge
import FlowFacts.Body.Opcode
import FlowFacts.Body.Value
import FlowFacts.Closure
import FlowFacts.Escape
import FlowFacts.Fact.Findings
import FlowFacts.Fact.Summary
import FlowFacts.Fact.Value
import FlowFacts.Fault
import FlowFacts.FieldContents.Constructor
import FlowFacts.FieldContents.FieldSet
import FlowFacts.FieldContents.Reads
import FlowFacts.FieldContents.Static
import FlowFacts.FieldContents.Visibility
import FlowFacts.Flow.Dominators
import FlowFacts.Flow.Graph
import FlowFacts.Flow.Marks
import FlowFacts.Flow.Postorder
import FlowFacts.Independence.Dependencies
import FlowFacts.Independence.Explanation
import FlowFacts.Independence.Exploration
import FlowFacts.Independence.Watch
import FlowFacts.Initialization.Session
import FlowFacts.Initialization.Trigger
import FlowFacts.Inlining.Constraint
import FlowFacts.Inlining.Signature
import FlowFacts.Inlining.Walk
import FlowFacts.Program.Basic
import FlowFacts.Program.Hierarchy
import FlowFacts.Program.Library
import FlowFacts.Program.Usage
import FlowFacts.Table
import FlowFacts.Type.Descriptor
import FlowFacts.Type.Static
import FlowFacts.Proofs.Paths
import FlowFacts.Proofs.Postorder
import FlowFacts.Proofs.Dominance
import FlowFacts.Proofs.Accepted
import FlowFacts.Proofs.DominatorTree
import FlowFacts.Proofs.ConstraintMeaning
import FlowFacts.Proofs.Copies
import FlowFacts.Proofs.TrivialExits
import FlowFacts.Proofs.Closures
import FlowFacts.Proofs.Marks
import FlowFacts.Proofs.InitializationPaths
import FlowFacts.Proofs.StaticEntries
import FlowFacts.Proofs.StaticWrites
import FlowFacts.Proofs.Edits
import FlowFacts.Proofs.SessionCaches
import FlowFacts.Proofs.Aliases
import FlowFacts.Proofs.ExitFacts
import FlowFacts.Proofs.Explanations
import FlowFacts.Proofs.Publication
import FlowFacts.Proofs.ConstraintLaws
import FlowFacts.Proofs.LastingInitialization
import FlowFacts.Proofs.EscapeFlow
import FlowFacts.Proofs.CopyChains
import FlowFacts.Proofs.DraftErrors
import FlowFacts.Proofs.IndependentValues
import FlowFacts.Proofs.ConstructorWrites
import FlowFacts.Proofs.Subtyping
import FlowFacts.Proofs.StaticTypeOrder
import FlowFacts.Proofs.DominatorIteration
import FlowFacts.Proofs.FieldSets
import FlowFacts.Proofs.FieldReads
import FlowFacts.Proofs.Worklists
import FlowFacts.Proofs.ReadPaths
import FlowFacts.Proofs.Condensation
import FlowFacts.Proofs.EscapeClosure
import FlowFacts.Proofs.ModificationPaths
import FlowFacts.Proofs.AskedValues
import FlowFacts.Proofs.InitializationSearch
import FlowFacts.Proofs.InitializationEvidence
import FlowFacts.Proofs.ArgumentWays
import FlowFacts.Proofs.InitializationClosure
import FlowFacts.Proofs.RaisedThresholds
import FlowFacts.Proofs.NormalForms
import FlowFacts.Proofs.Substitution
import FlowFacts.Proofs.Superclasses
import FlowFacts.Proofs.SignatureChanges
import FlowFacts.Proofs.RecognizedTests
import FlowFacts.Proofs.TreeShapes
import FlowFacts.Proofs.CallSites
import FlowFacts.Proofs.InitializerAnswers
import FlowFacts.Proofs.ConstantWrites
import FlowFacts.Proofs.WrittenValues
import FlowFacts.Proofs.EnumArrays
import FlowFacts.Proofs.FieldSetLattice
import FlowFacts.Proofs.Interning
import FlowFacts.Proofs.NarrowedTypes
import FlowFacts.Proofs.ForwardingConstructors
import FlowFacts.Proofs.DominatorChains
import FlowFacts.Proofs.DepthFirstOrder
import FlowFacts.Proofs.Indexes
