import ObjectGraph.Assoc
import ObjectGraph.Binding
import ObjectGraph.Calendar
import ObjectGraph.Compile.Construct
import ObjectGraph.Compile.Entity
import ObjectGraph.Compile.Filter
import ObjectGraph.Compile.FollowUp
import ObjectGraph.Compile.Fragment
import ObjectGraph.Compile.Hierarchy
import ObjectGraph.Compile.Select
import ObjectGraph.Compile.Update
import ObjectGraph.Config
import ObjectGraph.Constraint.Basic
import ObjectGraph.Constraint.Condition
import ObjectGraph.Constraint.Request
import ObjectGraph.Context.Basic
import ObjectGraph.Context.Compact
import ObjectGraph.Context.Parse
import ObjectGraph.Decode.Coerce
import ObjectGraph.Decode.Graph
import ObjectGraph.Decode.Group
import ObjectGraph.Decode.Lexical
import ObjectGraph.Decode.Order
import ObjectGraph.Decode.Scope
import ObjectGraph.Decode.Tabular
import ObjectGraph.Endpoint
import ObjectGraph.Error
import ObjectGraph.Instant
import ObjectGraph.Iri
import ObjectGraph.Json.Inspect
import ObjectGraph.Json.Parser
import ObjectGraph.Json.Printer
import ObjectGraph.Json.Record
import ObjectGraph.Json.Value
import ObjectGraph.Literal
import ObjectGraph.Mapper
import ObjectGraph.Namespaces
import ObjectGraph.Node
import ObjectGraph.Number.Binary64
import ObjectGraph.Number.Notation
import ObjectGraph.Number.Range
import ObjectGraph.Number.Shortest
import ObjectGraph.Number.Stepwise
import ObjectGraph.Quad
import ObjectGraph.Schema
import ObjectGraph.Sparql.Printer
import ObjectGraph.Sparql.Query
import ObjectGraph.Sparql.Term
import ObjectGraph.Sparql.Token
import ObjectGraph.Text.Alphanumeric
import ObjectGraph.Text.Blank
import ObjectGraph.Text.Printable
import ObjectGraph.Text.Quoted
import ObjectGraph.Variable.Allocator
import ObjectGraph.Variable.Bijection
import ObjectGraph.Vocabulary
import ObjectGraph.Proofs.Compile.Subject
import ObjectGraph.Proofs.Compile.Tables
import ObjectGraph.Proofs.Sparql.Renaming
import ObjectGraph.Proofs.Compile.Draft
import ObjectGraph.Proofs.Compile.Demand
import ObjectGraph.Proofs.Compile.UpdateFilters
import ObjectGraph.Proofs.Context.Following
import ObjectGraph.Proofs.Context.Settled
import ObjectGraph.Proofs.Decode.Instances
import ObjectGraph.Proofs.Decode.PlainContext
import ObjectGraph.Proofs.Decode.Terms
import ObjectGraph.Proofs.Compile.Template
import ObjectGraph.Proofs.Decode.Agreement
import ObjectGraph.Proofs.Sparql.Semantics
import ObjectGraph.Proofs.Compile.Coverage
import ObjectGraph.Proofs.Compile.PinnedUpdate
import ObjectGraph.Proofs.Compile.Slots
import ObjectGraph.Proofs.Compile.Collisions
import ObjectGraph.Proofs.Namespaces
import ObjectGraph.Proofs.Sparql.Styles
import ObjectGraph.Proofs.Compile.FollowUp
import ObjectGraph.Proofs.Mapper.Expansion
import ObjectGraph.Proofs.Decode.Identity
import ObjectGraph.Proofs.Mapper.Subjects
import ObjectGraph.Proofs.Decode.Cells
import ObjectGraph.Proofs.Decode.Tables
import ObjectGraph.Proofs.Variable.Names
import ObjectGraph.Proofs.Compile.Growth
import ObjectGraph.Proofs.Compile.Conditions
import ObjectGraph.Proofs.Compile.SharedNames
import ObjectGraph.Proofs.Context.Words
import ObjectGraph.Proofs.Decode.Linking
import ObjectGraph.Proofs.Decode.Reading
import ObjectGraph.Proofs.Decode.Links
import ObjectGraph.Proofs.Json.Equality
import ObjectGraph.Proofs.Decode.Nesting
import ObjectGraph.Proofs.Decode.Gathering
import ObjectGraph.Proofs.Decode.SharedNames
import ObjectGraph.Proofs.Decode.Merging
import ObjectGraph.Proofs.Decode.Answers
import ObjectGraph.Proofs.Compile.Isolation
import ObjectGraph.Proofs.Sparql.Grammar
import ObjectGraph.Proofs.Sparql.Paths
import ObjectGraph.Proofs.Sparql.Trees
import ObjectGraph.Proofs.Compile.SafeUpdates
import ObjectGraph.Proofs.Decode.Partition
import ObjectGraph.Proofs.Sparql.IriTokens
import ObjectGraph.Proofs.Sparql.Atoms
import ObjectGraph.Proofs.Compile.PlacedAtoms
import ObjectGraph.Proofs.Compile.DocumentAtoms
import ObjectGraph.Proofs.Compile.WrittenIris
import ObjectGraph.Proofs.Sparql.Literals
import ObjectGraph.Proofs.Compile.ClosedLiterals
import ObjectGraph.Proofs.Sparql.Scope
import ObjectGraph.Proofs.Compile.Subselects
import ObjectGraph.Proofs.Compile.Exchange
import ObjectGraph.Proofs.Compile.FoundUpdate
import ObjectGraph.Proofs.Compile.JoinedNames
import ObjectGraph.Proofs.Compile.TwoRuns
import ObjectGraph.Proofs.Compile.Deletion
import ObjectGraph.Proofs.Sparql.Triples
import ObjectGraph.Proofs.Sparql.Productions
import ObjectGraph.Proofs.Sparql.Requests
import ObjectGraph.Proofs.Compile.Comparisons
import ObjectGraph.Proofs.Compile.ExecutableUpdates
import ObjectGraph.Proofs.Compile.Placement
import ObjectGraph.Proofs.Compile.Deferral
import ObjectGraph.Proofs.Mapper.RootArrays
import ObjectGraph.Proofs.Compile.Membership
import ObjectGraph.Proofs.Sparql.Blocks
import ObjectGraph.Proofs.Compile.ResolvedTypes
import ObjectGraph.Proofs.Constraint.Building
import ObjectGraph.Proofs.Constraint.KnownKeys
import ObjectGraph.Proofs.Constraint.Strictness
import ObjectGraph.Proofs.Compile.Shaping
import ObjectGraph.Proofs.Sparql.Assignments
import ObjectGraph.Proofs.Compile.ComputedKeys
import ObjectGraph.Proofs.Compile.RequiredNames
import ObjectGraph.Proofs.Compile.ComputedInSubselects
import ObjectGraph.Proofs.Number.Digits
import ObjectGraph.Proofs.Number.Rounding
import ObjectGraph.Proofs.Number.Point
import ObjectGraph.Proofs.Number.Numerals
import ObjectGraph.Proofs.Decode.Written
import ObjectGraph.Proofs.LongestStem
import ObjectGraph.Proofs.Compile.Relations
import ObjectGraph.Proofs.Decode.Ordering
import ObjectGraph.Proofs.Decode.Sorting
import ObjectGraph.Proofs.Decode.Sizes
import ObjectGraph.Proofs.Decode.SortedGraphs
import ObjectGraph.Proofs.Instant.Dates
import ObjectGraph.Proofs.Instant.Padding
import ObjectGraph.Proofs.Instant.Timestamps
import ObjectGraph.Proofs.Instant.Moments
import ObjectGraph.Proofs.Instant.Texts
import ObjectGraph.Proofs.Instant.NormalForms
import ObjectGraph.Proofs.NodeMap
import ObjectGraph.Proofs.Context.ShortNames
import ObjectGraph.Proofs.Context.Compactor
import ObjectGraph.Proofs.Context.Returning
import ObjectGraph.Proofs.Decode.References
import ObjectGraph.Proofs.Decode.Abbreviations
import ObjectGraph.Proofs.Context.Circles
import ObjectGraph.Proofs.Context.FlatContexts
import ObjectGraph.Proofs.Context.PropertyNames
import ObjectGraph.Proofs.Decode.Shadowing
import ObjectGraph.Proofs.Decode.KeptProperties
import ObjectGraph.Proofs.Decode.Forms
import ObjectGraph.Proofs.Variable.Histories
import ObjectGraph.Proofs.Variable.Pairs
import ObjectGraph.Proofs.Json.Reordering
import ObjectGraph.Proofs.Context.KeyOrder
import ObjectGraph.Proofs.Sparql.Scanning
import ObjectGraph.Proofs.Sparql.Chains
