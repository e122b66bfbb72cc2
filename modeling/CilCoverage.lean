import CilCoverage.Bytes
import CilCoverage.Clause
import CilCoverage.Code
import CilCoverage.CodeError
import CilCoverage.Config
import CilCoverage.Counters
import CilCoverage.CoverageMap
import CilCoverage.CoverageMap.Document
import CilCoverage.Decimal
import CilCoverage.FileSystem
import CilCoverage.Glob
import CilCoverage.HitFile
import CilCoverage.HitIds
import CilCoverage.Hits
import CilCoverage.HitsStore
import CilCoverage.Image
import CilCoverage.Instruction
import CilCoverage.Instrumenter
import CilCoverage.Json.Reader
import CilCoverage.Json.Record
import CilCoverage.Json.Value
import CilCoverage.LabelledBody
import CilCoverage.Layout
import CilCoverage.Loader
import CilCoverage.MethodBody
import CilCoverage.Module
import CilCoverage.Numeral
import CilCoverage.OpCode
import CilCoverage.OrderedMap
import CilCoverage.Path
import CilCoverage.PreparedBody
import CilCoverage.Probes
import CilCoverage.Proofs.AcceptedMaps
import CilCoverage.Proofs.Agreement
import CilCoverage.Proofs.Attribution
import CilCoverage.Proofs.Batch.Ids
import CilCoverage.Proofs.Batch.Independence
import CilCoverage.Proofs.Batch.Interleaving
import CilCoverage.Proofs.Batch.Saving
import CilCoverage.Proofs.Clauses
import CilCoverage.Proofs.Counters.Shards
import CilCoverage.Proofs.Counters.Threads
import CilCoverage.Proofs.Decisions
import CilCoverage.Proofs.Decoding
import CilCoverage.Proofs.Distinct
import CilCoverage.Proofs.Encodable
import CilCoverage.Proofs.Encoding
import CilCoverage.Proofs.Frame
import CilCoverage.Proofs.Hits.Changes
import CilCoverage.Proofs.Hits.Files
import CilCoverage.Proofs.Hits.Listing
import CilCoverage.Proofs.Hits.Names
import CilCoverage.Proofs.Hits.Sums
import CilCoverage.Proofs.Hits.Writer
import CilCoverage.Proofs.Hits.Writers
import CilCoverage.Proofs.Hits.Writing
import CilCoverage.Proofs.Idempotence
import CilCoverage.Proofs.Json.RoundTrip
import CilCoverage.Proofs.Lowering
import CilCoverage.Proofs.Machine
import CilCoverage.Proofs.MapDocument
import CilCoverage.Proofs.Modules
import CilCoverage.Proofs.Numbering
import CilCoverage.Proofs.Operands
import CilCoverage.Proofs.Outcomes
import CilCoverage.Proofs.Positions
import CilCoverage.Proofs.Prefixes
import CilCoverage.Proofs.Probes.Execution
import CilCoverage.Proofs.Probes.Placement
import CilCoverage.Proofs.Probes.Regions
import CilCoverage.Proofs.Probes.Sites
import CilCoverage.Proofs.Promotion
import CilCoverage.Proofs.Recording.Runs
import CilCoverage.Proofs.Recording.Scopes
import CilCoverage.Proofs.Relinking
import CilCoverage.Proofs.Renumbering.Bodies
import CilCoverage.Proofs.Renumbering.Layout
import CilCoverage.Proofs.Renumbering.Methods
import CilCoverage.Proofs.Renumbering.Records
import CilCoverage.Proofs.Resolution
import CilCoverage.Proofs.Rewriting
import CilCoverage.Proofs.SectionChains
import CilCoverage.Proofs.Segmentation
import CilCoverage.Proofs.Stack.Declared
import CilCoverage.Proofs.Stack.Exactness
import CilCoverage.Proofs.Stack.Neutrality
import CilCoverage.Proofs.Stack.Probed
import CilCoverage.Proofs.Stack.Walks
import CilCoverage.Proofs.StoredBody
import CilCoverage.Proofs.Summary.Counting
import CilCoverage.Proofs.Summary.Grouping
import CilCoverage.Proofs.Summary.Measure
import CilCoverage.Proofs.Summary.Places
import CilCoverage.Proofs.Summary.Tree
import CilCoverage.Proofs.Unchanged
import CilCoverage.Recorder
import CilCoverage.RecorderConfig
import CilCoverage.Result
import CilCoverage.Sha256
import CilCoverage.Shutdown
import CilCoverage.SourceFilter
import CilCoverage.Span
import CilCoverage.StackDepth
import CilCoverage.Statement
import CilCoverage.Summary
import CilCoverage.SummaryTree
import CilCoverage.Symbols
import CilCoverage.Text.Blank
import CilCoverage.Text.CaseFold
import CilCoverage.Threshold
import CilCoverage.Token
import CilCoverage.Proofs.ByteOrder
import CilCoverage.Proofs.Summary.Merging
import CilCoverage.Proofs.Globs
import CilCoverage.Proofs.Hits.Truncation
import CilCoverage.Proofs.Hooks
import CilCoverage.Proofs.Blocks
import CilCoverage.Proofs.Histories
import CilCoverage.Proofs.ModuleHistory
import CilCoverage.Proofs.RuleFiles
import CilCoverage.Proofs.Loading
