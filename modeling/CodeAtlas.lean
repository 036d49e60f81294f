import CodeAtlas.Admission
import CodeAtlas.Chunk.Basic
import CodeAtlas.Chunk.Budget
import CodeAtlas.Chunk.Chunker
import CodeAtlas.Chunk.Error
import CodeAtlas.Chunk.Merge
import CodeAtlas.Chunk.Region
import CodeAtlas.Chunk.Stats
import CodeAtlas.Chunk.Target
import CodeAtlas.Chunk.Window
import CodeAtlas.Extract.Category
import CodeAtlas.Extract.Entity
import CodeAtlas.Extract.Error
import CodeAtlas.Extract.Extractor
import CodeAtlas.Extract.Limits
import CodeAtlas.Extract.Steps
import CodeAtlas.Extract.Walk
import CodeAtlas.Graph.Basic
import CodeAtlas.Graph.Query
import CodeAtlas.Graph.Slab
import CodeAtlas.Graph.Table
import CodeAtlas.Json.Basic
import CodeAtlas.Json.Printer
import CodeAtlas.Json.Reader
import CodeAtlas.Language.Basic
import CodeAtlas.Language.Label
import CodeAtlas.Language.NodeKinds
import CodeAtlas.Log
import CodeAtlas.ParseTree.Basic
import CodeAtlas.ParseTree.Cursor
import CodeAtlas.ParseTree.Preorder
import CodeAtlas.ParseTree.Rows
import CodeAtlas.Parser.Pool
import CodeAtlas.Parser.Shared
import CodeAtlas.Path.Canonical
import CodeAtlas.Path.Import
import CodeAtlas.Path.Name
import CodeAtlas.Proofs.Answers
import CodeAtlas.Proofs.Arrangement
import CodeAtlas.Proofs.ChunkBudget
import CodeAtlas.Proofs.Chunking
import CodeAtlas.Proofs.Convergence
import CodeAtlas.Proofs.Coverage
import CodeAtlas.Proofs.GraphInvariant
import CodeAtlas.Proofs.GraphSteps
import CodeAtlas.Proofs.Grounding
import CodeAtlas.Proofs.Ingestion
import CodeAtlas.Proofs.Isolation
import CodeAtlas.Proofs.Lines
import CodeAtlas.Proofs.Links
import CodeAtlas.Proofs.NodeSet
import CodeAtlas.Proofs.Removal
import CodeAtlas.Proofs.Slab
import CodeAtlas.Proofs.Windows
import CodeAtlas.Scan
import CodeAtlas.SourceFile
import CodeAtlas.Text.Binary
import CodeAtlas.Text.Blank
import CodeAtlas.Text.Lines
import CodeAtlas.Text.Sha256
import CodeAtlas.Text.Slice
import CodeAtlas.Text.Tokens
import CodeAtlas.Toml.Reader
import CodeAtlas.Toml.Scalar
import CodeAtlas.Toml.Value
import CodeAtlas.Wire.Chunk
import CodeAtlas.Wire.Extraction
import CodeAtlas.Wire.Record
import CodeAtlas.Wire.Settings
import CodeAtlas.Wire.Tree
import CodeAtlas.Word
import CodeAtlas.Proofs.Reingestion
import CodeAtlas.Proofs.Recursion
import CodeAtlas.Proofs.References
import CodeAtlas.Proofs.Members
import CodeAtlas.Proofs.Parts
import CodeAtlas.Proofs.Numbering
import CodeAtlas.Proofs.Separation
import CodeAtlas.Proofs.TargetOrder
import CodeAtlas.Proofs.Pieces
import CodeAtlas.Proofs.Requests
import CodeAtlas.Proofs.Turns
import CodeAtlas.Proofs.Memoization
import CodeAtlas.Proofs.Retries
import CodeAtlas.Proofs.Shingles
import CodeAtlas.Proofs.Owners
import CodeAtlas.Proofs.Identity
import CodeAtlas.Proofs.Comments
import CodeAtlas.Proofs.Uncommented
import CodeAtlas.Proofs.Mergers
import CodeAtlas.Proofs.Stability
import CodeAtlas.Proofs.Fallback
import CodeAtlas.Proofs.Demand
import CodeAtlas.Proofs.Calls
import CodeAtlas.Proofs.Directories
import CodeAtlas.Proofs.ImportDirectories
import CodeAtlas.Proofs.PackageLevels
import CodeAtlas.Proofs.OverlapTail
import CodeAtlas.Proofs.Topmost
import CodeAtlas.Proofs.WireForms
import CodeAtlas.Proofs.LineNumbers
