import CodeAtlas.Chunk.Basic

/-!
# Statistics of chunks

## Main definitions

* `CodeAtlas.ChunkStats` — totals and extremes over a list of chunks; `ChunkStats.ofChunks`
  computes them and `ChunkStats.render` writes them on one line.
-/

set_option autoImplicit false

namespace CodeAtlas

/-- Totals and extremes over a list of chunks. -/
structure ChunkStats where
  /-- The number of chunks. -/
  totalChunks : Nat
  /-- The lines of all chunks together, counted in a word. -/
  totalLines : Nat
  /-- The tokens of all chunks together. -/
  totalTokens : Nat
  /-- The mean number of tokens, rounded down; zero without chunks. -/
  averageTokens : Nat
  /-- The fewest tokens of a chunk; zero without chunks. -/
  minTokens : Nat
  /-- The most tokens of a chunk; zero without chunks. -/
  maxTokens : Nat
  deriving DecidableEq, Repr

namespace ChunkStats

/-- The sum of numbers. -/
def total (numbers : List Nat) : Nat := numbers.foldr (· + ·) 0

/-- The statistics of a list of chunks. -/
def ofChunks (chunks : List Chunk) : ChunkStats :=
  let tokens := chunks.map Chunk.tokens
  { totalChunks := chunks.length
    totalLines := total (chunks.map Chunk.lineCount) % Word.values
    totalTokens := total tokens
    averageTokens := total tokens / chunks.length
    minTokens := tokens.min?.getD 0
    maxTokens := tokens.max?.getD 0 }

/-- The statistics on one line. -/
def render (stats : ChunkStats) : String :=
  "Chunks: " ++ stats.totalChunks.repr ++ " | Lines: " ++ stats.totalLines.repr ++
    " | Tokens: " ++ stats.totalTokens.repr ++ " | Avg: " ++ stats.averageTokens.repr ++
    " | Range: " ++ stats.minTokens.repr ++ "-" ++ stats.maxTokens.repr

end ChunkStats

end CodeAtlas
