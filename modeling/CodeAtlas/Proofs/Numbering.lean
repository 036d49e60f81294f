import Mathlib.Data.List.Basic
import CodeAtlas.Proofs.Parts

/-!
# Chunks are numbered, in order and on lines of the file

The chunks of a file are numbered from zero on and follow one another in the order of their first
lines. Each lies on lines of the file, and its hash and its identifier are those of the content and
the lines that it has in the end, after all mergers. This holds along every tree, even one of
another text: where the bytes of a tree are no slices of the text, the file is not cut along it.

Lines are counted in words, so a difference of line numbers must not fall below zero. None does:
merging with differences that can fail gives the same chunks as merging with differences that stop
at zero.

## Main definitions

* `CodeAtlas.Chunk.BelongsTo` — a chunk lies on lines of a text and carries its derived parts.
* `CodeAtlas.Chunk.InSequence` — chunks are numbered, in order, and belong to a text.
* `CodeAtlas.Chunk.mergeAll?` — merging with differences of words.
* `CodeAtlas.Chunker.roughCut` — the chunks of a file before they are arranged.

## Main results

* `CodeAtlas.Chunk.mergeAll?_eq_some` — no difference falls below zero while chunks are merged.
* `CodeAtlas.Chunker.chunks_chunkFile_eq` — the chunks of a file are its rough chunks, arranged.
* `CodeAtlas.Chunker.inSequence_chunkFile` — which files have chunks, and how these are numbered.
-/

set_option autoImplicit false

namespace CodeAtlas

open String (utf8Len)

namespace Word

/-- The difference of two words, if it does not fall below zero. -/
def sub? (a b : Nat) : Option Nat := if b ≤ a then some (a - b) else none

/-- The difference exists if the second word is no larger. -/
private lemma sub?_of_le {a b : Nat} (h : b ≤ a) : sub? a b = some (a - b) := if_pos h

end Word

namespace Chunk

/-! ## Derived parts -/

/-- A chunk belongs to a file: it lies on lines of the file, and its path, its hash and its
identifier are those that the file, its content and its lines give. -/
structure BelongsTo (path text : String) (chunk : Chunk) : Prop where
  one_le_startLine : 1 ≤ chunk.startLine
  startLine_le : chunk.startLine ≤ chunk.endLine
  endLine_le : chunk.endLine ≤ Text.lineCount text
  path_eq : chunk.path = path
  contentHash_eq : chunk.contentHash = Text.contentHash chunk.content
  id_eq : chunk.id = path ++ ":" ++ chunk.startLine.repr ++ "-" ++ chunk.endLine.repr ++ ":" ++
    String.ofList ((Text.contentHash chunk.content).toList.take 12)

/-- A chunk that is created on lines of a file belongs to it. -/
lemma belongsTo_create {path text : String} {startLine endLine : Nat} (hPos : 1 ≤ startLine)
    (hLe : startLine ≤ endLine) (hLines : endLine ≤ Text.lineCount text) (content : String)
    (kind : ChunkKind) (metadata : ChunkMetadata) :
    BelongsTo path text (create path startLine endLine content kind metadata) :=
  ⟨hPos, hLe, hLines, rfl, rfl, rfl⟩

/-- The number of a chunk does not decide where it belongs. -/
private lemma BelongsTo.number {path text : String} {chunk : Chunk} (h : chunk.BelongsTo path text)
    (index : Nat) : BelongsTo path text { chunk with index } :=
  ⟨h.one_le_startLine, h.startLine_le, h.endLine_le, h.path_eq, h.contentHash_eq, h.id_eq⟩

/-- A merger of two chunks of a file belongs to the file: its parts are derived anew. -/
private lemma BelongsTo.merge {path text : String} {chunk next : Chunk}
    (h : chunk.BelongsTo path text) (hNext : next.BelongsTo path text) :
    BelongsTo path text (merge chunk next) := by
  rw [Chunk.merge, h.path_eq]
  refine belongsTo_create h.one_le_startLine ?_ ?_ _ _ _
  · exact Nat.le_trans h.startLine_le (Nat.le_max_left _ _)
  · exact Nat.max_le.2 ⟨h.endLine_le, hNext.endLine_le⟩

/-- The chunk of a window of a part of the text belongs to the file. -/
lemma belongsTo_of_mem_split {budget : Budget} {text : String} {before part after : List Char}
    (hText : text.toList = before ++ part ++ after) {window : Window}
    (hMem : window ∈ Window.split budget (String.ofList part) (before.count '\n' + 1))
    (path : String) (kind : ChunkKind) (metadata : ChunkMetadata) :
    BelongsTo path text
      (create path window.startLine window.endLine window.content kind metadata) := by
  obtain ⟨hFirst, hOrder, hLast⟩ := Window.endLine_lt_of_mem_split hMem
  have hPart : part ≠ [] := by
    rintro rfl
    have hNone : Text.lineCount (String.ofList []) = 0 := by decide
    omega
  have hLines := Text.count_add_lineCount_le before part after hPart
  rw [← hText, String.ofList_toList] at hLines
  exact belongsTo_create (by omega) hOrder (by omega) _ _ _

/-- The chunks of a file by line windows belong to it. -/
private lemma belongsTo_of_mem_ofLines {budget : Budget} {path text : String} {chunk : Chunk}
    (hMem : chunk ∈ ofLines budget path text) : chunk.BelongsTo path text := by
  obtain ⟨window, hWindow, rfl⟩ := List.mem_map.1 hMem
  have hText : text.toList = [] ++ text.toList ++ [] := by simp
  rw [← String.ofList_toList (s := text)] at hWindow
  exact belongsTo_of_mem_split hText hWindow _ _ _

/-! ## Arranging -/

/-- Chunks of a file in sequence: each has its place as its number, their first lines do not go
back, and all belong to the file. -/
structure InSequence (path text : String) (chunks : List Chunk) : Prop where
  indices : chunks.map index = List.range chunks.length
  ordered : chunks.Pairwise fun a b => a.startLine ≤ b.startLine
  belong : ∀ chunk ∈ chunks, chunk.BelongsTo path text

/-- Numbering gives each chunk its place. -/
lemma map_index_numbered (chunks : List Chunk) :
    (numbered chunks).map index = List.range (numbered chunks).length := by
  apply List.ext_getElem
  · simp
  · intro i _ _
    simp [numbered]

/-- Numbering keeps what holds of all pairs, if it does not depend on the numbers. -/
lemma pairwise_numbered {R : Chunk → Chunk → Prop}
    (hR : ∀ a b index place, R a b → R { a with index } { b with index := place })
    {chunks : List Chunk} (h : chunks.Pairwise R) : (numbered chunks).Pairwise R := by
  rw [List.pairwise_iff_getElem] at h ⊢
  intro i j hi hj hij
  simp only [numbered, List.length_mapIdx] at hi hj
  simpa [numbered] using hR _ _ i j (h i j hi hj hij)

/-- Mergers keep the order of first lines, since a merger starts where its first chunk does.

**Proof sketch.** Induction on the chunks that are left. A merger starts where the chunk in hand
does; otherwise the chunk in hand is done and starts no later than the next one, from which the
others follow. -/
private lemma pairwise_mergeFrom (budget : Budget) (rest : List Chunk) :
    ∀ chunk : Chunk, (chunk :: rest).Pairwise (fun a b => a.startLine ≤ b.startLine) →
      (mergeFrom budget chunk rest).Pairwise (fun a b => a.startLine ≤ b.startLine) ∧
      ∀ c ∈ mergeFrom budget chunk rest, chunk.startLine ≤ c.startLine := by
  induction rest with
  | nil =>
    intro chunk _
    simp [mergeFrom]
  | cons next rest ih =>
    intro chunk hOrder
    rw [List.pairwise_cons] at hOrder
    obtain ⟨hFirst, hRest⟩ := hOrder
    rw [mergeFrom]
    split
    · refine ih (merge chunk next) (List.pairwise_cons.2 ⟨?_, (List.pairwise_cons.1 hRest).2⟩)
      exact fun later hLater => hFirst later (List.mem_cons_of_mem _ hLater)
    · obtain ⟨hMerged, hBehind⟩ := ih next hRest
      have hNext : ∀ c ∈ mergeFrom budget next rest, chunk.startLine ≤ c.startLine :=
        fun c hc => Nat.le_trans (hFirst next List.mem_cons_self) (hBehind c hc)
      refine ⟨List.pairwise_cons.2 ⟨hNext, hMerged⟩, ?_⟩
      intro c hc
      rcases List.mem_cons.1 hc with rfl | hc
      · exact Nat.le_refl _
      · exact hNext c hc

/-- Merging leaves something of at least one chunk. -/
private lemma mergeFrom_ne_nil (budget : Budget) (rest : List Chunk) :
    ∀ chunk : Chunk, mergeFrom budget chunk rest ≠ [] := by
  induction rest with
  | nil =>
    intro chunk
    simp [mergeFrom]
  | cons next rest ih =>
    intro chunk
    rw [mergeFrom]
    split
    · exact ih _
    · exact List.cons_ne_nil _ _

/-- Arranging leaves nothing only of nothing. -/
lemma arrange_eq_nil_iff (budget : Budget) (chunks : List Chunk) :
    arrange budget chunks = [] ↔ chunks = [] := by
  have hPerm := List.mergeSort_perm chunks fun a b => decide (a.startLine ≤ b.startLine)
  rw [arrange, numbered, List.mapIdx_eq_nil_iff, ← List.isEmpty_iff (l := chunks),
    ← hPerm.isEmpty_eq]
  cases chunks.mergeSort fun a b => decide (a.startLine ≤ b.startLine) with
  | nil => simp [mergeAll]
  | cons chunk rest => simp [mergeAll, mergeFrom_ne_nil]

/-- Arranged chunks are in the order of their first lines. -/
lemma pairwise_startLine_arrange (budget : Budget) (chunks : List Chunk) :
    (arrange budget chunks).Pairwise fun a b => a.startLine ≤ b.startLine := by
  have hOrder : (mergeAll budget
      (chunks.mergeSort fun a b => decide (a.startLine ≤ b.startLine))).Pairwise
      fun a b => a.startLine ≤ b.startLine := by
    have hSorted := pairwise_mergeSort_key startLine chunks
    revert hSorted
    cases chunks.mergeSort fun a b => decide (a.startLine ≤ b.startLine) with
    | nil => exact fun h => h
    | cons chunk rest => exact fun h => (pairwise_mergeFrom budget rest chunk h).1
  exact pairwise_numbered (fun _ _ _ _ hLe => hLe) hOrder

/-- **Arranged chunks are in sequence,** if all chunks belong to the file. -/
theorem inSequence_arrange (budget : Budget) {path text : String} {chunks : List Chunk}
    (h : ∀ chunk ∈ chunks, chunk.BelongsTo path text) :
    InSequence path text (arrange budget chunks) := by
  refine ⟨map_index_numbered _, pairwise_startLine_arrange budget chunks, ?_⟩
  exact forall_mem_arrange (fun chunk index hc => hc.number index)
    (fun chunk next _ hc hn => hc.merge hn) h

/-! ## Differences of line numbers -/

/-- Whether a chunk and its successor are merged; nothing if the difference of their lines falls
below zero. -/
def mergeable? (budget : Budget) (chunk next : Chunk) : Option Bool :=
  (Word.sub? (max chunk.endLine next.endLine) chunk.startLine).map fun span =>
    chunk.path == next.path && chunk.tokens < budget.minTokens && next.tokens < budget.minTokens &&
      span < budget.maxLines && Text.tokens (joinedContent chunk next) ≤ budget.maxTokens

/-- The chunks after merging, when `chunk` is the last one so far; nothing if a difference of lines
falls below zero. -/
def mergeFrom? (budget : Budget) (chunk : Chunk) : List Chunk → Option (List Chunk)
  | [] => some [chunk]
  | next :: rest =>
    match mergeable? budget chunk next with
    | none => none
    | some true => mergeFrom? budget (merge chunk next) rest
    | some false => (mergeFrom? budget next rest).map (chunk :: ·)

/-- The chunks after all mergers; nothing if a difference of lines falls below zero. -/
def mergeAll? (budget : Budget) : List Chunk → Option (List Chunk)
  | [] => some []
  | chunk :: rest => mergeFrom? budget chunk rest

/-- No difference falls below zero behind a chunk whose lines do not run backwards. -/
private lemma mergeable?_eq_some (budget : Budget) {chunk : Chunk} (next : Chunk)
    (h : chunk.startLine ≤ chunk.endLine) :
    mergeable? budget chunk next = some (mergeable budget chunk next) := by
  have hLe : chunk.startLine ≤ max chunk.endLine next.endLine :=
    Nat.le_trans h (Nat.le_max_left _ _)
  rw [mergeable?, Word.sub?_of_le hLe]
  rfl

/-- No difference falls below zero while chunks are merged whose lines do not run backwards. -/
private lemma mergeFrom?_eq_some (budget : Budget) (rest : List Chunk) :
    ∀ chunk : Chunk, chunk.startLine ≤ chunk.endLine →
      (∀ next ∈ rest, next.startLine ≤ next.endLine) →
      mergeFrom? budget chunk rest = some (mergeFrom budget chunk rest) := by
  induction rest with
  | nil =>
    intro chunk _ _
    rfl
  | cons next rest ih =>
    intro chunk hChunk hRest
    have hBehind : ∀ later ∈ rest, later.startLine ≤ later.endLine :=
      fun later hLater => hRest later (List.mem_cons_of_mem _ hLater)
    rw [mergeFrom?, mergeable?_eq_some budget next hChunk, mergeFrom]
    cases mergeable budget chunk next with
    | true =>
      exact ih (merge chunk next) (Nat.le_trans hChunk (Nat.le_max_left _ _)) hBehind
    | false =>
      simp [ih next (hRest next List.mem_cons_self) hBehind]

/-- **No difference falls below zero.** Merging with differences of words gives what merging
gives, if no chunk has lines that run backwards. -/
theorem mergeAll?_eq_some (budget : Budget) {chunks : List Chunk}
    (h : ∀ chunk ∈ chunks, chunk.startLine ≤ chunk.endLine) :
    mergeAll? budget chunks = some (mergeAll budget chunks) := by
  cases chunks with
  | nil => rfl
  | cons chunk rest =>
    exact mergeFrom?_eq_some budget rest chunk (h chunk List.mem_cons_self)
      fun next hNext => h next (List.mem_cons_of_mem _ hNext)

end Chunk

/-! ## Files -/

/-- The chunks of a stretch that is a part of the text belong to the file. -/
private lemma Cutting.belongsTo_of_mem_stretch {cutting : Cutting} {before part after : List Char}
    (hText : cutting.source.text.toList = before ++ part ++ after) (hPart : part ≠ [])
    {kind : ChunkKind} {metadata : ChunkMetadata} {chunk : Chunk}
    (hMem : chunk ∈ cutting.stretch (utf8Len before) (utf8Len (before ++ part))
      (String.ofList part) kind metadata) :
    chunk.BelongsTo cutting.path cutting.source.text := by
  have hLe := cutting.source.lineSpan_le (utf8Len before) (utf8Len (before ++ part))
  unfold Cutting.stretch at hMem
  rw [cutting.source.lineSpan_eq hText hPart] at hMem hLe
  dsimp only at hMem hLe
  split at hMem
  · rw [List.mem_singleton] at hMem
    subst hMem
    have hLines := Text.count_add_lineCount_le before part after hPart
    rw [← hText, String.ofList_toList] at hLines
    exact Chunk.belongsTo_create (Nat.le_add_left _ _) hLe hLines _ _ _
  · obtain ⟨window, hWindow, rfl⟩ := List.mem_map.1 hMem
    exact Chunk.belongsTo_of_mem_split hText hWindow _ _ _

/-- The chunks along a tree belong to the file. -/
private lemma Cutting.belongsTo_of_mem_tree {cutting : Cutting} {root : ParseTree}
    {chunks : List Chunk} (h : cutting.tree root = .ok chunks) {chunk : Chunk}
    (hMem : chunk ∈ chunks) :
    chunk.BelongsTo cutting.path cutting.source.text := by
  obtain ⟨region, -, part, hRegion, hChunk⟩ :=
    (Cutting.regions_of_tree_eq_ok h (List.ne_nil_of_mem hMem)).1 chunk hMem
  rcases Cutting.exists_stretch_eq_of_region hRegion with rfl | hStretch
  · simp at hChunk
  · obtain ⟨before, text, after, kind, metadata, hText, hPart, -, -, rfl⟩ := hStretch
    exact Cutting.belongsTo_of_mem_stretch hText hPart hChunk

namespace Chunker

/-- The chunks of a file before they are arranged. -/
def roughCut (chunker : Chunker) (grammars : Grammars) (file : SourceFile) : List Chunk :=
  match chunker.pool.provider.detect file.path with
  | none => Chunk.ofLines chunker.budget file.path file.content
  | some language =>
    (cut chunker.budget language file
      (chunker.pool.treeOf grammars language file.content file.tree?).result).1

/-- **The chunks of a file** are its rough chunks, arranged. A file that is left out, or blank, has
none.

**Proof sketch.** Follows the definition: both cut the file in the same way, once it is neither left
out nor blank. -/
theorem chunks_chunkFile_eq (chunker : Chunker) (grammars : Grammars) (file : SourceFile) :
    (chunker.chunkFile grammars file).chunks =
      if (skipReason? file.path file.content).isSome ∨ Text.allBlank file.content then []
      else Chunk.arrange chunker.budget (chunker.roughCut grammars file) := by
  unfold chunkFile roughCut
  cases skipReason? file.path file.content with
  | some reason => simp
  | none =>
    cases Text.allBlank file.content with
    | true => simp
    | false => cases chunker.pool.provider.detect file.path <;> simp

/-- Rough chunks are those of line windows, or those along a tree if the file is cut along one. -/
lemma roughCut_cases (chunker : Chunker) (grammars : Grammars) (file : SourceFile) :
    chunker.roughCut grammars file = Chunk.ofLines chunker.budget file.path file.content ∨
      ∃ language root,
        chunker.CutsAlong grammars file language root (chunker.roughCut grammars file) := by
  unfold roughCut
  cases hDetect : chunker.pool.provider.detect file.path with
  | none => exact Or.inl rfl
  | some language =>
    simp only [fst_cut]
    split
    · next chunk rest hAttempt =>
      obtain ⟨root, hParsed, hCut⟩ := bind_eq_ok_iff.1 hAttempt
      exact Or.inr ⟨language, root, hDetect, hParsed, hCut, List.cons_ne_nil _ _⟩
    · exact Or.inl rfl

/-- The rough chunks of a file that is cut into line windows are those of the windows. -/
lemma roughCut_of_cutsByLines {chunker : Chunker} {grammars : Grammars} {file : SourceFile}
    (h : chunker.CutsByLines grammars file) :
    chunker.roughCut grammars file = Chunk.ofLines chunker.budget file.path file.content := by
  rcases chunker.roughCut_cases grammars file with hLines | ⟨language, root, hAlong⟩
  · exact hLines
  · exact absurd hAlong (h language root _)

/-- Rough chunks belong to the file. -/
lemma belongsTo_of_mem_roughCut {chunker : Chunker} {grammars : Grammars} {file : SourceFile}
    {chunk : Chunk} (h : chunk ∈ chunker.roughCut grammars file) :
    chunk.BelongsTo file.path file.content := by
  rcases chunker.roughCut_cases grammars file with hLines | ⟨language, root, hAlong⟩
  · exact Chunk.belongsTo_of_mem_ofLines (hLines ▸ h)
  · exact Cutting.belongsTo_of_mem_tree hAlong.cut h

/-- A file that is not blank has a rough chunk. -/
private lemma roughCut_ne_nil (chunker : Chunker) (grammars : Grammars) {file : SourceFile}
    (h : Text.allBlank file.content = false) : chunker.roughCut grammars file ≠ [] := by
  rcases chunker.roughCut_cases grammars file with hLines | ⟨_, _, hAlong⟩
  · obtain ⟨c, rest, hText⟩ : ∃ c rest, file.content.toList = c :: rest := by
      apply List.exists_cons_of_ne_nil
      intro hNil
      rw [Text.allBlank, hNil] at h
      cases h
    have hFirst : file.content.toList = [] ++ c :: rest := hText
    obtain ⟨chunk, hMem, -⟩ := Chunk.exists_mem_ofLines chunker.budget file.path hFirst
    rw [hLines]
    exact List.ne_nil_of_mem hMem
  · exact hAlong.nonempty

/-- **Chunks in sequence.** A file has no chunk exactly if it is left out or blank. Its chunks are
numbered from zero on, in the order of their first lines, on lines of the file, and carry the path,
the hash and the identifier of their final lines and content. No difference of line numbers falls
below zero, neither where the lines of a stretch are counted nor while chunks are merged.

Nothing is asked of the provider, of the grammars and of the tree that the file comes with.

**Proof sketch.** A file that is not blank has rough chunks (`roughCut_ne_nil`), and each belongs to
the file: it is on its lines and carries its path, and ends no earlier than it starts
(`belongsTo_of_mem_roughCut`). Arranging sorts, merges and numbers such chunks
(`Chunk.inSequence_arrange`), and a merger of such chunks never takes a larger line from a smaller
one. -/
theorem inSequence_chunkFile (chunker : Chunker) (grammars : Grammars) (file : SourceFile) :
    ((chunker.chunkFile grammars file).chunks = [] ↔
      (skipReason? file.path file.content).isSome ∨ Text.allBlank file.content) ∧
    Chunk.InSequence file.path file.content (chunker.chunkFile grammars file).chunks ∧
    (∀ start stop, ((Source.ofText file.content).lineSpan start stop).1 ≤
      ((Source.ofText file.content).lineSpan start stop).2) ∧
    Chunk.mergeAll? chunker.budget ((chunker.roughCut grammars file).mergeSort
        fun a b => decide (a.startLine ≤ b.startLine)) =
      some (Chunk.mergeAll chunker.budget ((chunker.roughCut grammars file).mergeSort
        fun a b => decide (a.startLine ≤ b.startLine))) := by
  refine ⟨?_, ?_, fun start stop => Source.lineSpan_le _ start stop, ?_⟩
  · rw [chunks_chunkFile_eq]
    split
    · next hNone => exact ⟨fun _ => hNone, fun _ => rfl⟩
    · next hSome =>
      rw [Chunk.arrange_eq_nil_iff]
      have hBlank : Text.allBlank file.content = false := by
        simpa using (not_or.1 hSome).2
      exact ⟨fun hNil => absurd hNil (roughCut_ne_nil chunker grammars hBlank),
        fun h => absurd h hSome⟩
  · rw [chunks_chunkFile_eq]
    split
    · exact ⟨rfl, List.Pairwise.nil, by simp⟩
    · exact Chunk.inSequence_arrange _ fun chunk h => belongsTo_of_mem_roughCut h
  · refine Chunk.mergeAll?_eq_some _ fun chunk h => ?_
    exact (belongsTo_of_mem_roughCut (List.mem_mergeSort.1 h)).startLine_le

end Chunker

end CodeAtlas
