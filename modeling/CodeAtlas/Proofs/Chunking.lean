import Mathlib.Data.List.Basic
import CodeAtlas.Chunk.Chunker

/-!
# How a file is cut

A file that is admitted and not blank is cut in one of two ways: along a parse tree, or into line
windows. This module says which, and what the chunks along a tree consist of, so that properties
of chunks need to be shown of windows and of stretches only.

## Main definitions

* `CodeAtlas.Chunker.CutsAlong` — a file is cut along a tree into the given chunks.
* `CodeAtlas.Chunker.CutsByLines` — a file is cut along no tree.

## Main results

* `CodeAtlas.Chunker.cutsByLines_iff` — when a file is cut into line windows.
* `CodeAtlas.Chunker.chunks_chunkFile` — the chunks of an admitted file that is not blank.
* `CodeAtlas.Chunker.mem_chunkFile` — where a chunk of a file comes from.
* `CodeAtlas.Cutting.regions_of_tree_eq_ok` — the chunks along a tree, region by region.
-/

set_option autoImplicit false

namespace CodeAtlas

/-- A step after an attempt succeeds exactly when the attempt does and the step on its result. -/
lemma bind_eq_ok_iff {ε α β : Type} {attempt : Except ε α} {step : α → Except ε β} {result : β} :
    attempt >>= step = .ok result ↔ ∃ a, attempt = .ok a ∧ step a = .ok result := by
  cases attempt with
  | error e => simp [bind, Except.bind]
  | ok a => simp [bind, Except.bind]

/-- If a function succeeds on all members of a list, its results there are what mapping gives.

**Proof sketch.** Induction on the inputs; `bind_eq_ok_iff` gives the result of the first input and
the results of the others. -/
lemma mem_of_mapM_eq_ok {ε α β : Type} {f : α → Except ε β} {inputs : List α} :
    ∀ {outputs : List β}, inputs.mapM f = .ok outputs →
      (∀ output ∈ outputs, ∃ input ∈ inputs, f input = .ok output) ∧
      (∀ input ∈ inputs, ∃ output ∈ outputs, f input = .ok output) := by
  induction inputs with
  | nil =>
    intro outputs h
    obtain rfl : [] = outputs := Except.ok.inj h
    exact ⟨by simp, by simp⟩
  | cons first rest ih =>
    intro outputs h
    rw [List.mapM_cons] at h
    obtain ⟨output, hFirst, h⟩ := bind_eq_ok_iff.1 h
    obtain ⟨others, hRest, h⟩ := bind_eq_ok_iff.1 h
    obtain rfl : output :: others = outputs := Except.ok.inj h
    obtain ⟨hFrom, hTo⟩ := ih hRest
    constructor
    · intro found hFound
      rcases List.mem_cons.1 hFound with rfl | hFound
      · exact ⟨first, List.mem_cons_self, hFirst⟩
      · obtain ⟨input, hMem, hInput⟩ := hFrom found hFound
        exact ⟨input, List.mem_cons_of_mem _ hMem, hInput⟩
    · intro input hInput
      rcases List.mem_cons.1 hInput with rfl | hInput
      · exact ⟨output, List.mem_cons_self, hFirst⟩
      · obtain ⟨found, hMem, hFound⟩ := hTo input hInput
        exact ⟨found, List.mem_cons_of_mem _ hMem, hFound⟩

/-! ## Cutting along a tree -/

namespace Cutting

/-- The targets of a tree, in the order of their first bytes. -/
def targets (cutting : Cutting) (root : ParseTree) : List ChunkTarget :=
  (ChunkTarget.collect cutting.language root).mergeSort fun a b =>
    decide (a.node.startByte ≤ b.node.startByte)

/-- The regions of a tree. -/
def regions (cutting : Cutting) (root : ParseTree) : List Region :=
  Region.list cutting.source.text.utf8ByteSize 0 (cutting.targets root)

/-- Cutting along a tree that has targets is cutting its regions, one after the other. -/
lemma tree_eq (cutting : Cutting) (root : ParseTree) :
    cutting.tree root = if (cutting.targets root).isEmpty then .ok []
      else List.flatten <$> (cutting.regions root).mapM cutting.region := rfl

/-- If cutting along a tree gives chunks, they are those of the regions, one after the other. -/
lemma exists_mapM_regions_of_tree_eq_ok {cutting : Cutting} {root : ParseTree}
    {chunks : List Chunk} (h : cutting.tree root = .ok chunks) (hChunks : chunks ≠ []) :
    ∃ parts, (cutting.regions root).mapM cutting.region = .ok parts ∧ parts.flatten = chunks := by
  rw [tree_eq] at h
  split at h
  · exact absurd (Except.ok.inj h).symm hChunks
  · cases hParts : (cutting.regions root).mapM cutting.region with
    | error e =>
      rw [hParts] at h
      exact absurd h (by simp [Functor.map, Except.map])
    | ok parts =>
      rw [hParts] at h
      exact ⟨parts, rfl, Except.ok.inj h⟩

/-- **Region by region.** If cutting along a tree gives chunks, every region is cut, and the chunks
are those of the regions.

**Proof sketch.** A tree that gives chunks is cut by mapping over its regions
(`exists_mapM_regions_of_tree_eq_ok`), and a chunk is in the concatenation of the parts if it is in
one of them. -/
theorem regions_of_tree_eq_ok {cutting : Cutting} {root : ParseTree} {chunks : List Chunk}
    (h : cutting.tree root = .ok chunks) (hChunks : chunks ≠ []) :
    (∀ chunk ∈ chunks, ∃ region ∈ cutting.regions root, ∃ part,
      cutting.region region = .ok part ∧ chunk ∈ part) ∧
    (∀ region ∈ cutting.regions root, ∃ part, cutting.region region = .ok part ∧
      ∀ chunk ∈ part, chunk ∈ chunks) := by
  obtain ⟨parts, hParts, rfl⟩ := exists_mapM_regions_of_tree_eq_ok h hChunks
  obtain ⟨hFrom, hTo⟩ := mem_of_mapM_eq_ok hParts
  constructor
  · intro chunk hChunk
    obtain ⟨part, hPart, hMem⟩ := List.mem_flatten.1 hChunk
    obtain ⟨region, hRegion, hCut⟩ := hFrom part hPart
    exact ⟨region, hRegion, part, hCut, hMem⟩
  · intro region hRegion
    obtain ⟨part, hPart, hCut⟩ := hTo region hRegion
    exact ⟨part, hCut, fun chunk hMem => List.mem_flatten.2 ⟨part, hPart, hMem⟩⟩

/-- A gap that is cut is a slice of the text. It gives no chunk if it is blank or small, and else
the stretch that is left of it without its outer blanks. -/
lemma gap_eq_ok_iff {cutting : Cutting} {start stop : Nat} {chunks : List Chunk} :
    cutting.gap start stop = .ok chunks ↔
      ∃ text, Text.slice? cutting.source.text start stop = some text ∧
        chunks =
          (let trimmed := String.ofList (Text.trim text.toList)
           let first := start + (String.ofList (text.toList.takeWhile Text.isBlank)).utf8ByteSize
           if trimmed.isEmpty ∨ Text.tokens trimmed < cutting.budget.minTokens then []
           else cutting.stretch first (first + trimmed.utf8ByteSize) trimmed .block
            cutting.plainMetadata) := by
  unfold gap slice
  cases Text.slice? cutting.source.text start stop with
  | none => simp [bind, Except.bind]
  | some text =>
    simp only [bind, Except.bind, Option.some.injEq, exists_eq_left', pure, Except.pure]
    split <;> simp [eq_comm]

/-- A target that is cut is a slice of the text. It gives no chunk if it is blank. -/
lemma target_eq_ok_iff {cutting : Cutting} {target : ChunkTarget} {chunks : List Chunk} :
    cutting.target target = .ok chunks ↔
      ∃ text,
        Text.slice? cutting.source.text target.node.startByte target.node.endByte = some text ∧
        chunks =
          if Text.allBlank text then []
          else cutting.stretch target.node.startByte target.node.endByte text target.kind
            (cutting.metadata target text) := by
  unfold Cutting.target slice
  cases Text.slice? cutting.source.text target.node.startByte target.node.endByte with
  | none => simp [bind, Except.bind]
  | some text =>
    simp only [bind, Except.bind, Option.some.injEq, exists_eq_left', pure, Except.pure]
    split <;> simp [eq_comm]

/-- Every chunk of a region is a chunk of a stretch. -/
private lemma exists_stretch_of_mem_region {cutting : Cutting} {region : Region}
    {chunks : List Chunk} (h : cutting.region region = .ok chunks) {chunk : Chunk}
    (hMem : chunk ∈ chunks) :
    ∃ start stop text kind metadata, chunk ∈ cutting.stretch start stop text kind metadata := by
  cases region with
  | gap start stop =>
    obtain ⟨text, -, rfl⟩ := gap_eq_ok_iff.1 h
    dsimp only at hMem
    split at hMem
    · simp at hMem
    · exact ⟨_, _, _, _, _, hMem⟩
  | target t =>
    obtain ⟨text, -, rfl⟩ := target_eq_ok_iff.1 h
    split at hMem
    · simp at hMem
    · exact ⟨_, _, _, _, _, hMem⟩

/-- Every chunk along a tree is a chunk of a stretch. -/
lemma exists_stretch_of_mem_tree {cutting : Cutting} {root : ParseTree} {chunks : List Chunk}
    (h : cutting.tree root = .ok chunks) {chunk : Chunk} (hMem : chunk ∈ chunks) :
    ∃ start stop text kind metadata, chunk ∈ cutting.stretch start stop text kind metadata := by
  obtain ⟨region, -, part, hRegion, hChunk⟩ :=
    (regions_of_tree_eq_ok h (List.ne_nil_of_mem hMem)).1 chunk hMem
  exact exists_stretch_of_mem_region hRegion hChunk

end Cutting

/-! ## Cutting a file -/

/-- A text with the starts of its lines. -/
def Source.ofText (text : String) : Source := { text }

namespace Chunker

/-- What a file is cut with in a language. -/
def cutting (chunker : Chunker) (language : Language) (file : SourceFile) : Cutting :=
  ⟨chunker.budget, language, file.path, .ofText file.content⟩

/-- A file is cut along a tree: a language is detected, the tree is the one at hand or the one that
parsing gives, and cutting along it gives chunks, at least one. -/
structure CutsAlong (chunker : Chunker) (grammars : Grammars) (file : SourceFile)
    (language : Language) (root : ParseTree) (chunks : List Chunk) : Prop where
  detected : chunker.pool.provider.detect file.path = some language
  parsed : (chunker.pool.treeOf grammars language file.content file.tree?).result = .ok root
  cut : (chunker.cutting language file).tree root = .ok chunks
  nonempty : chunks ≠ []

/-- A file is cut into line windows: no language is detected, there is no tree, the tree does not
fit the text, or nothing is found in it. -/
def CutsByLines (chunker : Chunker) (grammars : Grammars) (file : SourceFile) : Prop :=
  ∀ language root chunks, ¬ chunker.CutsAlong grammars file language root chunks

/-- **Four ways to line windows.** A file is cut into line windows exactly if no language is
detected, there is no tree, cutting along the tree fails, or it gives no chunk.

**Proof sketch.** The conditions of cutting along a tree hold one after the other, and each of the
four ways is the failure of one of them. Both directions go through them in that order. -/
theorem cutsByLines_iff (chunker : Chunker) (grammars : Grammars) (file : SourceFile) :
    chunker.CutsByLines grammars file ↔
      chunker.pool.provider.detect file.path = none ∨
      ∃ language, chunker.pool.provider.detect file.path = some language ∧
        ((∃ error, (chunker.pool.treeOf grammars language file.content file.tree?).result =
            .error error) ∨
          ∃ root, (chunker.pool.treeOf grammars language file.content file.tree?).result =
              .ok root ∧
            ((∃ error, (chunker.cutting language file).tree root = .error error) ∨
              (chunker.cutting language file).tree root = .ok [])) := by
  constructor
  · intro h
    cases hDetect : chunker.pool.provider.detect file.path with
    | none => exact Or.inl rfl
    | some language =>
      refine Or.inr ⟨language, rfl, ?_⟩
      cases hParse : (chunker.pool.treeOf grammars language file.content file.tree?).result with
      | error error => exact Or.inl ⟨error, rfl⟩
      | ok root =>
        refine Or.inr ⟨root, rfl, ?_⟩
        cases hCut : (chunker.cutting language file).tree root with
        | error error => exact Or.inl ⟨error, rfl⟩
        | ok chunks =>
          by_cases hNil : chunks = []
          · exact Or.inr (by rw [hNil])
          · exact absurd ⟨hDetect, hParse, hCut, hNil⟩ (h language root chunks)
  · rintro h language root chunks ⟨hDetect, hParse, hCut, hNonempty⟩
    rcases h with hNone | ⟨other, hOther, h⟩
    · simp [hNone] at hDetect
    obtain rfl := Option.some.inj (hOther.symm.trans hDetect)
    rcases h with ⟨error, hError⟩ | ⟨tree, hTree, h⟩
    · simp [hParse] at hError
    obtain rfl := Except.ok.inj (hTree.symm.trans hParse)
    rcases h with ⟨error, hError⟩ | hNil
    · simp [hCut] at hError
    · exact hNonempty (Except.ok.inj (hCut.symm.trans hNil))

/-- What the attempt to cut along a tree leads to: its chunks if there are any, and those of line
windows otherwise. -/
lemma fst_cut (chunker : Chunker) (language : Language) (file : SourceFile)
    (tree : Except ChunkError ParseTree) :
    (cut chunker.budget language file tree).1 =
      match tree >>= (chunker.cutting language file).tree with
      | .ok (chunk :: rest) => chunk :: rest
      | _ => Chunk.ofLines chunker.budget file.path file.content := by
  unfold cut cutting Source.ofText
  dsimp only
  rcases tree >>= Cutting.tree _ with error | (- | ⟨chunk, rest⟩) <;> rfl

/-- **Two ways to cut.** The chunks of an admitted file that is not blank are those along a tree if
it is cut along one, and those of its line windows otherwise.

**Proof sketch.** Follows the definition of `chunkFile`. Once a language is detected, the attempt to
cut along the tree succeeds with some chunk exactly if the conditions of `CutsAlong` hold. -/
theorem chunks_chunkFile (chunker : Chunker) (grammars : Grammars) {file : SourceFile}
    (hAdmitted : skipReason? file.path file.content = none)
    (hBlank : Text.allBlank file.content = false) :
    (∃ language root chunks, chunker.CutsAlong grammars file language root chunks ∧
      (chunker.chunkFile grammars file).chunks = Chunk.arrange chunker.budget chunks) ∨
    (chunker.CutsByLines grammars file ∧ (chunker.chunkFile grammars file).chunks =
      Chunk.arrange chunker.budget (Chunk.ofLines chunker.budget file.path file.content)) := by
  unfold chunkFile
  rw [hAdmitted]
  simp only [hBlank, Bool.false_eq_true, if_false]
  cases hDetect : chunker.pool.provider.detect file.path with
  | none =>
    refine Or.inr ⟨fun language root chunks h => ?_, rfl⟩
    rw [h.detected] at hDetect
    cases hDetect
  | some language =>
    simp only
    rw [fst_cut]
    by_cases hAlong : ∃ root chunks, chunker.CutsAlong grammars file language root chunks
    · obtain ⟨root, chunks, h⟩ := hAlong
      refine Or.inl ⟨language, root, chunks, h, ?_⟩
      rw [bind_eq_ok_iff.2 ⟨root, h.parsed, h.cut⟩]
      obtain ⟨chunk, rest, rfl⟩ := List.exists_cons_of_ne_nil h.nonempty
      rfl
    · refine Or.inr ⟨fun language' root chunks h => hAlong ⟨root, chunks, ?_⟩, ?_⟩
      · obtain rfl := Option.some.inj (h.detected.symm.trans hDetect)
        exact h
      · split
        · next chunk rest hAttempt =>
          -- the attempt would have succeeded along the tree that it was made with
          obtain ⟨root, hParsed, hCut⟩ := bind_eq_ok_iff.1 hAttempt
          exact absurd ⟨root, _, hDetect, hParsed, hCut, List.cons_ne_nil _ _⟩ hAlong
        · rfl

/-- A file without a language is cut into line windows. -/
lemma chunks_chunkFile_of_detect_eq_none {chunker : Chunker} {grammars : Grammars}
    {file : SourceFile} (hAdmitted : skipReason? file.path file.content = none)
    (hBlank : Text.allBlank file.content = false)
    (hDetect : chunker.pool.provider.detect file.path = none) :
    (chunker.chunkFile grammars file).chunks =
      Chunk.arrange chunker.budget (Chunk.ofLines chunker.budget file.path file.content) := by
  rcases chunks_chunkFile chunker grammars hAdmitted hBlank with
    ⟨language, root, chunks, h, -⟩ | ⟨-, h⟩
  · rw [h.detected] at hDetect
    cases hDetect
  · exact h

/-- Where a chunk of a file comes from: it is arranged from chunks along a tree or from chunks of
line windows.

**Proof sketch.** A file that is skipped or blank has no chunks, and for others it is one of the two
ways of `chunks_chunkFile`. -/
theorem mem_chunkFile {chunker : Chunker} {grammars : Grammars} {file : SourceFile} {chunk : Chunk}
    (h : chunk ∈ (chunker.chunkFile grammars file).chunks) :
    ∃ chunks, chunk ∈ Chunk.arrange chunker.budget chunks ∧
      (chunks = Chunk.ofLines chunker.budget file.path file.content ∨
        ∃ language root, (chunker.cutting language file).tree root = .ok chunks) := by
  cases hReason : skipReason? file.path file.content with
  | some reason =>
    rw [chunkFile, hReason] at h
    simp at h
  | none =>
    cases hBlank : Text.allBlank file.content with
    | true =>
      rw [chunkFile, hReason] at h
      simp [hBlank] at h
    | false =>
      rcases chunks_chunkFile chunker grammars hReason hBlank with
        ⟨language, root, chunks, hAlong, hEq⟩ | ⟨-, hEq⟩
      · exact ⟨chunks, hEq ▸ h, Or.inr ⟨language, root, hAlong.cut⟩⟩
      · exact ⟨_, hEq ▸ h, Or.inl rfl⟩

end Chunker

end CodeAtlas
