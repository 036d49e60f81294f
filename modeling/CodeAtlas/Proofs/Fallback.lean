import Mathlib.Data.List.Basic
import CodeAtlas.Proofs.Numbering

/-!
# Files whose tree does not fit

A tree may stem from another text, so its nodes may cover bytes that are no slice of the file, and
they may overlap or stand in any order. Cutting along such a tree fails only because of a target:
the gap before a target runs from the start of the file or the end of an earlier target up to the
start of that target. If it is no slice, though the targets before it are, then its end is to blame,
and so is the target that starts there.

When cutting fails, nothing of what has been cut so far is kept. The file is cut into line windows,
just as if no language had been detected for it.

## Main definitions

* `CodeAtlas.Text.IsSlice` — two offsets are the ends of a slice of a text.
* `CodeAtlas.Chunker.FailsAlong` — cutting a file along its tree fails.
* `CodeAtlas.Chunker.undetecting` — the chunker that detects no language.

## Main results

* `CodeAtlas.Cutting.region_eq_error_iff` — which regions cannot be cut, and what is reported.
* `CodeAtlas.Region.forall_isSlice_list` — if all targets are slices, so are the gaps between them.
* `CodeAtlas.Cutting.exists_tree_eq_error_iff` — cutting along a tree fails exactly if some target
  is no slice.
* `CodeAtlas.Chunker.fallsBack_iff_exists_target` — the same, and what chunks the file has then.
-/

set_option autoImplicit false

namespace CodeAtlas

/-! ## Slices -/

namespace Text

/-- Two offsets are the ends of a slice: they are in order, in bounds and on character
boundaries. -/
structure IsSlice (text : String) (start stop : Nat) : Prop where
  start_le : start ≤ stop
  stop_le : stop ≤ text.utf8ByteSize
  start_isBoundary : isBoundary text start = true
  stop_isBoundary : isBoundary text stop = true

/-- Boundaries are in bounds. -/
private lemma le_of_isBoundary {text : String} {offset : Nat} (h : isBoundary text offset = true) :
    offset ≤ text.utf8ByteSize := by
  obtain ⟨before, after, rfl, rfl⟩ := (isBoundary_iff text offset).1 h
  rw [String.utf8ByteSize_append]
  omega

/-- A text starts on a boundary. -/
private lemma isBoundary_zero (text : String) : isBoundary text 0 = true :=
  (isBoundary_iff text 0).2 ⟨"", text, by simp, rfl⟩

/-- A text ends on a boundary. -/
private lemma isBoundary_utf8ByteSize (text : String) : isBoundary text text.utf8ByteSize = true :=
  (isBoundary_iff text _).2 ⟨text, "", by simp, rfl⟩

/-- Ordered boundaries are the ends of a slice. -/
lemma isSlice_of_isBoundary {text : String} {start stop : Nat} (hLe : start ≤ stop)
    (hStart : isBoundary text start = true) (hStop : isBoundary text stop = true) :
    IsSlice text start stop :=
  ⟨hLe, le_of_isBoundary hStop, hStart, hStop⟩

/-- There is no slice exactly between offsets that are not the ends of one. -/
private lemma slice?_eq_none_iff (text : String) (start stop : Nat) :
    slice? text start stop = none ↔ ¬IsSlice text start stop := by
  rw [← Option.not_isSome_iff_eq_none, slice?_isSome_iff, not_iff_not]
  constructor
  · rintro ⟨hLe, hStart, hStop⟩
    exact isSlice_of_isBoundary hLe hStart hStop
  · intro h
    exact ⟨h.start_le, h.start_isBoundary, h.stop_isBoundary⟩

end Text

/-! ## Regions -/

namespace Region

/-- Every target is among the regions. -/
private lemma target_mem_list (length : Nat) {t : ChunkTarget} {targets : List ChunkTarget} :
    ∀ position, t ∈ targets → target t ∈ list length position targets := by
  induction targets with
  | nil => simp
  | cons first rest ih =>
    intro position hMem
    have hAhead : target t ∈
        target first :: list length (max position first.node.endByte) rest := by
      rcases List.mem_cons.1 hMem with rfl | hMem
      · exact List.mem_cons_self
      · exact List.mem_cons_of_mem _ (ih _ hMem)
    rw [list]
    split
    · exact List.mem_cons_of_mem _ hAhead
    · exact hAhead

/-- **Gaps are slices where targets are.** If all targets are slices of the text, so are all regions
from a boundary on, in whatever order the targets stand and however they overlap.

**Proof sketch.** Induction on the targets ahead. The position is a boundary, since it is the end of
an earlier target or the start of the text, and so is the start of the next target, where the gap
between them ends. -/
theorem forall_isSlice_list {text : String} {targets : List ChunkTarget}
    (h : ∀ t ∈ targets, Text.IsSlice text t.node.startByte t.node.endByte) :
    ∀ position, Text.isBoundary text position = true →
      ∀ region ∈ list text.utf8ByteSize position targets,
        Text.IsSlice text region.start region.stop := by
  induction targets with
  | nil =>
    intro position hPosition region hRegion
    rw [list] at hRegion
    split at hRegion
    · next hLt =>
      rw [List.mem_singleton] at hRegion
      subst hRegion
      exact Text.isSlice_of_isBoundary (Nat.le_of_lt hLt) hPosition
        (Text.isBoundary_utf8ByteSize text)
    · simp at hRegion
  | cons t rest ih =>
    intro position hPosition region hRegion
    have hTarget := h t List.mem_cons_self
    have hNext : Text.isBoundary text (max position t.node.endByte) = true := by
      rcases Nat.le_total position t.node.endByte with hLe | hLe
      · rw [Nat.max_eq_right hLe]
        exact hTarget.stop_isBoundary
      · rw [Nat.max_eq_left hLe]
        exact hPosition
    have hAhead : ∀ r ∈ target t :: list text.utf8ByteSize (max position t.node.endByte) rest,
        Text.IsSlice text r.start r.stop := by
      intro r hr
      rcases List.mem_cons.1 hr with rfl | hr
      · exact hTarget
      · exact ih (fun u hu => h u (List.mem_cons_of_mem _ hu)) _ hNext r hr
    rw [list] at hRegion
    split at hRegion
    · next hLt =>
      rcases List.mem_cons.1 hRegion with rfl | hRegion
      · exact Text.isSlice_of_isBoundary (Nat.le_of_lt hLt) hPosition hTarget.start_isBoundary
      · exact hAhead region hRegion
    · exact hAhead region hRegion

end Region

/-! ## Cutting -/

/-- If a step never fails, an attempt followed by it fails as the attempt does. -/
private lemma bind_eq_error_iff {ε α β : Type} {attempt : Except ε α} {step : α → Except ε β}
    (hStep : ∀ a, ∃ b, step a = .ok b) {error : ε} :
    attempt >>= step = .error error ↔ attempt = .error error := by
  cases attempt with
  | error e => simp [bind, Except.bind]
  | ok a =>
    obtain ⟨b, hb⟩ := hStep a
    simp [bind, Except.bind, hb]

/-- If mapping fails, the function fails in the same way on some member of the list. -/
private lemma exists_of_mapM_eq_error {ε α β : Type} {f : α → Except ε β} {inputs : List α}
    {error : ε} (h : inputs.mapM f = .error error) : ∃ input ∈ inputs, f input = .error error := by
  induction inputs with
  | nil => cases h
  | cons first rest ih =>
    rw [List.mapM_cons] at h
    cases hFirst : f first with
    | error e =>
      rw [hFirst] at h
      cases h
      exact ⟨first, List.mem_cons_self, hFirst⟩
    | ok output =>
      cases hRest : rest.mapM f with
      | error e =>
        rw [hFirst, hRest] at h
        cases h
        obtain ⟨input, hMem, hInput⟩ := ih hRest
        exact ⟨input, List.mem_cons_of_mem _ hMem, hInput⟩
      | ok outputs =>
        rw [hFirst, hRest] at h
        cases h

namespace Cutting

/-- What is no slice of the text cannot be read, and its ends are reported. -/
private lemma slice_eq_error_iff {cutting : Cutting} {start stop : Nat} {error : ChunkError} :
    cutting.slice start stop = .error error ↔
      ¬Text.IsSlice cutting.source.text start stop ∧ error = .invalidBoundaries start stop := by
  rw [← Text.slice?_eq_none_iff, slice]
  cases Text.slice? cutting.source.text start stop with
  | none => simp [eq_comm]
  | some text => simp

/-- A region cannot be cut exactly if it is no slice of the text, and its ends are reported.

**Proof sketch.** Both kinds of region begin by reading their slice, and nothing fails behind that.
-/
theorem region_eq_error_iff {cutting : Cutting} {region : Region} {error : ChunkError} :
    cutting.region region = .error error ↔
      ¬Text.IsSlice cutting.source.text region.start region.stop ∧
        error = .invalidBoundaries region.start region.stop := by
  -- once its text is read, a region can be cut
  cases region with
  | gap start stop =>
    refine (bind_eq_error_iff fun text => ?_).trans slice_eq_error_iff
    dsimp only
    split <;> exact ⟨_, rfl⟩
  | target t =>
    refine (bind_eq_error_iff fun text => ?_).trans slice_eq_error_iff
    split <;> exact ⟨_, rfl⟩

/-- If cutting along a tree fails, it fails at one of the regions. -/
lemma exists_region_of_tree_eq_error {cutting : Cutting} {root : ParseTree} {error : ChunkError}
    (h : cutting.tree root = .error error) :
    ∃ region ∈ cutting.regions root, cutting.region region = .error error := by
  rw [tree_eq] at h
  split at h
  · cases h
  · apply exists_of_mapM_eq_error
    cases hParts : (cutting.regions root).mapM cutting.region with
    | error e =>
      rw [hParts] at h
      cases h
      rfl
    | ok parts =>
      rw [hParts] at h
      cases h

/-- If a target cannot be cut out, cutting along the tree fails. -/
private lemma exists_tree_eq_error_of_target {cutting : Cutting} {root : ParseTree}
    {t : ChunkTarget} (hMem : t ∈ cutting.targets root)
    (hBad : ¬Text.IsSlice cutting.source.text t.node.startByte t.node.endByte) :
    ∃ error, cutting.tree root = .error error := by
  rw [tree_eq, if_neg (by simpa using List.ne_nil_of_mem hMem)]
  cases hParts : (cutting.regions root).mapM cutting.region with
  | error error => exact ⟨error, rfl⟩
  | ok parts =>
    have hRegion := Region.target_mem_list cutting.source.text.utf8ByteSize 0 hMem
    obtain ⟨part, -, hPart⟩ := (mem_of_mapM_eq_ok hParts).2 _ hRegion
    rw [region_eq_error_iff.2 ⟨hBad, rfl⟩] at hPart
    cases hPart

/-- **Only bad targets fail.** Cutting along a tree fails exactly if the bytes of some target are no
slice of the text.

**Proof sketch.** Cutting fails at some region. If all targets are slices of the text, then so are
the gaps between them, and no region fails (`Region.forall_isSlice_list`). A bad target is a region,
and cutting fails at it if not before. -/
theorem exists_tree_eq_error_iff (cutting : Cutting) (root : ParseTree) :
    (∃ error, cutting.tree root = .error error) ↔
      ∃ t ∈ ChunkTarget.collect cutting.language root,
        ¬Text.IsSlice cutting.source.text t.node.startByte t.node.endByte := by
  constructor
  · rintro ⟨error, hError⟩
    obtain ⟨region, hRegion, hFails⟩ := exists_region_of_tree_eq_error hError
    by_contra hAll
    push Not at hAll
    refine (region_eq_error_iff.1 hFails).1 ?_
    refine Region.forall_isSlice_list (fun t ht => ?_) 0 (Text.isBoundary_zero _) region hRegion
    exact hAll t (List.mem_mergeSort.1 ht)
  · rintro ⟨t, hMem, hBad⟩
    exact exists_tree_eq_error_of_target (List.mem_mergeSort.2 hMem) hBad

end Cutting

/-! ## Falling back -/

namespace Chunker

/-- Cutting a file along its tree fails: a language is detected, the tree is the one at hand or the
one that parsing gives, and cutting along it ends in an error. -/
structure FailsAlong (chunker : Chunker) (grammars : Grammars) (file : SourceFile)
    (language : Language) (root : ParseTree) (error : ChunkError) : Prop where
  detected : chunker.pool.provider.detect file.path = some language
  parsed : (chunker.pool.treeOf grammars language file.content file.tree?).result = .ok root
  failed : (chunker.cutting language file).tree root = .error error

/-- The chunker that detects no language, and is otherwise the same. -/
def undetecting (chunker : Chunker) : Chunker :=
  { chunker with
    pool := { chunker.pool with provider := chunker.pool.provider.detecting none } }

/-- A file that is cut into line windows has the chunks that it has when no language is detected. -/
private lemma chunks_chunkFile_undetecting {chunker : Chunker} {grammars : Grammars}
    {file : SourceFile} (h : chunker.CutsByLines grammars file) :
    (chunker.chunkFile grammars file).chunks =
      (chunker.undetecting.chunkFile grammars file).chunks := by
  have hNone : chunker.undetecting.CutsByLines grammars file :=
    (cutsByLines_iff _ _ _).2 (Or.inl rfl)
  rw [chunks_chunkFile_eq, chunks_chunkFile_eq, roughCut_of_cutsByLines h,
    roughCut_of_cutsByLines hNone]
  rfl

/-- **Files whose tree does not fit.** Cutting along a tree reports bad boundaries exactly if the
bytes of some target are no slice of the text, whatever else is in the tree, and reports nothing
else. A file for which cutting fails has exactly the chunks that it has when no language is
detected.

**Proof sketch.** A region fails only by being no slice of the text, which is reported with its ends
(`Cutting.region_eq_error_iff`), and some region fails exactly if some target does
(`Cutting.exists_tree_eq_error_iff`): between slices of the text there are only slices. A file for
which this happens is cut into line windows (`cutsByLines_iff`), as is one whose language is not
detected (`chunks_chunkFile_undetecting`). -/
theorem fallsBack_iff_exists_target (cutting : Cutting) (root : ParseTree) :
    ((∃ start stop, cutting.tree root = .error (.invalidBoundaries start stop)) ↔
      ∃ t ∈ ChunkTarget.collect cutting.language root,
        ¬Text.IsSlice cutting.source.text t.node.startByte t.node.endByte) ∧
    (∀ error, cutting.tree root = .error error →
      ∃ start stop, ¬Text.IsSlice cutting.source.text start stop ∧
        error = .invalidBoundaries start stop) ∧
    ∀ (chunker : Chunker) (grammars : Grammars) (file : SourceFile) (language : Language)
      (error : ChunkError), chunker.FailsAlong grammars file language root error →
        (chunker.chunkFile grammars file).chunks =
          (chunker.undetecting.chunkFile grammars file).chunks := by
  have hReport : ∀ error, cutting.tree root = .error error →
      ∃ start stop, ¬Text.IsSlice cutting.source.text start stop ∧
        error = .invalidBoundaries start stop := by
    intro error hError
    obtain ⟨region, -, hFails⟩ := Cutting.exists_region_of_tree_eq_error hError
    exact ⟨region.start, region.stop, Cutting.region_eq_error_iff.1 hFails⟩
  refine ⟨?_, hReport, fun chunker grammars file language error h => ?_⟩
  · rw [← Cutting.exists_tree_eq_error_iff]
    constructor
    · rintro ⟨start, stop, hError⟩
      exact ⟨_, hError⟩
    · rintro ⟨error, hError⟩
      obtain ⟨start, stop, -, rfl⟩ := hReport error hError
      exact ⟨start, stop, hError⟩
  · apply chunks_chunkFile_undetecting
    rw [cutsByLines_iff]
    exact Or.inr ⟨language, h.detected, Or.inr ⟨root, h.parsed, Or.inl ⟨error, h.failed⟩⟩⟩

end Chunker

/-! ## A tree of another text -/

namespace Stale

/-- A node of a function, of which nothing but the bytes matters. -/
def function (start stop : Nat) : ParseTree :=
  .node ⟨"function_item", true, none, start, stop, 0, 0⟩ []

/-- A tree with two functions that overlap. -/
def root : ParseTree :=
  .node ⟨"source_file", true, none, 0, 2, 0, 0⟩ [function 0 2, function 1 2]

/-- A file of one character of two bytes. The second function of its tree starts inside of it. -/
def file : SourceFile := ⟨"a.rs", "é", some root⟩

/-- Both functions are targets. -/
private lemma mem_collect_root : ⟨function 1 2, ⟨function 1 2, [root]⟩, .function⟩ ∈
    ChunkTarget.collect .rust root := by
  have hTarget : ∀ start, ChunkTarget.of? .rust ⟨function start 2, [root]⟩ =
      some ⟨function start 2, ⟨function start 2, [root]⟩, .function⟩ := by
    intro start
    have hRule : ChunkRule.of? .rust (function start 2).kind = some (.declaration .function) := rfl
    rw [ChunkTarget.of?, ChunkTarget.match?, hRule]
    rfl
  have hRoot : Cursor.namedChildren ⟨root, []⟩ =
      [⟨function 0 2, [root]⟩, ⟨function 1 2, [root]⟩] := rfl
  simp [ChunkTarget.collect, ChunkTarget.gather, ChunkTarget.passed, ChunkTarget.found, hRoot,
    hTarget]

/-- The first function could be cut out, but nothing of it is kept: the file is one window. -/
theorem chunks_stale :
    ∃ start stop, Chunker.standard.FailsAlong (fun _ _ => none) file .rust root
        (.invalidBoundaries start stop) ∧
      (Chunker.standard.chunkFile (fun _ _ => none) file).chunks =
        (Chunker.standard.undetecting.chunkFile (fun _ _ => none) file).chunks ∧
      (Chunker.standard.chunkFile (fun _ _ => none) file).chunks =
        [Chunk.create "a.rs" 1 1 "é" .block { language := "rust" }] := by
  have hBad : ¬Text.IsSlice "é" 1 2 := fun h => absurd h.start_isBoundary (by decide +kernel)
  obtain ⟨hIff, -, hChunks⟩ :=
    Chunker.fallsBack_iff_exists_target (Chunker.standard.cutting .rust file) root
  obtain ⟨start, stop, hError⟩ := hIff.2 ⟨_, mem_collect_root, hBad⟩
  have hFails : Chunker.standard.FailsAlong (fun _ _ => none) file .rust root
      (.invalidBoundaries start stop) := ⟨by decide +kernel, rfl, hError⟩
  have hSame := hChunks _ _ _ _ _ hFails
  exact ⟨start, stop, hFails, hSame, hSame.trans (by decide +kernel)⟩

end Stale

end CodeAtlas
