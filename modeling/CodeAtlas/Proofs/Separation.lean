import Mathlib.Data.List.Chain
import CodeAtlas.Proofs.Parts

/-!
# Windows of one split are never merged

A window is closed because the next line would take it over the budget, and the next window holds
that line. So the two together are over the budget as well, and the test that would merge their
chunks refuses them. It does so even if chunks before the first window have been merged into it,
since this only makes the merger longer. The merge pass therefore treats both sides of the border
between two windows apart from each other.

## Main definitions

* `CodeAtlas.Chunk.Barred` — two chunks are over the budget together.
* `CodeAtlas.Window.toChunk` — the chunk of a window.

## Main results

* `CodeAtlas.Window.isChain_split` — neighbouring windows of a split are barred from a merger.
* `CodeAtlas.Chunk.mergeAll_append` — between barred neighbours the merge pass starts anew.
* `CodeAtlas.Window.mergeAll_split` — between two windows of a split the merge pass starts anew.
-/

set_option autoImplicit false

namespace CodeAtlas

/-! ## Barred neighbours -/

namespace Chunk

/-- Two chunks are barred from a merger: joined, they have too many tokens or too many lines. -/
def Barred (budget : Budget) (chunk next : Chunk) : Prop :=
  budget.maxTokens < Text.tokens (joinedContent chunk next) ∨
    budget.maxLines ≤ next.endLine - chunk.startLine

/-- The length of two contents, one below the other. -/
lemma length_joinedContent (chunk next : Chunk) :
    (joinedContent chunk next).length = chunk.content.length + 1 + next.content.length := by
  rw [joinedContent, String.length_append, String.length_append]
  rfl

/-- A chunk is not merged with a neighbour that is barred from a shorter chunk which starts no
earlier. -/
lemma Barred.not_mergeable {budget : Budget} {chunk next : Chunk} (h : Barred budget chunk next)
    {grown : Chunk} (hStart : grown.startLine ≤ chunk.startLine)
    (hLength : chunk.content.length ≤ grown.content.length) :
    mergeable budget grown next = false := by
  rw [Bool.eq_false_iff]
  intro hMergeable
  simp only [mergeable, Bool.and_eq_true, decide_eq_true_eq] at hMergeable
  obtain ⟨⟨-, hLines⟩, hTokens⟩ := hMergeable
  rcases h with hTooLong | hTooMany
  · have hMono : Text.tokens (joinedContent chunk next) ≤ Text.tokens (joinedContent grown next) :=
      Text.tokensOfLength_mono (by rw [length_joinedContent, length_joinedContent]; omega)
    omega
  · omega

/-- The merge pass starts anew behind a chunk that is barred from the next, whatever it has merged
before.

**Proof sketch.** Induction on the chunks in front. The chunk that the pass carries along starts no
earlier than any of those it was merged from, and in the end it is at least as long as the last of
them, so it is not merged with the next. -/
private lemma mergeFrom_append (budget : Budget) {last next : Chunk} (h : Barred budget last next)
    (back front : List Chunk) :
    ∀ chunk : Chunk, chunk.startLine ≤ last.startLine →
      (∀ c ∈ front, c.startLine ≤ last.startLine) →
      mergeFrom budget chunk (front ++ last :: next :: back) =
        mergeFrom budget chunk (front ++ [last]) ++ mergeFrom budget next back := by
  induction front with
  | nil =>
    intro chunk hChunk _
    rw [List.nil_append, List.nil_append, mergeFrom]
    split
    · next hMergeable =>
      have hGrown : mergeable budget (merge chunk last) next = false := by
        refine h.not_mergeable hChunk ?_
        show last.content.length ≤ (joinedContent chunk last).length
        rw [length_joinedContent]
        omega
      simp [mergeFrom, hMergeable, hGrown]
    · next hMergeable =>
      have hLast : mergeable budget last next = false :=
        h.not_mergeable (Nat.le_refl _) (Nat.le_refl _)
      simp [mergeFrom, hMergeable, hLast]
  | cons first front ih =>
    intro chunk hChunk hFront
    have hBehind : ∀ c ∈ front, c.startLine ≤ last.startLine :=
      fun c hc => hFront c (List.mem_cons_of_mem _ hc)
    rw [List.cons_append, List.cons_append, mergeFrom, mergeFrom]
    split
    · exact ih (merge chunk first) hChunk hBehind
    · rw [ih first (hFront first List.mem_cons_self) hBehind, List.cons_append]

/-- **Between barred neighbours the merge pass starts anew.** No chunk is merged from chunks on
both sides.

**Proof sketch.** If nothing stands before `last`, it is not merged with `next`. Otherwise the pass
comes to `last` with some merger in hand, which starts no later and is barred all the more
(`mergeFrom_append`). -/
theorem mergeAll_append (budget : Budget) {last next : Chunk} (h : Barred budget last next)
    {front : List Chunk} (hFront : ∀ c ∈ front, c.startLine ≤ last.startLine)
    (back : List Chunk) :
    mergeAll budget (front ++ [last] ++ next :: back) =
      mergeAll budget (front ++ [last]) ++ mergeAll budget (next :: back) := by
  rw [List.append_assoc, List.singleton_append]
  cases front with
  | nil =>
    have hLast : mergeable budget last next = false :=
      h.not_mergeable (Nat.le_refl _) (Nat.le_refl _)
    simp [mergeAll, mergeFrom, hLast]
  | cons first front =>
    exact mergeFrom_append budget h back front first (hFront first List.mem_cons_self)
      fun c hc => hFront c (List.mem_cons_of_mem _ hc)

end Chunk

/-! ## Neighbouring windows -/

namespace Run

/-- A line is no longer than a run that holds it. -/
private lemma length_le_joinedLength {line : String} {lines : List String} (h : line ∈ lines) :
    line.length ≤ joinedLength lines := by
  induction lines with
  | nil => simp at h
  | cons first rest ih =>
    rw [joinedLength_cons]
    rcases List.mem_cons.1 h with rfl | h
    · split <;> omega
    · rw [if_neg (by have := List.length_pos_of_mem h; omega)]
      have := ih h
      omega

end Run

namespace Window

/-- The chunk of a window. -/
def toChunk (path : String) (kind : ChunkKind) (metadata : ChunkMetadata) (window : Window) :
    Chunk :=
  Chunk.create path window.startLine window.endLine window.content kind metadata

/-- A window is closed before another: that one starts later, and together they are over the
budget. -/
structure ClosedBefore (budget : Budget) (window next : Window) : Prop where
  startLine_lt : window.startLine < next.startLine
  over_budget :
    budget.maxTokens < Text.tokensOfLength (window.content.length + 1 + next.content.length) ∨
      budget.maxLines ≤ next.endLine - window.startLine

/-- The chunks of a window and of one that it is closed before are barred from a merger. -/
lemma ClosedBefore.barred {budget : Budget} {window next : Window}
    (h : ClosedBefore budget window next) (path : String) (kind : ChunkKind)
    (metadata : ChunkMetadata) :
    Chunk.Barred budget (window.toChunk path kind metadata) (next.toChunk path kind metadata) := by
  refine h.over_budget.imp_left fun hTokens => ?_
  rw [Text.tokens, Chunk.length_joinedContent]
  exact hTokens

/-- The first window of an open run starts where the run does and holds all of its lines. -/
lemma exists_windows_eq_cons (budget : Budget) (lines : List String) :
    ∀ (start : Nat) (run : Run), run.size ≠ 0 →
      ∃ window others more, windows budget start run lines = window :: others ∧
        window.startLine = start ∧ window.lines = run.newest.reverse ++ more := by
  induction lines with
  | nil =>
    intro start run hSize
    refine ⟨ofRun start run, [], [], ?_, rfl, by simp [ofRun]⟩
    rw [windows, if_neg hSize]
  | cons line rest ih =>
    intro start run hSize
    rw [windows]
    split
    · exact ⟨ofRun start run, _, [], rfl, rfl, by simp [ofRun]⟩
    · obtain ⟨window, others, more, hEq, hStart, hLines⟩ :=
        ih start (run.push line) (Nat.succ_ne_zero _)
      refine ⟨window, others, line :: more, hEq, hStart, ?_⟩
      rw [hLines]
      simp [Run.push]

/-- A full run is closed before the first window that starts with lines it shares and the line that
did not fit.

**Proof sketch.** The two share fewer lines than the run has, so the window starts later. A full run
has no room for the line in its tokens, and then neither do the two contents together, or it has
none in its lines, and then the window ends beyond the limit. -/
private lemma closedBefore_of_isFull {budget : Budget} {run : Run} {line : String}
    (hFull : run.isFull budget line = true) (start : Nat) {window : Window}
    (hStart : window.startLine = start + run.size - (run.overlap budget line).size)
    {more : List String}
    (hLines : window.lines = ((run.overlap budget line).push line).newest.reverse ++ more) :
    ClosedBefore budget (ofRun start run) window := by
  have hSize := size_ne_zero_of_isFull hFull
  have hShared := Run.size_overlap_le budget run line
  have hCount : (run.overlap budget line).size + 1 ≤ window.lines.length := by
    have hPushed : ((run.overlap budget line).push line).newest.length =
        (run.overlap budget line).size + 1 := ((run.overlap budget line).push line).size_eq.symm
    rw [hLines, List.length_append, List.length_reverse, hPushed]
    omega
  refine ⟨?_, ?_⟩
  · show start < window.startLine
    omega
  · simp only [Run.isFull, Bool.and_eq_true, Bool.or_eq_true, decide_eq_true_eq] at hFull
    rcases hFull.2 with hTokens | hLinesFull
    · refine Or.inl (Nat.lt_of_lt_of_le hTokens (Text.tokensOfLength_mono ?_))
      -- the line that did not fit is one of the lines of the window
      have hMem : line ∈ window.lines := by
        rw [hLines]
        simp [Run.push]
      have hLine : line.length ≤ window.content.length := by
        rw [content, Run.length_intercalate]
        exact Run.length_le_joinedLength hMem
      have hRun : (ofRun start run).content.length = run.length := by
        rw [content, Run.length_intercalate, ofRun, Run.joinedLength_reverse, run.length_eq]
      rw [hRun]
      simp only [Run.push]
      rw [if_neg hSize]
      omega
    · refine Or.inr ?_
      have hCap : budget.maxLines ≤ lineCap budget := Nat.le_max_left _ _
      show budget.maxLines ≤ window.startLine + window.lines.length - 1 - start
      omega

/-- Each window is closed before the next one.

**Proof sketch.** Induction on the lines ahead. When a run is closed, the first window behind it
starts with the lines that the two share and with the line that did not fit
(`closedBefore_of_isFull`). -/
private lemma isChain_windows (budget : Budget) (lines : List String) :
    ∀ (start : Nat) (run : Run),
      (windows budget start run lines).IsChain (ClosedBefore budget) := by
  induction lines with
  | nil =>
    intro start run
    rw [windows]
    split
    · exact List.IsChain.nil
    · exact List.isChain_singleton _
  | cons line rest ih =>
    intro start run
    rw [windows]
    split
    · next hFull =>
      have hRest := ih (start + run.size - (run.overlap budget line).size)
        ((run.overlap budget line).push line)
      obtain ⟨window, others, more, hEq, hStart, hLines⟩ := exists_windows_eq_cons budget rest
        (start + run.size - (run.overlap budget line).size) ((run.overlap budget line).push line)
        (Nat.succ_ne_zero _)
      dsimp only
      rw [hEq] at hRest ⊢
      exact List.isChain_cons_cons.2 ⟨closedBefore_of_isFull hFull start hStart hLines, hRest⟩
    · exact ih start (run.push line)

/-- **Neighbouring windows are barred.** Of the windows of a text, each is closed before the next,
so that their chunks are never merged. -/
theorem isChain_split (budget : Budget) (text : String) (firstLine : Nat) :
    (split budget text firstLine).IsChain (ClosedBefore budget) :=
  isChain_windows budget _ _ _

/-- **Windows stay apart.** Wherever the windows of a text are divided in two, the merge pass treats
the chunks up to the border and those behind it apart from each other, whatever chunks stand before
and after them. So no chunk is merged from two windows of one split.

**Proof sketch.** The last window before the border and the first one behind it are neighbours in
the split, so they are barred (`isChain_split`), and `Chunk.mergeAll_append` applies to their
chunks. -/
theorem mergeAll_split (budget : Budget) {text : String} {firstLine : Nat}
    {left right : List Window} (h : split budget text firstLine = left ++ right)
    (hLeft : left ≠ []) (hRight : right ≠ []) (path : String) (kind : ChunkKind)
    (metadata : ChunkMetadata) {front : List Chunk} (back : List Chunk)
    (hOrder : (front ++ left.map (toChunk path kind metadata)).Pairwise
      fun a b => a.startLine ≤ b.startLine) :
    Chunk.mergeAll budget (front ++ left.map (toChunk path kind metadata) ++
        (right.map (toChunk path kind metadata) ++ back)) =
      Chunk.mergeAll budget (front ++ left.map (toChunk path kind metadata)) ++
        Chunk.mergeAll budget (right.map (toChunk path kind metadata) ++ back) := by
  obtain ⟨before, last, rfl⟩ := (List.eq_nil_or_concat' left).resolve_left hLeft
  obtain ⟨next, after, rfl⟩ := List.exists_cons_of_ne_nil hRight
  have hChain := isChain_split budget text firstLine
  rw [h, List.isChain_append] at hChain
  have hClosed : ClosedBefore budget last next := hChain.2.2 last (by simp) next (by simp)
  have hFront : ∀ c ∈ front ++ before.map (toChunk path kind metadata),
      c.startLine ≤ (last.toChunk path kind metadata).startLine := by
    rw [List.map_append, List.map_singleton, ← List.append_assoc] at hOrder
    exact fun c hc => (List.pairwise_append.1 hOrder).2.2 c hc _ (List.mem_singleton_self _)
  have hPass := Chunk.mergeAll_append budget (hClosed.barred path kind metadata) hFront
    (after.map (toChunk path kind metadata) ++ back)
  simpa only [List.map_append, List.map_cons, List.map_nil, List.append_assoc, List.cons_append,
    List.nil_append] using hPass

end Window

end CodeAtlas
