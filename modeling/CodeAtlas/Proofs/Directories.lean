import Mathlib.Data.List.Induction
import CodeAtlas.Path.Canonical
import CodeAtlas.Proofs.Lines

/-!
# Paths as walks through directories

A path takes a stack of directories, innermost first, to another one. A segment that stays in
place does nothing, `..` leaves the innermost directory, and any other segment enters one. An
absolute path starts at the root, where `..` does nothing. A relative path starts at some base and
leads nowhere if it leaves more directories than the base has. The canonical form of a path takes
the same walk, and there is one canonical form for each walk.

## Main definitions

* `CodeAtlas.SlashPath.enter`, `follow` — the walk of one segment and of a path.
* `CodeAtlas.Path.IsName` — a segment names a directory.
* `CodeAtlas.SlashPath.Tidy` — kept segments are names, behind some steps up.
* `CodeAtlas.SlashPath.IsCanonical`, `CodeAtlas.Path.IsCanonical` — paths and texts in canonical
  form.
* `CodeAtlas.SlashPath.LeadAlike` — two paths lead to the same place from every base.

## Main results

* `CodeAtlas.SlashPath.follow_canonical` — the canonical form takes the walk of the path.
* `CodeAtlas.SlashPath.isCanonical_canonical`, `canonical_of_isCanonical` — it is canonical, and
  what is canonical stays as it is.
* `CodeAtlas.SlashPath.canonical_parse_render` — a canonical path can be read back from its text.
* `CodeAtlas.SlashPath.IsCanonical.eq_of_leadAlike` — canonical paths that lead alike are equal.
* `CodeAtlas.Path.normalize_canonicalizes` — all this, for texts.
-/

set_option autoImplicit false

namespace CodeAtlas

/-! ## Segments of texts -/

namespace Path

/-- There is at least one segment. -/
lemma segments_ne_nil (text : String) : segments text ≠ [] := by
  simp [segments, List.splitOn_ne_nil]

/-- No segment holds a slash. -/
lemma slash_notMem_of_mem_segments {text segment : String} (h : segment ∈ segments text) :
    '/' ∉ segment.toList := by
  obtain ⟨piece, hPiece, rfl⟩ := List.mem_map.1 h
  rw [String.toList_ofList]
  exact Text.notMem_of_mem_splitOn _ _ piece hPiece

/-- The segments of a text, joined, are the text. -/
lemma intercalate_segments (text : String) : "/".intercalate (segments text) = text := by
  have hPieces : (segments text).map String.toList = text.toList.splitOn '/' := by
    simp [segments, Function.comp_def]
  rw [← String.toList_inj, String.toList_intercalate, hPieces]
  exact List.intercalate_splitOn '/'

/-- Segments that are joined can be told apart. -/
lemma segments_intercalate {parts : List String} (hParts : parts ≠ [])
    (h : ∀ part ∈ parts, '/' ∉ part.toList) : segments ("/".intercalate parts) = parts := by
  have hSplit : ("/".intercalate parts).toList.splitOn '/' = parts.map String.toList := by
    rw [String.toList_intercalate]
    refine List.splitOn_intercalate '/' ?_ (by simpa using hParts)
    intro piece hPiece
    obtain ⟨part, hPart, rfl⟩ := List.mem_map.1 hPiece
    exact h part hPart
  rw [segments, hSplit, List.map_map]
  simp [Function.comp_def]

/-- The segments of two texts with a slash between them. -/
lemma segments_append_slash (front back : String) :
    segments (front ++ "/" ++ back) = segments front ++ segments back := by
  have hSlash : (front ++ "/" ++ back).toList = front.toList ++ '/' :: back.toList := by
    simp [String.toList_append]
  rw [segments, hSlash, List.splitOn_append_cons_self, List.map_append]
  rfl

/-- A segment names a directory. -/
def IsName (segment : String) : Prop := segment ≠ "" ∧ segment ≠ "." ∧ segment ≠ ".."

instance (segment : String) : Decidable (IsName segment) :=
  inferInstanceAs (Decidable (_ ∧ _ ∧ _))

/-- A segment stays in place, goes up or names a directory. -/
lemma isStill_or_up_or_isName (segment : String) :
    isStill segment = true ∨ segment = ".." ∨ IsName segment := by
  by_cases hStill : isStill segment = true
  · exact Or.inl hStill
  · by_cases hUp : segment = ".."
    · exact Or.inr (Or.inl hUp)
    · simp only [isStill, Bool.or_eq_true, beq_iff_eq, not_or] at hStill
      exact Or.inr (Or.inr ⟨hStill.1, hStill.2, hUp⟩)

/-- What names a directory does not stay in place. -/
lemma IsName.isStill_eq_false {segment : String} (h : IsName segment) :
    isStill segment = false := by
  simp [isStill, h.1, h.2.1]

end Path

open CodeAtlas.Path (IsName)

namespace SlashPath

/-! ## Walks -/

/-- The stack of directories after a segment. Going up from no directory leads nowhere, except at
the root, where it does nothing. -/
def enter (absolute : Bool) (stack : List String) (segment : String) : Option (List String) :=
  if Path.isStill segment then some stack
  else if segment = ".." then
    match stack with
    | [] => if absolute then some [] else none
    | _ :: outer => some outer
  else some (segment :: stack)

/-- The stack of directories that a path leads to from a base. An absolute path does not look at the
base. -/
def follow (path : SlashPath) (base : List String) : Option (List String) :=
  path.segments.foldlM (enter path.absolute) (if path.absolute then [] else base)

variable {absolute : Bool}

/-- A segment that stays in place does nothing. -/
private lemma enter_of_isStill {segment : String} (h : Path.isStill segment = true)
    (stack : List String) : enter absolute stack segment = some stack := by
  simp [enter, h]

/-- A name is entered. -/
lemma enter_of_isName {segment : String} (h : IsName segment) (stack : List String) :
    enter absolute stack segment = some (segment :: stack) := by
  simp [enter, h.isStill_eq_false, h.2.2]

/-- Going up leaves the innermost directory. -/
private lemma enter_up_cons (directory : String) (stack : List String) :
    enter absolute (directory :: stack) ".." = some stack := rfl

/-- Names are entered one after the other. -/
private lemma foldlM_enter_names {names : List String} (h : ∀ name ∈ names, IsName name)
    (stack : List String) :
    names.foldlM (enter absolute) stack = some (names.reverse ++ stack) := by
  induction names generalizing stack with
  | nil => rfl
  | cons name rest ih =>
    rw [List.foldlM_cons, enter_of_isName (h name List.mem_cons_self)]
    show rest.foldlM (enter absolute) (name :: stack) = _
    rw [ih fun other hOther => h other (List.mem_cons_of_mem _ hOther)]
    simp

/-- Steps up leave as many directories, if there are so many. -/
private lemma foldlM_enter_ups (ups : Nat) (stack : List String) :
    (List.replicate ups "..").foldlM (enter false) stack =
      if ups ≤ stack.length then some (stack.drop ups) else none := by
  induction ups generalizing stack with
  | zero => simp
  | succ ups ih =>
    rw [List.replicate_succ, List.foldlM_cons]
    cases stack with
    | nil => simp [enter, Path.isStill]
    | cons directory outer =>
      rw [enter_up_cons]
      show (List.replicate ups "..").foldlM (enter false) outer = _
      rw [ih]
      simp

/-! ## Kept segments -/

/-- Segments that are kept, innermost first: names, behind steps up that an absolute path has
none of. -/
def Tidy (absolute : Bool) (kept : List String) : Prop :=
  ∃ names ups, kept = names ++ List.replicate ups ".." ∧ (∀ name ∈ names, IsName name) ∧
    (absolute = true → ups = 0)

/-- What is kept, outermost first: steps up, then names. -/
lemma Tidy.exists_reverse_eq {kept : List String} (h : Tidy absolute kept) :
    ∃ ups names, kept.reverse = List.replicate ups ".." ++ names ∧
      (∀ name ∈ names, IsName name) ∧ (absolute = true → ups = 0) := by
  obtain ⟨names, ups, rfl, hNames, hUps⟩ := h
  refine ⟨ups, names.reverse, ?_, fun name hName => hNames name (List.mem_reverse.1 hName), hUps⟩
  rw [List.reverse_append, List.reverse_replicate]

/-- A segment that stays in place is not kept. -/
lemma keep_of_isStill {segment : String} (h : Path.isStill segment = true)
    (kept : List String) : keep absolute kept segment = kept := by
  simp [keep, h]

/-- A name is kept. -/
lemma keep_of_isName {segment : String} (h : IsName segment) (kept : List String) :
    keep absolute kept segment = segment :: kept := by
  simp [keep, h.isStill_eq_false, h.2.2]

/-- Going up undoes a name. -/
lemma keep_up_of_isName {name : String} (h : IsName name) (kept : List String) :
    keep absolute (name :: kept) ".." = kept := by
  simp [keep, Path.isStill, h.2.2]

/-- Going up from no name is kept, unless the path is absolute. -/
lemma keep_up_replicate {ups : Nat} (h : absolute = true → ups = 0) :
    keep absolute (List.replicate ups "..") ".." =
      if absolute then [] else List.replicate (ups + 1) ".." := by
  cases absolute with
  | true =>
    rw [h rfl]
    rfl
  | false =>
    cases ups with
    | zero => rfl
    | succ ups => simp [keep, Path.isStill, List.replicate_succ]

/-- **One segment more leaves what is kept tidy.** -/
theorem Tidy.keep {kept : List String} (h : Tidy absolute kept) (segment : String) :
    Tidy absolute (keep absolute kept segment) := by
  rcases Path.isStill_or_up_or_isName segment with hStill | rfl | hName
  · rwa [keep_of_isStill hStill]
  · obtain ⟨names, ups, rfl, hNames, hUps⟩ := h
    cases names with
    | cons last before =>
      have hBefore := List.forall_mem_cons.1 hNames
      rw [List.cons_append, keep_up_of_isName hBefore.1]
      exact ⟨before, ups, rfl, hBefore.2, hUps⟩
    | nil =>
      rw [List.nil_append, keep_up_replicate hUps]
      cases absolute with
      | true => exact ⟨[], 0, rfl, by simp, fun _ => rfl⟩
      | false => exact ⟨[], ups + 1, rfl, by simp, by simp⟩
  · obtain ⟨names, ups, rfl, hNames, hUps⟩ := h
    rw [keep_of_isName hName]
    exact ⟨segment :: names, ups, rfl, List.forall_mem_cons.2 ⟨hName, hNames⟩, hUps⟩

/-- **What is kept takes the walk of what was gone through**, segment by segment. Only an absolute
path has to start at the root. -/
theorem foldlM_enter_keep {kept start : List String} (h : Tidy absolute kept)
    (hStart : absolute = true → start = []) (segment : String) :
    (keep absolute kept segment).reverse.foldlM (enter absolute) start =
      (kept.reverse ++ [segment]).foldlM (enter absolute) start := by
  rcases Path.isStill_or_up_or_isName segment with hStill | rfl | hName
  · rw [keep_of_isStill hStill, List.foldlM_append]
    simp [enter_of_isStill hStill]
  · -- A step up undoes the last name. Without one it is a further step up, or nothing at the root.
    obtain ⟨names, ups, rfl, hNames, hUps⟩ := h
    cases names with
    | cons last before =>
      have hLast : IsName last := hNames last List.mem_cons_self
      rw [List.cons_append, keep_up_of_isName hLast, List.reverse_cons, List.append_assoc,
        List.foldlM_append]
      simp [enter_of_isName hLast, enter_up_cons]
    | nil =>
      rw [List.nil_append, keep_up_replicate hUps]
      cases absolute with
      | true =>
        rw [hUps rfl, hStart rfl]
        rfl
      | false => simp [List.replicate_succ]
  · rw [keep_of_isName hName, List.reverse_cons]

/-- Segments that are kept were gone through. -/
private lemma mem_of_mem_keep {kept : List String} {segment other : String}
    (h : other ∈ keep absolute kept segment) : other ∈ kept ∨ other = segment := by
  unfold keep at h
  split at h
  · exact Or.inl h
  · split at h
    · next hUp =>
      split at h
      · split at h
        · cases h
        · exact Or.inr ((List.mem_singleton.1 h).trans hUp.symm)
      · split at h
        · exact Or.inl (List.mem_cons_of_mem _ h)
        · split at h
          · exact Or.inl h
          · exact (List.mem_cons.1 h).symm.imp_right fun hEq => hEq.trans hUp.symm
    · exact (List.mem_cons.1 h).symm

/-- What is kept of segments is tidy, is among them, and takes their walk. -/
lemma foldl_keep (segments start : List String) (hStart : absolute = true → start = []) :
    Tidy absolute (segments.foldl (keep absolute) []) ∧
    (∀ segment ∈ segments.foldl (keep absolute) [], segment ∈ segments) ∧
    (segments.foldl (keep absolute) []).reverse.foldlM (enter absolute) start =
      segments.foldlM (enter absolute) start := by
  -- From the back, since a segment is looked at when all before it are kept or dropped.
  induction segments using List.reverseRecOn with
  | nil => exact ⟨⟨[], 0, rfl, by simp, fun _ => rfl⟩, by simp, rfl⟩
  | append_singleton segments segment ih =>
    obtain ⟨hTidy, hMem, hWalk⟩ := ih
    rw [List.foldl_append, List.foldl_cons, List.foldl_nil]
    refine ⟨hTidy.keep segment, fun other hOther => ?_, ?_⟩
    · rcases mem_of_mem_keep hOther with hKept | rfl
      · exact List.mem_append_left _ (hMem other hKept)
      · exact List.mem_append_right _ (List.mem_singleton_self _)
    · rw [foldlM_enter_keep hTidy hStart, List.foldlM_append, List.foldlM_append, hWalk]

/-! ## Canonical paths -/

/-- A path in canonical form. -/
structure IsCanonical (path : SlashPath) : Prop where
  tidy : Tidy path.absolute path.segments.reverse
  plain : ∀ segment ∈ path.segments, '/' ∉ segment.toList

variable {path : SlashPath}

/-- **The canonical form takes the walk of the path.** -/
theorem follow_canonical (path : SlashPath) (base : List String) :
    path.canonical.follow base = path.follow base :=
  (foldl_keep path.segments _ fun h => if_pos h).2.2

/-- **The canonical form is canonical.** -/
theorem isCanonical_canonical (h : ∀ segment ∈ path.segments, '/' ∉ segment.toList) :
    path.canonical.IsCanonical := by
  obtain ⟨hTidy, hMem, -⟩ := @foldl_keep path.absolute path.segments [] fun _ => rfl
  constructor
  · rwa [canonical, List.reverse_reverse]
  · intro segment hSegment
    exact h segment (hMem segment (List.mem_reverse.1 hSegment))

/-- The segments of a canonical path: steps up, which an absolute path has none of, then names. -/
lemma IsCanonical.exists_segments_eq (h : path.IsCanonical) :
    ∃ ups names, path.segments = List.replicate ups ".." ++ names ∧
      (∀ name ∈ names, IsName name) ∧ (path.absolute = true → ups = 0) := by
  simpa using h.tidy.exists_reverse_eq

/-- Names are kept one after the other. -/
lemma foldl_keep_names {names : List String} (h : ∀ name ∈ names, IsName name)
    (kept : List String) : names.foldl (keep absolute) kept = names.reverse ++ kept := by
  induction names generalizing kept with
  | nil => rfl
  | cons name rest ih =>
    rw [List.foldl_cons, keep_of_isName (h name List.mem_cons_self),
      ih fun other hOther => h other (List.mem_cons_of_mem _ hOther)]
    simp

/-- Steps up are kept if the path is relative. -/
lemma foldl_keep_ups {ups : Nat} (h : absolute = true → ups = 0) :
    (List.replicate ups "..").foldl (keep absolute) [] = List.replicate ups ".." := by
  induction ups with
  | zero => rfl
  | succ ups ih =>
    have hRelative : absolute = false := by
      cases absolute with
      | true => exact absurd (h rfl) (Nat.succ_ne_zero ups)
      | false => rfl
    subst hRelative
    rw [List.replicate_succ', List.foldl_append, ih (by simp), List.foldl_cons, List.foldl_nil,
      keep_up_replicate (by simp), List.replicate_succ']
    rfl

/-- **What is canonical stays as it is.** -/
theorem canonical_of_isCanonical (h : path.IsCanonical) : path.canonical = path := by
  obtain ⟨ups, names, hSegments, hNames, hUps⟩ := h.exists_segments_eq
  have hKept : path.segments.foldl (keep path.absolute) [] = path.segments.reverse := by
    rw [hSegments, List.foldl_append, foldl_keep_ups hUps, foldl_keep_names hNames,
      List.reverse_append, List.reverse_replicate]
  rw [canonical, hKept, List.reverse_reverse]

/-- Where steps up and names lead to. -/
lemma follow_eq {ups : Nat} {names : List String}
    (hSegments : path.segments = List.replicate ups ".." ++ names)
    (hNames : ∀ name ∈ names, IsName name) (hUps : path.absolute = true → ups = 0)
    (base : List String) : path.follow base =
      if path.absolute then some names.reverse
      else if ups ≤ base.length then some (names.reverse ++ base.drop ups) else none := by
  unfold follow
  rw [hSegments, List.foldlM_append]
  cases hKind : path.absolute with
  | true =>
    rw [hUps hKind]
    simp [foldlM_enter_names hNames]
  | false =>
    simp only [Bool.false_eq_true, if_false, foldlM_enter_ups]
    split
    · exact foldlM_enter_names hNames _
    · rfl

/-- Every path leads somewhere from a base that is deep enough. -/
private lemma exists_isSome_follow (path : SlashPath) :
    ∃ depth, ∀ base : List String, depth ≤ base.length → (path.follow base).isSome := by
  have hTidy : Tidy path.absolute _ := (foldl_keep path.segments [] fun _ => rfl).1
  obtain ⟨ups, names, hSegments, hNames, hUps⟩ := hTidy.exists_reverse_eq
  refine ⟨ups, fun base hDeep => ?_⟩
  rw [← follow_canonical, @follow_eq path.canonical ups names hSegments hNames hUps, if_pos hDeep]
  split <;> rfl

/-- Two paths that both lead somewhere from a base of names lead to the same place. -/
def LeadAlike (path other : SlashPath) : Prop :=
  ∀ base : List String, (∀ name ∈ base, IsName name) →
    ∀ stack landing, path.follow base = some stack → other.follow base = some landing →
      stack = landing

/-- If names in front of what is left of a base are the same as others in front of what is left of
it, whatever the one name is that the base is made of, as much of it is left and the names are the
same.

**Proof sketch.** What is left more on the one side ends the other names, and so does as much of any
other base. Two bases of different names show that it is nothing. -/
private lemma eq_of_append_replicate_eq {ups more : Nat} {names others : List String}
    (h : ∀ name, IsName name →
      names ++ List.replicate more name = others ++ List.replicate ups name)
    (hLe : ups ≤ more) : ups = more ∧ names = others := by
  have hCancel : ∀ name, IsName name → names ++ List.replicate (more - ups) name = others := by
    intro name hName
    have hSplit : List.replicate more name =
        List.replicate (more - ups) name ++ List.replicate ups name := by
      rw [← List.replicate_add, Nat.sub_add_cancel hLe]
    have hBoth := h name hName
    rw [hSplit, ← List.append_assoc] at hBoth
    exact List.append_cancel_right hBoth
  have hA := hCancel "a" (by simp [IsName])
  have hB := hCancel "b" (by simp [IsName])
  have hSame : List.replicate (more - ups) "a" = List.replicate (more - ups) "b" :=
    List.append_cancel_left (hA.trans hB.symm)
  -- A surplus of directories would belong to the base, so it cannot be `a` and `b` at once.
  cases hMore : more - ups with
  | zero =>
    rw [hMore] at hA
    exact ⟨by omega, by simpa using hA⟩
  | succ surplus =>
    rw [hMore, List.replicate_succ, List.replicate_succ] at hSame
    exact absurd (List.cons.inj hSame).1 (by decide)

/-- **Canonical paths of one kind that lead alike are equal.**

**Proof sketch.** From a base that is deep enough a relative path keeps all but the innermost
directories and enters its names. Two bases of different names show how many directories are left,
and then the names are the same. -/
theorem IsCanonical.eq_of_leadAlike {other : SlashPath} (h : path.IsCanonical)
    (hOther : other.IsCanonical) (hKind : path.absolute = other.absolute)
    (hAlike : path.LeadAlike other) : path = other := by
  obtain ⟨ups, names, hSegments, hNames, hUps⟩ := h.exists_segments_eq
  obtain ⟨more, others, hMore, hOthers, hMoreUps⟩ := hOther.exists_segments_eq
  suffices hParts : ups = more ∧ names.reverse = others.reverse by
    obtain ⟨rfl, hReverse⟩ := hParts
    have hSame : path.segments = other.segments := by
      rw [hSegments, hMore, List.reverse_inj.1 hReverse]
    calc path = ⟨path.absolute, path.segments⟩ := rfl
      _ = ⟨other.absolute, other.segments⟩ := by rw [hKind, hSame]
      _ = other := rfl
  cases hAbsolute : path.absolute with
  | true =>
    have hEnds := hAlike [] (by simp) names.reverse others.reverse
      (by rw [follow_eq hSegments hNames hUps, if_pos hAbsolute])
      (by rw [follow_eq hMore hOthers hMoreUps, if_pos (hKind ▸ hAbsolute)])
    exact ⟨by rw [hUps hAbsolute, hMoreUps (hKind ▸ hAbsolute)], hEnds⟩
  | false =>
    have hBases : ∀ name, IsName name → names.reverse ++ List.replicate more name =
        others.reverse ++ List.replicate ups name := by
      intro name hName
      refine hAlike (List.replicate (ups + more) name) (fun one hOne => ?_) _ _ ?_ ?_
      · rwa [List.eq_of_mem_replicate hOne]
      · rw [follow_eq hSegments hNames hUps]
        simp [hAbsolute]
      · rw [follow_eq hMore hOthers hMoreUps]
        simp [← hKind, hAbsolute]
    rcases Nat.le_total ups more with hLe | hGe
    · exact eq_of_append_replicate_eq hBases hLe
    · obtain ⟨hUpsEq, hNamesEq⟩ :=
        eq_of_append_replicate_eq (fun name hName => (hBases name hName).symm) hGe
      exact ⟨hUpsEq.symm, hNamesEq.symm⟩

end SlashPath

/-! ## Texts -/

namespace Path

/-- Whether a text is a path that starts at the root. -/
def isAbsolute (text : String) : Bool := text.toList.head? == some '/'

/-- The stack of directories that a text leads to from a base. -/
def follow (text : String) (base : List String) : Option (List String) :=
  (SlashPath.parse text).follow base

/-- The segments of a path behind its root. -/
def behindRoot (text : String) : List String :=
  if isAbsolute text then (segments text).tail else segments text

/-- A text in canonical form: the root, the current directory, or a path without segments that stay
in place that goes up only if it is relative, and then before all else. -/
def IsCanonical (text : String) : Prop :=
  text = "/" ∨ text = "." ∨
    (∀ segment ∈ behindRoot text, segment ≠ "" ∧ segment ≠ ".") ∧
    (isAbsolute text = true → ".." ∉ behindRoot text) ∧
    (isAbsolute text = false →
      ∃ ups names, behindRoot text = List.replicate ups ".." ++ names ∧ ".." ∉ names)

/-- A path starts at the root exactly if its first segment is empty and there are others. -/
lemma isAbsolute_iff {text : String} :
    isAbsolute text = true ↔ ∃ rest, rest ≠ [] ∧ segments text = "" :: rest := by
  unfold isAbsolute segments
  cases text.toList with
  | nil => simp
  | cons c rest =>
    obtain ⟨first, others, hSplit⟩ := List.exists_cons_of_ne_nil (List.splitOn_ne_nil '/' rest)
    rw [List.splitOn_cons_eq_if_modifyHead, hSplit]
    by_cases hSlash : c = '/'
    · simp [hSlash]
    · simp [hSlash]

/-- A path that starts at the root is a slash and its segments behind the root. -/
private lemma segments_of_isAbsolute {text : String} (h : isAbsolute text = true) :
    behindRoot text ≠ [] ∧ segments text = "" :: behindRoot text := by
  obtain ⟨rest, hRest, hSegments⟩ := isAbsolute_iff.1 h
  rw [behindRoot, if_pos h, hSegments, List.tail_cons]
  exact ⟨hRest, rfl⟩

/-- What is joined of parts starts at the root only if the first part is empty. -/
private lemma isAbsolute_intercalate {first : String} {rest : List String} (hFirst : first ≠ "")
    (h : ∀ part ∈ first :: rest, '/' ∉ part.toList) :
    isAbsolute ("/".intercalate (first :: rest)) = false := by
  rw [Bool.eq_false_iff]
  intro hAbsolute
  obtain ⟨_, -, hSegments⟩ := isAbsolute_iff.1 hAbsolute
  rw [segments_intercalate (List.cons_ne_nil _ _) h] at hSegments
  exact hFirst (List.cons.inj hSegments).1

end Path

namespace SlashPath

open CodeAtlas.Path (isAbsolute behindRoot)

variable {path : SlashPath}

/-- A segment of a canonical path does not stay in place. -/
lemma IsCanonical.ne_of_mem_segments (h : path.IsCanonical) {segment : String}
    (hMem : segment ∈ path.segments) : segment ≠ "" ∧ segment ≠ "." := by
  obtain ⟨ups, names, hSegments, hNames, -⟩ := h.exists_segments_eq
  rw [hSegments, List.mem_append] at hMem
  rcases hMem with hUp | hName
  · rw [List.eq_of_mem_replicate hUp]
    decide
  · exact ⟨(hNames segment hName).1, (hNames segment hName).2.1⟩

/-- The text of an absolute path has its segments behind the root, one empty segment if there are
none. -/
lemma segments_render_of_absolute (h : path.IsCanonical) (hAbsolute : path.absolute = true) :
    isAbsolute path.render = true ∧ Path.segments path.render =
      "" :: if path.segments = [] then [""] else path.segments := by
  have hRender : path.render = "" ++ "/" ++ "/".intercalate path.segments := by
    rw [render, if_pos hAbsolute, String.empty_append]
  constructor
  · rw [hRender, isAbsolute]
    simp [String.toList_append]
  · rw [hRender, Path.segments_append_slash]
    split
    · next hNone =>
      rw [hNone]
      rfl
    · next hSome =>
      rw [Path.segments_intercalate hSome h.plain]
      rfl

/-- The text of a relative path has its segments, a dot if there are none. -/
lemma segments_render_of_relative (h : path.IsCanonical) (hRelative : path.absolute = false) :
    isAbsolute path.render = false ∧ Path.segments path.render =
      if path.segments = [] then ["."] else path.segments := by
  rw [render, hRelative]
  simp only [Bool.false_eq_true, if_false, List.isEmpty_iff]
  cases hSegments : path.segments with
  | nil => exact ⟨rfl, rfl⟩
  | cons first rest =>
    have hPlain : ∀ part ∈ first :: rest, '/' ∉ part.toList := hSegments ▸ h.plain
    have hFirst : first ≠ "" := (h.ne_of_mem_segments (hSegments ▸ List.mem_cons_self)).1
    simp only [List.cons_ne_nil, if_false]
    exact ⟨Path.isAbsolute_intercalate hFirst hPlain,
      Path.segments_intercalate (List.cons_ne_nil _ _) hPlain⟩

/-- The text of a path starts at the root if the path does. -/
lemma isAbsolute_render (h : path.IsCanonical) : isAbsolute path.render = path.absolute := by
  cases hKind : path.absolute with
  | true => exact (segments_render_of_absolute h hKind).1
  | false => exact (segments_render_of_relative h hKind).1

/-- **A canonical path can be read back from its text.**

**Proof sketch.** The text of the path starts at the root if the path does, and its segments are
those of the path, but for some that stand still. So reading them keeps the same names as reading
those of the path, which are canonical already. -/
theorem canonical_parse_render (h : path.IsCanonical) : (parse path.render).canonical = path := by
  have hKept : (Path.segments path.render).foldl (keep path.absolute) [] =
      path.segments.foldl (keep path.absolute) [] := by
    cases hKind : path.absolute with
    | true =>
      rw [(segments_render_of_absolute h hKind).2, List.foldl_cons, keep_of_isStill rfl]
      split
      · next hNone =>
        rw [hNone]
        rfl
      · rfl
    | false =>
      rw [(segments_render_of_relative h hKind).2]
      split
      · next hNone =>
        rw [hNone]
        rfl
      · rfl
  calc (parse path.render).canonical
    _ = ⟨isAbsolute path.render,
          ((Path.segments path.render).foldl (keep (isAbsolute path.render)) []).reverse⟩ := rfl
    _ = path.canonical := by rw [isAbsolute_render h, hKept, canonical]
    _ = path := canonical_of_isCanonical h

/-- The text of a canonical path is in canonical form. -/
private lemma isCanonical_render (h : path.IsCanonical) : Path.IsCanonical path.render := by
  by_cases hNone : path.segments = []
  · cases hKind : path.absolute with
    | true => exact Or.inl (by rw [render, if_pos hKind, hNone]; rfl)
    | false => exact Or.inr (Or.inl (by simp [render, hKind, hNone]))
  · have hBehind : behindRoot path.render = path.segments := by
      unfold behindRoot
      cases hKind : path.absolute with
      | true =>
        obtain ⟨hAbsolute, hSegments⟩ := segments_render_of_absolute h hKind
        rw [if_pos hAbsolute, hSegments, if_neg hNone, List.tail_cons]
      | false =>
        obtain ⟨hRelative, hSegments⟩ := segments_render_of_relative h hKind
        rw [hRelative, hSegments, if_neg hNone]
        rfl
    obtain ⟨ups, names, hSegments, hNames, hUps⟩ := h.exists_segments_eq
    have hUp : ".." ∉ names := fun hMem => (hNames ".." hMem).2.2 rfl
    refine Or.inr (Or.inr ⟨fun segment hMem => ?_, fun hAbsolute => ?_, fun _ => ?_⟩)
    · exact h.ne_of_mem_segments (hBehind ▸ hMem)
    · rw [isAbsolute_render h] at hAbsolute
      rw [hBehind, hSegments, hUps hAbsolute]
      exact hUp
    · exact ⟨ups, names, hBehind.trans hSegments, hUp⟩

end SlashPath

namespace Path

open SlashPath (parse canonical_parse_render isCanonical_canonical)

/-- A text is its segments behind the root, and the root if it starts there. -/
private lemma render_behindRoot (text : String) :
    SlashPath.render ⟨isAbsolute text, behindRoot text⟩ = text := by
  unfold SlashPath.render
  cases hKind : isAbsolute text with
  | true =>
    obtain ⟨hBehind, hSegments⟩ := segments_of_isAbsolute hKind
    have hJoined : "/".intercalate ("" :: behindRoot text) = text := by
      rw [← hSegments, intercalate_segments]
    simpa [String.intercalate_cons_of_ne_nil hBehind] using hJoined
  | false =>
    have hBehind : behindRoot text = segments text := by
      rw [behindRoot, hKind]
      rfl
    simp only [Bool.false_eq_true, if_false, List.isEmpty_iff, hBehind, segments_ne_nil,
      intercalate_segments]

/-- No segment behind the root holds a slash. -/
private lemma slash_notMem_of_mem_behindRoot {text segment : String}
    (h : segment ∈ behindRoot text) :
    '/' ∉ segment.toList := by
  have hSegments : segment ∈ segments text := by
    unfold behindRoot at h
    split at h
    · exact List.mem_of_mem_tail h
    · exact h
  exact slash_notMem_of_mem_segments hSegments

/-- A text in canonical form is that of a canonical path. -/
private lemma IsCanonical.exists_render_eq {text : String} (h : IsCanonical text) :
    ∃ path : SlashPath, path.IsCanonical ∧ path.render = text := by
  rcases h with rfl | rfl | ⟨hStill, hAbsolute, hRelative⟩
  · exact ⟨⟨true, []⟩, ⟨⟨[], 0, rfl, by simp, fun _ => rfl⟩, by simp⟩, rfl⟩
  · exact ⟨⟨false, []⟩, ⟨⟨[], 0, rfl, by simp, fun _ => rfl⟩, by simp⟩, rfl⟩
  · have hTidy : SlashPath.Tidy (isAbsolute text) (behindRoot text).reverse := by
      cases hKind : isAbsolute text with
      | true =>
        refine ⟨(behindRoot text).reverse, 0, (List.append_nil _).symm, fun name hName => ?_,
          fun _ => rfl⟩
        have hMem := List.mem_reverse.1 hName
        exact ⟨(hStill name hMem).1, (hStill name hMem).2,
          fun hUp => hAbsolute hKind (hUp ▸ hMem)⟩
      | false =>
        obtain ⟨ups, names, hBehind, hUp⟩ := hRelative hKind
        refine ⟨names.reverse, ups, ?_, fun name hName => ?_, fun hTrue => by cases hTrue⟩
        · rw [hBehind, List.reverse_append, List.reverse_replicate]
        · have hName := List.mem_reverse.1 hName
          have hMem : name ∈ behindRoot text := hBehind ▸ List.mem_append_right _ hName
          exact ⟨(hStill name hMem).1, (hStill name hMem).2, fun hEq => hUp (hEq ▸ hName)⟩
    exact ⟨⟨isAbsolute text, behindRoot text⟩,
      ⟨hTidy, fun _ hMem => slash_notMem_of_mem_behindRoot hMem⟩, render_behindRoot text⟩

/-- The canonical path of a text. -/
lemma isCanonical_parse (text : String) : (parse text).canonical.IsCanonical :=
  isCanonical_canonical fun _ hMem => slash_notMem_of_mem_segments hMem

/-- The canonical path of a text can be read back from the normal form of the text. -/
lemma canonical_parse_normalize (text : String) :
    (parse (normalize text)).canonical = (parse text).canonical :=
  canonical_parse_render (isCanonical_parse text)

/-- The normal form of a text takes the walk of the text. -/
lemma follow_normalize (text : String) (base : List String) :
    follow (normalize text) base = follow text base := by
  rw [follow, follow, ← SlashPath.follow_canonical, canonical_parse_normalize,
    SlashPath.follow_canonical]

/-- The normal form of a text starts at the root if the text does. -/
lemma isAbsolute_normalize (text : String) : isAbsolute (normalize text) = isAbsolute text :=
  SlashPath.isAbsolute_render (isCanonical_parse text)

/-- **Texts of one kind have the same normal form exactly if they lead alike.** -/
theorem normalize_eq_iff {text other : String} (hKind : isAbsolute text = isAbsolute other) :
    normalize text = normalize other ↔ (parse text).LeadAlike (parse other) := by
  constructor
  · intro hEq base _ stack landing hStack hLanding
    have hSame : follow text base = follow other base := by
      rw [← follow_normalize text, hEq, follow_normalize]
    exact Option.some.inj (hStack.symm.trans (hSame.trans hLanding))
  · intro hAlike
    have hCanonical : (parse text).canonical = (parse other).canonical := by
      refine (isCanonical_parse text).eq_of_leadAlike (isCanonical_parse other) hKind ?_
      intro base hBase stack landing hStack hLanding
      rw [SlashPath.follow_canonical] at hStack hLanding
      exact hAlike base hBase stack landing hStack hLanding
    rw [normalize, normalize, hCanonical]

/-- The normal form of a text is in canonical form. -/
lemma isCanonical_normalize (text : String) : IsCanonical (normalize text) :=
  SlashPath.isCanonical_render (isCanonical_parse text)

/-- What is in canonical form is its own normal form. -/
private lemma normalize_of_isCanonical {text : String} (h : IsCanonical text) :
    normalize text = text := by
  obtain ⟨path, hPath, rfl⟩ := h.exists_render_eq
  rw [normalize, canonical_parse_render hPath]

/-- **Normal forms are canonical.** The normal form of a text starts at the root if the text does,
is in canonical form, and takes the walk of the text from every base, which leads somewhere if the
base is deep enough. What is in canonical form is its own normal form, so that a second time
changes nothing, and two texts of one kind have the same normal form exactly if they lead alike.

**Proof sketch.** One lemma for each part. The normal form is the text of the canonical path of the
text. That path is read back from its text (`SlashPath.canonical_parse_render`), which gives the
part on forms and with it the second time, and it leads where the text leads. Two canonical paths of
one kind that lead alike are the same, since bases of different names tell apart what belongs to the
base (`SlashPath.eq_of_append_replicate_eq`). -/
theorem normalize_canonicalizes (text : String) :
    isAbsolute (normalize text) = isAbsolute text ∧
    IsCanonical (normalize text) ∧
    (∃ depth, ∀ base : List String, depth ≤ base.length → (follow text base).isSome) ∧
    (∀ base, follow (normalize text) base = follow text base) ∧
    (∀ form, IsCanonical form → normalize form = form) ∧
    normalize (normalize text) = normalize text ∧
    ∀ other, isAbsolute text = isAbsolute other →
      (normalize text = normalize other ↔ (parse text).LeadAlike (parse other)) := by
  refine ⟨isAbsolute_normalize text, isCanonical_normalize text,
    SlashPath.exists_isSome_follow (parse text), follow_normalize text,
    fun _ => normalize_of_isCanonical, ?_, fun _ => normalize_eq_iff⟩
  exact normalize_of_isCanonical (isCanonical_normalize text)

/-- A detour through a directory and a doubled slash lead to one place, whose canonical form goes up
first. -/
theorem normalize_detour :
    IsCanonical "../lib/b" ∧ normalize "../lib/b" = "../lib/b" ∧
    isAbsolute "../lib/a/../b" = isAbsolute ".././lib//b" ∧
    (parse "../lib/a/../b").LeadAlike (parse ".././lib//b") := by
  have hForm : IsCanonical "../lib/b" :=
    Or.inr (Or.inr ⟨by decide, by decide, fun _ => ⟨1, ["lib", "b"], by decide, by decide⟩⟩)
  have hKind : isAbsolute "../lib/a/../b" = isAbsolute ".././lib//b" := by decide
  obtain ⟨-, -, -, -, hFixed, -, hAlike⟩ := normalize_canonicalizes "../lib/a/../b"
  exact ⟨hForm, hFixed _ hForm, hKind, (hAlike _ hKind).1 (by decide)⟩

end Path

end CodeAtlas
