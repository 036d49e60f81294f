import CodeAtlas.Proofs.ImportDirectories

/-!
# Package levels

A dotted module reference starts with dots. One dot stands for the package of the importing file,
which is its directory, and each further dot for the package around the one before. The components
behind the dots lead down from there. Where the dots lead out of all known directories, the surplus
stays as steps up.

## Main definitions

* `CodeAtlas.Path.dotted` — the module reference with a number of leading dots.
* `CodeAtlas.Path.IsComponent` — what may stand between the dots of a module reference.

## Main results

* `CodeAtlas.SlashPath.foldl_keep_ups_of_names` — going up drops the innermost names, and what goes
  beyond them is kept.
* `CodeAtlas.Path.ofDottedModule_dotted` — a module reference as a specifier.
* `CodeAtlas.Path.resolveImport_dotted` — what a module reference means to an importing file.
-/

set_option autoImplicit false

namespace CodeAtlas

open CodeAtlas.Path (IsName)

namespace SlashPath

/-- **Going up drops the innermost names**, and what goes beyond them is kept.

**Proof sketch.** Induction on the steps up. Each takes one name as long as there are any. -/
theorem foldl_keep_ups_of_names {names : List String} (h : ∀ name ∈ names, IsName name)
    (ups : Nat) : (List.replicate ups "..").foldl (keep false) names =
      names.drop ups ++ List.replicate (ups - names.length) ".." := by
  induction ups generalizing names with
  | zero => simp
  | succ ups ih =>
    cases names with
    | nil => simpa using @foldl_keep_ups false (ups + 1) (by simp)
    | cons name outer =>
      obtain ⟨hName, hOuter⟩ := List.forall_mem_cons.1 h
      rw [List.replicate_succ, List.foldl_cons, keep_up_of_isName hName, ih hOuter]
      simp

/-- A relative path of plain names is canonical. -/
private lemma isCanonical_names {names : List String}
    (h : ∀ name ∈ names, IsName name ∧ '/' ∉ name.toList) : IsCanonical ⟨false, names⟩ where
  tidy := ⟨names.reverse, 0, by simp, fun name hName => (h name (List.mem_reverse.1 hName)).1,
    fun _ => rfl⟩
  plain name hName := (h name hName).2

/-- A relative path of steps up is canonical. -/
private lemma isCanonical_ups (ups : Nat) : IsCanonical ⟨false, List.replicate ups ".."⟩ where
  tidy := ⟨[], ups, by simp, by simp, fun h => by cases h⟩
  plain segment hSegment := by
    rw [List.eq_of_mem_replicate hSegment]
    decide

/-- What is kept of the text of a relative path is what is kept of its segments. -/
private lemma foldl_keep_segments_render {absolute : Bool} {segments : List String}
    (h : IsCanonical ⟨false, segments⟩) (kept : List String) :
    (Path.segments (render ⟨false, segments⟩)).foldl (keep absolute) kept =
      segments.foldl (keep absolute) kept := by
  rw [(segments_render_of_relative h rfl).2]
  split
  · next hNone =>
    have hSegments : segments = [] := hNone
    rw [hSegments]
    rfl
  · rfl

end SlashPath

namespace Path

open SlashPath (parse keep render isCanonical_names isCanonical_ups)

/-! ## Module references -/

/-- The module reference with this number of leading dots and these components behind them. -/
def dotted (dots : Nat) (components : List String) : String :=
  String.ofList (List.replicate dots '.') ++ ".".intercalate components

/-- What may stand between the dots of a module reference. -/
def IsComponent (component : String) : Prop :=
  component ≠ "" ∧ '.' ∉ component.toList ∧ '/' ∉ component.toList

instance (component : String) : Decidable (IsComponent component) :=
  inferInstanceAs (Decidable (_ ∧ _ ∧ _))

variable {components : List String}

/-- A component names a directory. -/
private lemma IsComponent.isName {component : String} (h : IsComponent component) :
    IsName component := by
  refine ⟨h.1, ?_, ?_⟩
  · rintro rfl
    exact h.2.1 (by decide)
  · rintro rfl
    exact h.2.1 (by decide)

/-- What is joined of components does not start with a dot. -/
private lemma head?_intercalate_ne_dot (h : ∀ component ∈ components, IsComponent component) :
    (".".intercalate components).toList.head? ≠ some '.' := by
  cases components with
  | nil => simp
  | cons first rest =>
    obtain ⟨hSome, hDot, -⟩ := h first List.mem_cons_self
    have hChars : first.toList ≠ [] := by simpa using hSome
    obtain ⟨c, others, hFirst⟩ := List.exists_cons_of_ne_nil hChars
    have hHead : c ≠ '.' := by
      rintro rfl
      exact hDot (hFirst ▸ List.mem_cons_self)
    cases rest with
    | nil => simpa [hFirst] using hHead
    | cons next rest => simpa [hFirst] using hHead

/-- Dots between components become slashes. -/
private lemma map_intercalate_dots (h : ∀ component ∈ components, '.' ∉ component.toList) :
    (".".intercalate components).toList.map (fun c => if c = '.' then '/' else c) =
      ("/".intercalate components).toList := by
  have hKeep : ∀ chars : List Char, '.' ∉ chars →
      chars.map (fun c => if c = '.' then '/' else c) = chars := by
    intro chars hChars
    calc chars.map (fun c => if c = '.' then '/' else c)
      _ = chars.map id := List.map_congr_left fun c hc => if_neg (by
        rintro rfl
        exact hChars hc)
      _ = chars := List.map_id chars
  induction components with
  | nil => rfl
  | cons first rest ih =>
    obtain ⟨hFirst, hRest⟩ := List.forall_mem_cons.1 h
    cases rest with
    | nil => simpa using hKeep _ hFirst
    | cons next rest =>
      rw [String.intercalate_cons_cons, String.intercalate_cons_cons, String.toList_append,
        String.toList_append, List.map_append, List.map_append, ih hRest, hKeep _ hFirst]
      simp

/-- Leading dots are told from what follows them, if that does not start with a dot. -/
private lemma span_dots (dots : Nat) {text : List Char} (h : text.head? ≠ some '.') :
    (List.replicate dots '.' ++ text).takeWhile (· == '.') = List.replicate dots '.' ∧
      (List.replicate dots '.' ++ text).dropWhile (· == '.') = text := by
  have hDots : ∀ c ∈ List.replicate dots '.', (c == '.') = true := by simp
  rw [List.takeWhile_append_of_pos hDots, List.dropWhile_append_of_pos hDots]
  cases text with
  | nil => simp
  | cons c rest =>
    have hHead : (c == '.') = false := by simpa using h
    simp [hHead]

/-- Steps up, each with a slash behind it. -/
private lemma join_ups (ups : Nat) : String.join (List.replicate (ups + 1) "../") =
    render ⟨false, List.replicate (ups + 1) ".."⟩ ++ "/" := by
  induction ups with
  | zero => rfl
  | succ ups ih =>
    rw [List.replicate_succ, String.join_cons, ih]
    simp [render, List.replicate_succ, String.append_assoc]

/-- **A module reference as a specifier.** The dots behind the first one go up, and the components
lead down from there.

**Proof sketch.** A component starts with no dot, so the leading dots are those in front and the
components, with slashes for the dots between them, are the rest. -/
theorem ofDottedModule_dotted (h : ∀ component ∈ components, IsComponent component) (ups : Nat) :
    ofDottedModule (dotted (ups + 1) components) =
      render ⟨false, List.replicate ups ".."⟩ ++ "/" ++ "/".intercalate components := by
  have hText : (dotted (ups + 1) components).toList =
      List.replicate (ups + 1) '.' ++ (".".intercalate components).toList := by
    rw [dotted, String.toList_append, String.toList_ofList]
  obtain ⟨hDots, hNames⟩ := span_dots (ups + 1) (head?_intercalate_ne_dot h)
  have hSlashes := map_intercalate_dots fun component hMem => (h component hMem).2.1
  unfold ofDottedModule
  simp only [hText, hDots, hNames, List.length_replicate, hSlashes, String.ofList_toList]
  cases ups with
  | zero => rfl
  | succ ups => exact congrArg (· ++ "/".intercalate components) (join_ups ups)

/-- A module reference with a leading dot points into the file tree. -/
private lemma isRelative_ofDottedModule (h : ∀ component ∈ components, IsComponent component)
    (ups : Nat) : isRelative (ofDottedModule (dotted (ups + 1) components)) = true := by
  rw [ofDottedModule_dotted h]
  cases ups with
  | zero => simp [isRelative, render]
  | succ ups =>
    cases ups with
    | zero => simp [isRelative, render]
    | succ ups => simp [isRelative, render, List.replicate_succ]

/-- What is kept of a module reference behind names: as many of them as the dots leave, and the
components. -/
private lemma foldl_keep_ofDottedModule (h : ∀ component ∈ components, IsComponent component)
    {names : List String} (hNames : ∀ name ∈ names, IsName name) (ups : Nat) :
    (segments (ofDottedModule (dotted (ups + 1) components))).foldl (keep false) names =
      components.reverse ++ (names.drop ups ++ List.replicate (ups - names.length) "..") := by
  have hComponents : ∀ kept : List String,
      (segments ("/".intercalate components)).foldl (keep false) kept =
        components.reverse ++ kept := by
    intro kept
    cases hSome : components with
    | nil => rfl
    | cons first rest =>
      rw [← hSome, segments_intercalate (by simp [hSome]) fun part hPart => (h part hPart).2.2,
        SlashPath.foldl_keep_names fun name hName => (h name hName).isName]
  rw [ofDottedModule_dotted h, segments_append_slash, List.foldl_append,
    SlashPath.foldl_keep_segments_render (isCanonical_ups ups),
    SlashPath.foldl_keep_ups_of_names hNames, hComponents]

/-! ## Imports -/

/-- What is imported from a file whose directories are names. -/
private lemma resolveImport_names {specifier : String} (hRelative : isRelative specifier = true)
    {directories : List String} (h : ∀ name ∈ directories, IsName name ∧ '/' ∉ name.toList)
    {file : String} (hFile : '/' ∉ file.toList) :
    resolveImport ("/".intercalate (directories ++ [file])) specifier =
      render ⟨false,
        ((segments specifier).foldl (keep false) directories.reverse).reverse⟩ := by
  have hCanonical := isCanonical_names h
  have hDirectory : render ⟨false, directories⟩ ≠ "" := by
    rw [← SlashPath.canonical_parse_render hCanonical]
    exact normalize_ne_empty _
  have hJoined : resolveImport ("/".intercalate (directories ++ [file])) specifier =
      normalize (render ⟨false, directories⟩ ++ "/" ++ specifier) := by
    by_cases hNone : directories = []
    · subst hNone
      exact resolveImport_of_notMem hRelative hFile
    · rw [String.intercalate_append_of_ne_nil hNone (by simp), String.intercalate_singleton]
      have hText : render ⟨false, directories⟩ = "/".intercalate directories := by
        simp [render, hNone]
      rw [← hText]
      exact resolveImport_append_slash hRelative hDirectory hFile
  rw [hJoined, normalize, canonical_parse_append_slash hDirectory,
    SlashPath.canonical_parse_render hCanonical, SlashPath.isAbsolute_render hCanonical]

/-- **Module references resolve by package level.** In a file below some directories, the dots
behind the first one leave as many of them, innermost first, and the components are joined to the
directories that are left. If there are fewer directories, the surplus stays as steps up. Nothing at
all is written as the current directory.

**Proof sketch.** The specifier is steps up and components below them, and the file stands in the
directories. So the import is their normal form, in which every step up takes the innermost
directory away and stays when none is left (`foldl_keep_ofDottedModule`). -/
theorem resolveImport_dotted (directories components : List String) (file : String) (ups : Nat)
    (hDirectories : ∀ name ∈ directories, IsName name ∧ '/' ∉ name.toList)
    (hFile : '/' ∉ file.toList) (hComponents : ∀ component ∈ components, IsComponent component) :
    resolveImport ("/".intercalate (directories ++ [file]))
        (ofDottedModule (dotted (ups + 1) components)) =
      render ⟨false,
        if ups ≤ directories.length then
          directories.take (directories.length - ups) ++ components
        else List.replicate (ups - directories.length) ".." ++ components⟩ := by
  have hNames : ∀ name ∈ directories.reverse, IsName name := fun name hName =>
    (hDirectories name (List.mem_reverse.1 hName)).1
  have hKept := foldl_keep_ofDottedModule hComponents hNames ups
  rw [resolveImport_names (isRelative_ofDottedModule hComponents ups) hDirectories hFile, hKept,
    List.drop_reverse, List.length_reverse]
  split
  · next hInside => simp [Nat.sub_eq_zero_of_le hInside]
  · next hOutside =>
    have hNone : directories.length - ups = 0 := by omega
    simp [hNone]

/-- A module two packages up from a file that is three directories deep, and the package around the
only directory of a file. -/
theorem resolveImport_dotted_views :
    resolveImport "app/api/v1/views.py" (ofDottedModule "...core.db") = "app/core/db" ∧
    resolveImport "app/views.py" (ofDottedModule "...") = ".." :=
  ⟨resolveImport_dotted ["app", "api", "v1"] ["core", "db"] "views.py" 2 (by decide) (by decide)
    (by decide), resolveImport_dotted ["app"] [] "views.py" 2 (by decide) (by decide) (by decide)⟩

end Path

end CodeAtlas
