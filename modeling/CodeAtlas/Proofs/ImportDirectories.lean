import CodeAtlas.Path.Import
import CodeAtlas.Proofs.Directories

/-!
# Imports and the spelling of directories

A specifier that points into the file tree is joined to the directory of the importing file, and
the result is brought into canonical form. How the directory is spelled does not matter: what is
kept of a joined path depends on the directory only through its own canonical form, since the
segments of the specifier are gone through after those of the directory. A file without a directory
stands in the current one.

## Main results

* `CodeAtlas.Path.normalize_normalize_append_slash` — a directory can be brought into canonical
  form before something is joined to it.
* `CodeAtlas.Path.parent_append_slash`, `parent_of_notMem` — the directory of a path.
* `CodeAtlas.Path.normalize_dropSlashes` — leading slashes of a specifier without a directory.
* `CodeAtlas.Path.resolveImport_respelled` — what an import means under each spelling of the
  directory.
-/

set_option autoImplicit false

namespace CodeAtlas

namespace Path

open SlashPath (parse keep)

/-! ## Joined paths -/

/-- A path that is joined to a directory starts at the root if the directory does. -/
lemma isAbsolute_append {directory : String} (h : directory ≠ "") (rest : String) :
    isAbsolute (directory ++ rest) = isAbsolute directory := by
  have hSome : directory.toList ≠ [] := by simpa using h
  obtain ⟨first, others, hDirectory⟩ := List.exists_cons_of_ne_nil hSome
  simp [isAbsolute, hDirectory]

/-- **What is joined to a directory goes on from what is kept of the directory.** -/
theorem canonical_parse_append_slash {directory : String} (h : directory ≠ "") (rest : String) :
    (parse (directory ++ "/" ++ rest)).canonical =
      ⟨isAbsolute directory, ((segments rest).foldl (keep (isAbsolute directory))
        (parse directory).canonical.segments.reverse).reverse⟩ := by
  have hKind : isAbsolute (directory ++ "/" ++ rest) = isAbsolute directory := by
    rw [String.append_assoc, isAbsolute_append h]
  calc (parse (directory ++ "/" ++ rest)).canonical
    _ = ⟨isAbsolute (directory ++ "/" ++ rest), ((segments (directory ++ "/" ++ rest)).foldl
          (keep (isAbsolute (directory ++ "/" ++ rest))) []).reverse⟩ := rfl
    _ = ⟨isAbsolute directory, ((segments rest).foldl (keep (isAbsolute directory))
          ((segments directory).foldl (keep (isAbsolute directory)) [])).reverse⟩ := by
      rw [hKind, segments_append_slash, List.foldl_append]
    _ = _ := by
      rw [SlashPath.canonical, List.reverse_reverse]
      rfl

/-- A normal form is not the empty text. -/
lemma normalize_ne_empty (text : String) : normalize text ≠ "" := by
  intro hEmpty
  rcases isCanonical_normalize text with hRoot | hHere | ⟨hStill, -, -⟩
  · rw [hEmpty] at hRoot
    exact absurd hRoot (by decide)
  · rw [hEmpty] at hHere
    exact absurd hHere (by decide)
  · rw [hEmpty] at hStill
    exact absurd hStill (by decide)

/-- **A directory can be brought into canonical form before something is joined to it.** -/
theorem normalize_normalize_append_slash {directory : String} (h : directory ≠ "")
    (rest : String) :
    normalize (normalize directory ++ "/" ++ rest) = normalize (directory ++ "/" ++ rest) := by
  have hSame : (parse (normalize directory ++ "/" ++ rest)).canonical =
      (parse (directory ++ "/" ++ rest)).canonical := by
    rw [canonical_parse_append_slash (normalize_ne_empty directory),
      canonical_parse_append_slash h, canonical_parse_normalize, isAbsolute_normalize]
  rw [normalize, hSame, normalize]

/-! ## The directory of a path -/

/-- A path without a slash is one segment. -/
lemma segments_of_notMem {name : String} (h : '/' ∉ name.toList) : segments name = [name] := by
  have hOne : "/".intercalate [name] = name := rfl
  rw [← hOne, segments_intercalate (List.cons_ne_nil _ _) (by simpa using h), hOne]

/-- A path without a slash has the empty directory. -/
theorem parent_of_notMem {name : String} (h : '/' ∉ name.toList) : parent name = "" := by
  rw [parent, segments_of_notMem h]
  rfl

/-- The directory of a file is what stands before its name, the root if nothing does.

**Proof sketch.** The name is the last segment, and the segments before it are those of the
directory, which joined are the directory again. -/
theorem parent_append_slash (directory : String) {name : String} (h : '/' ∉ name.toList) :
    parent (directory ++ "/" ++ name) = if directory = "" then "/" else directory := by
  have hFront : (segments (directory ++ "/" ++ name)).dropLast = segments directory := by
    rw [segments_append_slash, segments_of_notMem h, List.dropLast_concat]
  rw [parent, hFront]
  split
  · next hNone => exact absurd hNone (segments_ne_nil directory)
  · next hRoot =>
    have hEmpty : directory = "" := by rw [← intercalate_segments directory, hRoot]; rfl
    rw [if_pos hEmpty]
  · next hNotRoot =>
    have hSome : directory ≠ "" := by
      rintro rfl
      exact hNotRoot rfl
    rw [if_neg hSome, intercalate_segments]

/-- A path with a slash is a directory and the name of a file in it. -/
private lemma exists_eq_append_slash {path : String} (h : '/' ∈ path.toList) :
    ∃ directory name, '/' ∉ name.toList ∧ path = directory ++ "/" ++ name := by
  obtain ⟨back, front, hSplit, hBack⟩ := List.eq_append_cons_of_mem (List.mem_reverse.2 h)
  refine ⟨String.ofList front.reverse, String.ofList back.reverse, by simpa using hBack, ?_⟩
  rw [← String.toList_inj, ← List.reverse_reverse path.toList, hSplit]
  simp

/-! ## Specifiers without a directory -/

/-- Leading slashes are not kept. -/
private lemma foldl_keep_dropSlashes {absolute : Bool} (text : List Char) (kept : List String) :
    (segments (String.ofList (text.dropWhile (· == '/')))).foldl (keep absolute) kept =
      (segments (String.ofList text)).foldl (keep absolute) kept := by
  induction text with
  | nil => rfl
  | cons c rest ih =>
    by_cases hSlash : c = '/'
    · have hText : String.ofList ('/' :: rest) = "" ++ "/" ++ String.ofList rest := by
        rw [← String.toList_inj]
        simp
      rw [hSlash, List.dropWhile_cons_of_pos (by simp), ih, hText, segments_append_slash]
      rfl
    · rw [List.dropWhile_cons_of_neg (by simpa using hSlash)]

/-- What is left without leading slashes does not start at the root. -/
private lemma isAbsolute_dropSlashes (text : List Char) :
    isAbsolute (String.ofList (text.dropWhile (· == '/'))) = false := by
  have hHead := List.head?_dropWhile_not (· == '/') text
  rw [isAbsolute, String.toList_ofList]
  cases hRest : (text.dropWhile (· == '/')).head? with
  | none => rfl
  | some c => simpa [hRest] using hHead

/-- **A specifier without its leading slashes stands in the current directory.**

**Proof sketch.** Both texts lead from the current directory, and leading slashes are segments that
stand still. -/
theorem normalize_dropSlashes (specifier : String) :
    normalize (String.ofList (specifier.toList.dropWhile (· == '/'))) =
      normalize ("./" ++ specifier) := by
  have hHere : "./" ++ specifier = "." ++ "/" ++ specifier := rfl
  have hSame : (parse (String.ofList (specifier.toList.dropWhile (· == '/')))).canonical =
      (parse ("./" ++ specifier)).canonical := by
    rw [hHere, canonical_parse_append_slash (by decide)]
    show SlashPath.mk (isAbsolute _) ((segments _).foldl (keep (isAbsolute _)) []).reverse = _
    rw [isAbsolute_dropSlashes, foldl_keep_dropSlashes, String.ofList_toList]
    rfl
  rw [normalize, hSame, normalize]

/-! ## Imports -/

variable {specifier : String}

/-- What is imported from a file that has a directory. -/
lemma resolveImport_of_parent (h : isRelative specifier = true) {importer directory : String}
    (hParent : parent importer = directory) (hDirectory : directory ≠ "") :
    resolveImport importer specifier = normalize (directory ++ "/" ++ specifier) := by
  simp [resolveImport, h, hParent, hDirectory]

/-- What is imported from a file in a directory that is spelled out. -/
lemma resolveImport_append_slash (h : isRelative specifier = true) {directory name : String}
    (hDirectory : directory ≠ "") (hName : '/' ∉ name.toList) :
    resolveImport (directory ++ "/" ++ name) specifier =
      normalize (directory ++ "/" ++ specifier) :=
  resolveImport_of_parent h ((parent_append_slash directory hName).trans (if_neg hDirectory))
    hDirectory

/-- What is imported from a file without a directory. -/
lemma resolveImport_of_notMem (h : isRelative specifier = true) {name : String}
    (hName : '/' ∉ name.toList) :
    resolveImport name specifier = normalize ("./" ++ specifier) := by
  simp [resolveImport, h, parent_of_notMem hName, normalize_dropSlashes]

/-- What is imported starts at the root if the importing file does. -/
private lemma isAbsolute_resolveImport (h : isRelative specifier = true) (importer : String) :
    isAbsolute (resolveImport importer specifier) = isAbsolute importer := by
  by_cases hSlash : '/' ∈ importer.toList
  · obtain ⟨directory, name, hName, rfl⟩ := exists_eq_append_slash hSlash
    by_cases hDirectory : directory = ""
    · -- A file at the root has the root as its directory, which is not what stands before its name.
      have hRoot := (parent_append_slash directory hName).trans (if_pos hDirectory)
      rw [resolveImport_of_parent h hRoot (by decide), isAbsolute_normalize, hDirectory]
      simp [isAbsolute]
    · rw [resolveImport_append_slash h hDirectory hName, isAbsolute_normalize, String.append_assoc,
        String.append_assoc, isAbsolute_append hDirectory, isAbsolute_append hDirectory]
  · have hImporter : isAbsolute importer = false := by
      rw [isAbsolute, beq_eq_false_iff_ne]
      exact fun hHead => hSlash (List.mem_of_mem_head? hHead)
    rw [resolveImport_of_notMem h hSlash, isAbsolute_normalize, isAbsolute_append (by decide),
      hImporter]
    rfl

/-- **The spelling of a directory does not matter to imports.** A specifier that points into the
file tree means the same to a file under each spelling of its directory, namely the specifier joined
to the canonical form of the directory. To a file without a directory it means what it means in
the current one, and what it stands for starts at the root exactly if the importing file does.

**Proof sketch.** An import of a file with a directory is the normal form of the directory and the
specifier, joined (`resolveImport_append_slash`), and joining does not see how the directory is
spelled (`normalize_normalize_append_slash`). Without a directory the specifier loses its leading
slashes, which is as good as standing in the current one (`normalize_dropSlashes`). -/
theorem resolveImport_respelled (specifier : String) (hRelative : isRelative specifier = true) :
    (∀ directory name : String, directory ≠ "" → '/' ∉ name.toList →
      resolveImport (directory ++ "/" ++ name) specifier =
        normalize (normalize directory ++ "/" ++ specifier) ∧
      resolveImport (directory ++ "/" ++ name) specifier =
        resolveImport (normalize directory ++ "/" ++ name) specifier) ∧
    (∀ name : String, '/' ∉ name.toList →
      resolveImport name specifier = normalize ("./" ++ specifier)) ∧
    ∀ importer, isAbsolute (resolveImport importer specifier) = isAbsolute importer := by
  refine ⟨fun directory name hDirectory hName => ?_, fun _ => resolveImport_of_notMem hRelative,
    isAbsolute_resolveImport hRelative⟩
  rw [resolveImport_append_slash hRelative hDirectory hName,
    resolveImport_append_slash hRelative (normalize_ne_empty directory) hName,
    normalize_normalize_append_slash hDirectory]
  exact ⟨rfl, rfl⟩

/-- What a specifier means from a directory that is spelled with and without a detour, from the
current directory, and from a directory that starts at the root. -/
theorem resolveImport_util :
    isRelative "../utils/auth" = true ∧
    (resolveImport "src/routes/api.ts" "../utils/auth" = "src/utils/auth" ∧
      resolveImport "src/./app/..//routes/api.ts" "../utils/auth" = "src/utils/auth") ∧
    resolveImport "a.ts" "../utils/auth" = "../utils/auth" ∧
    (isAbsolute (resolveImport "/repo/src/a.ts" "../utils/auth") = true ∧
      resolveImport "/repo/src/a.ts" "../utils/auth" = "/repo/utils/auth") := by
  have hRelative : isRelative "../utils/auth" = true := by decide
  obtain ⟨hDirectories, hNames, hAbsolute⟩ := resolveImport_respelled "../utils/auth" hRelative
  have hPlain : resolveImport "src/routes/api.ts" "../utils/auth" = "src/utils/auth" :=
    (hDirectories "src/routes" "api.ts" (by decide) (by decide)).1.trans (by decide +kernel)
  have hDetour : resolveImport "src/./app/..//routes/api.ts" "../utils/auth" =
      resolveImport "src/routes/api.ts" "../utils/auth" :=
    (hDirectories "src/./app/..//routes" "api.ts" (by decide) (by decide)).2
  have hRoot : resolveImport "/repo/src/a.ts" "../utils/auth" = "/repo/utils/auth" :=
    (hDirectories "/repo/src" "a.ts" (by decide) (by decide)).1.trans (by decide +kernel)
  exact ⟨hRelative, ⟨hPlain, hDetour.trans hPlain⟩,
    (hNames "a.ts" (by decide)).trans (by decide +kernel), hAbsolute "/repo/src/a.ts", hRoot⟩

end Path

end CodeAtlas
