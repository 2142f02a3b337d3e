import Mathlib.Data.List.Sort
import Mathlib.Data.Prod.Lex
import Mathlib.Data.String.Basic
import GraphQL.Command.Run

/-! How the search for query files depends on the list of paths. Which files it finds depends on the
set of paths alone, since the files are sorted and repeats dropped. How many it passes over depends
on the list, in which a path counts as often as it stands. -/
namespace GraphQL

namespace Path

/-- A component by its form and, if it is a name, its text. -/
def Component.key : Component → ℕ ×ₗ String
  | .root => toLex (0, "")
  | .here => toLex (1, "")
  | .up => toLex (2, "")
  | .name text => toLex (3, text)

/-- The key of a component tells what it is. -/
theorem Component.key_injective : Function.Injective Component.key := by
  intro a b h
  cases a <;> cases b <;> simp_all [key]

/-- Components are compared by their keys. -/
theorem Component.before_iff {a b : Component} : a.before b = true ↔ a.key < b.key := by
  cases a <;> cases b <;> simp [before, rank, key, Prod.Lex.toLex_lt_toLex]

/-- Components as they are compared, the first that differ deciding. -/
def keys (components : List Component) : List (ℕ ×ₗ String) := components.map Component.key

theorem keys_injective : Function.Injective keys :=
  List.map_injective_iff.2 Component.key_injective

/-- Paths are compared component by component. -/
theorem notAfter_iff {as bs : List Component} : notAfter as bs = true ↔ keys as ≤ keys bs := by
  induction as generalizing bs with
  | nil => exact iff_of_true rfl (not_lt.1 (List.not_lt_nil _))
  | cons a as ih =>
      cases bs with
      | nil => exact iff_of_false Bool.false_ne_true (not_le.2 (List.nil_lt_cons _ _))
      | cons b bs =>
          have hCons : keys (b :: bs) < keys (a :: as) ↔
              b.key < a.key ∨ b.key = a.key ∧ keys bs < keys as := List.cons_lt_cons_iff
          rw [notAfter, Bool.or_eq_true, Bool.and_eq_true, Component.before_iff, beq_iff_eq, ih,
            ← not_lt (a := keys (b :: bs)), hCons]
          rcases lt_trichotomy a.key b.key with hLess | hSame | hMore
          · simp [hLess, hLess.not_gt, hLess.ne']
          · obtain rfl := Component.key_injective hSame
            simp
          · have hOther : a ≠ b := fun h => hMore.ne' (congrArg Component.key h)
            simp [hMore, hMore.not_gt, hOther]

end Path

namespace FoundFile

/-- The path of a file, as paths are compared. -/
def key (file : FoundFile) : List (ℕ ×ₗ String) := Path.keys (Path.components file.path)

/-- Whether a file does not come after another once files are sorted. -/
def notAfter (a b : FoundFile) : Bool :=
  Path.notAfter (Path.components a.path) (Path.components b.path)

/-- Files are compared by the keys of their paths. -/
theorem notAfter_iff {a b : FoundFile} : a.notAfter b = true ↔ a.key ≤ b.key := Path.notAfter_iff

end FoundFile

namespace Discovery

variable {walk : PathWalk} {view : FileView} {extensions paths : List String}
  {files : List FoundFile}

/-- The paths of the files that were found, in order. -/
def filePaths (found : Discovery) : List (List Path.Component) :=
  found.files.map fun file => Path.components file.path

/-- With fewer than two files nothing can repeat. -/
theorem dropRepeats_of_few (h : ∀ a b rest, files = a :: b :: rest → False) :
    dropRepeats files = files := by
  rw [dropRepeats]
  exact h

/-- Repeats are left out and the rest stays in order. -/
theorem dropRepeats_sublist (files : List FoundFile) : (dropRepeats files).Sublist files := by
  induction files using dropRepeats.induct with
  | case1 a b rest hSame ih =>
      rw [dropRepeats, if_pos hSame]
      exact ih.trans (.cons_cons a (List.sublist_cons_self b rest))
  | case2 a b rest hOther ih =>
      rw [dropRepeats, if_neg hOther]
      exact ih.cons_cons a
  | case3 files hFew => rw [dropRepeats_of_few hFew]

/-- Dropping repeats loses no path. -/
theorem mem_map_dropRepeats {path : List Path.Component} :
    path ∈ (dropRepeats files).map (fun file => Path.components file.path) ↔
      path ∈ files.map fun file => Path.components file.path := by
  induction files using dropRepeats.induct with
  | case1 a b rest hSame ih =>
      rw [dropRepeats, if_pos hSame, ih]
      simp [hSame]
  | case2 a b rest hOther ih =>
      rw [dropRepeats, if_neg hOther, List.map_cons, List.mem_cons, ih]
      simp
  | case3 files hFew => rw [dropRepeats_of_few hFew]

/-- What is left of sorted files is sorted strictly. -/
theorem pairwise_dropRepeats (h : files.Pairwise fun a b => a.key ≤ b.key) :
    (dropRepeats files).Pairwise fun a b => a.key < b.key := by
  induction files using dropRepeats.induct with
  | case1 a b rest hSame ih =>
      rw [dropRepeats, if_pos hSame]
      exact ih (h.sublist (.cons_cons a (List.sublist_cons_self b rest)))
  | case2 a b rest hOther ih =>
      obtain ⟨hFirst, hRest⟩ := List.pairwise_cons.1 h
      have hNext : a.key < b.key :=
        lt_of_le_of_ne (hFirst b List.mem_cons_self) (Path.keys_injective.ne hOther)
      rw [dropRepeats, if_neg hOther]
      refine List.pairwise_cons.2 ⟨fun file hFile => ?_, ih hRest⟩
      rcases List.mem_cons.1 ((dropRepeats_sublist (b :: rest)).subset hFile) with rfl | hLater
      · exact hNext
      · exact hNext.trans_le ((List.pairwise_cons.1 hRest).1 file hLater)
  | case3 files hFew =>
      rw [dropRepeats_of_few hFew]
      cases files with
      | nil => exact .nil
      | cons a rest =>
          cases rest with
          | nil => exact List.pairwise_singleton _ a
          | cons b rest => exact (hFew a b rest rfl).elim

/-- Ordered files go up strictly, so no path is left twice. -/
theorem sorted_ordered (files : List FoundFile) :
    (ordered files).Pairwise fun a b => a.key < b.key := by
  have hTrans (a b c : FoundFile) (hFirst : a.notAfter b = true) (hSecond : b.notAfter c = true) :
      a.notAfter c = true :=
    FoundFile.notAfter_iff.2 ((FoundFile.notAfter_iff.1 hFirst).trans
      (FoundFile.notAfter_iff.1 hSecond))
  have hTotal (a b : FoundFile) : (a.notAfter b || b.notAfter a) = true := by
    rw [Bool.or_eq_true, FoundFile.notAfter_iff, FoundFile.notAfter_iff]
    exact le_total _ _
  have hSorted := List.pairwise_mergeSort hTrans hTotal files
  exact pairwise_dropRepeats (hSorted.imp FoundFile.notAfter_iff.1)

/-- Ordering keeps every path and adds none. -/
theorem mem_map_ordered {path : List Path.Component} :
    path ∈ (ordered files).map (fun file => Path.components file.path) ↔
      ∃ file ∈ files, Path.components file.path = path := by
  rw [ordered, mem_map_dropRepeats, List.mem_map]
  simp only [List.mem_mergeSort]

/-- The file that a walk met, if it is one. -/
def file? : Walked → Option FoundFile
  | .ok (path, .file content) => some ⟨path, content⟩
  | _ => none

/-- The path that a walk met and could not read, with the reason. -/
def unreadable? : Walked → Option (String × AccessError)
  | .error unreadable => some unreadable
  | .ok _ => none

/-- The files at and under a path, as a walk meets them. -/
def filesAt (walk : PathWalk) (path : String) : List FoundFile := (walk path).filterMap file?

/-- The files at and under a path that are searched for. -/
def taken (walk : PathWalk) (extensions : List String) (path : String) : List FoundFile :=
  (filesAt walk path).filter fun file => hasExtension extensions file.path

/-- The files at and under a path that have none of the extensions. -/
def passedOver (walk : PathWalk) (extensions : List String) (path : String) : List FoundFile :=
  (filesAt walk path).filter fun file => !hasExtension extensions file.path

/-- What the search has found after it met some things, against the files among them. -/
theorem foldl_meet (met : List Walked) (found : Discovery) :
    met.foldl (meet extensions) found =
      { files := found.files ++
          (met.filterMap file?).filter fun file => hasExtension extensions file.path
        skipped := found.skipped +
          ((met.filterMap file?).filter fun file => !hasExtension extensions file.path).length
        unreadable := found.unreadable ++ met.filterMap unreadable? } := by
  induction met generalizing found with
  | nil => simp
  | cons next rest ih =>
      rw [List.foldl_cons, ih]
      rw [List.filterMap_cons, List.filterMap_cons]
      cases next with
      | error unreadable => simp [meet, file?, unreadable?]
      | ok walked =>
          obtain ⟨path, entry⟩ := walked
          cases entry with
          | directory size entries => rfl
          | file content =>
              cases hExtension : hasExtension extensions path with
              | true => simp [meet, file?, unreadable?, hExtension]
              | false => simp [meet, file?, unreadable?, hExtension, Nat.add_assoc, Nat.add_comm 1]

/-- A path adds the files taken under it. -/
theorem files_visit (found : Discovery) (path : String) :
    (visit walk extensions found path).files = found.files ++ taken walk extensions path := by
  rw [visit, foldl_meet]
  rfl

/-- A path adds to the number of entries passed over, whether they were met before or not. -/
theorem skipped_visit (found : Discovery) (path : String) :
    (visit walk extensions found path).skipped =
      found.skipped + (passedOver walk extensions path).length := by
  rw [visit, foldl_meet]
  rfl

/-- The files of all paths, one after another. -/
theorem files_foldl (found : Discovery) :
    (paths.foldl (visit walk extensions) found).files =
      found.files ++ paths.flatMap (taken walk extensions) := by
  induction paths generalizing found with
  | nil => exact (List.append_nil _).symm
  | cons path paths ih =>
      rw [List.foldl_cons, ih, files_visit, List.flatMap_cons, List.append_assoc]

/-- The entries passed over are counted once for each path that they are met under. -/
theorem skipped_foldl (found : Discovery) :
    (paths.foldl (visit walk extensions) found).skipped =
      found.skipped + (paths.flatMap (passedOver walk extensions)).length := by
  induction paths generalizing found with
  | nil => rfl
  | cons path paths ih =>
      rw [List.foldl_cons, ih, skipped_visit, List.flatMap_cons, List.length_append, Nat.add_assoc]

/-- Only a single path can ask for a file of any extension. -/
theorem orOnlyFile_eq (hPaths : 2 ≤ paths.length) (found : Discovery) :
    orOnlyFile view paths found = found := by
  unfold orOnlyFile
  split
  · exact absurd hPaths (Nat.not_le_of_lt (Nat.lt_succ_self 1))
  · rfl

/-- The files of a run are those taken under its paths, ordered and without repeats. -/
theorem files_run (hPaths : 2 ≤ paths.length) : (run walk view extensions paths).files =
    ordered (paths.flatMap (taken walk (extensions.map normalize))) := by
  rw [run, orOnlyFile_eq hPaths]
  exact congrArg ordered (files_foldl {})

/-- Each path counts as often as it is listed. -/
theorem skipped_run (hPaths : 2 ≤ paths.length) : (run walk view extensions paths).skipped =
    (paths.flatMap (passedOver walk (extensions.map normalize))).length := by
  rw [run, orOnlyFile_eq hPaths]
  exact (skipped_foldl {}).trans (Nat.zero_add _)

/-- The paths of a run go up strictly. -/
theorem sorted_filePaths_run (walk : PathWalk) (view : FileView) (extensions paths : List String) :
    ((run walk view extensions paths).filePaths.map Path.keys).SortedLT := by
  rw [filePaths, List.map_map]
  exact (List.pairwise_map.2 (sorted_ordered _)).sortedLT

/-- A path is found exactly if a file of it is taken under one of the paths listed. -/
theorem mem_filePaths_run (hPaths : 2 ≤ paths.length) {path : List Path.Component} :
    path ∈ (run walk view extensions paths).filePaths ↔ ∃ listed ∈ paths,
      ∃ file ∈ taken walk (extensions.map normalize) listed, Path.components file.path = path := by
  rw [filePaths, files_run hPaths, mem_map_ordered]
  simp only [List.mem_flatMap]
  grind

/-- The paths of the files that are found depend on the set of the listed paths alone. -/
theorem filePaths_run_congr {others : List String} (hPaths : 2 ≤ paths.length)
    (hOthers : 2 ≤ others.length) (hSame : ∀ path, path ∈ others ↔ path ∈ paths) :
    (run walk view extensions others).filePaths = (run walk view extensions paths).filePaths := by
  apply Path.keys_injective.list_map
  refine (sorted_filePaths_run ..).eq_of_mem_iff (sorted_filePaths_run ..) fun keys => ?_
  simp only [List.mem_map, mem_filePaths_run hPaths, mem_filePaths_run hOthers, hSame]

/-- Nothing is passed over where every file has one of the extensions. -/
theorem length_passedOver_eq_zero_iff {path : String} :
    (passedOver walk extensions path).length = 0 ↔
      ∀ file ∈ filesAt walk path, hasExtension extensions file.path = true := by
  simp [passedOver]

/-- What cannot be read is told of once for each path that it is met under. -/
theorem unreadable_foldl (found : Discovery) :
    (paths.foldl (visit walk extensions) found).unreadable =
      found.unreadable ++ paths.flatMap fun path => (walk path).filterMap unreadable? := by
  induction paths generalizing found with
  | nil => exact (List.append_nil _).symm
  | cons path paths ih =>
      rw [List.foldl_cons, ih, visit, foldl_meet, List.flatMap_cons, List.append_assoc]

/-- A run tells of all that cannot be read, in the order of its paths. -/
theorem unreadable_run (hPaths : 2 ≤ paths.length) :
    (run walk view extensions paths).unreadable =
      paths.flatMap fun path => (walk path).filterMap unreadable? := by
  rw [run, orOnlyFile_eq hPaths]
  exact (unreadable_foldl {}).trans (List.nil_append _)

/-- Whatever the walk through a path meets, what is found does not depend on the order in which
paths are listed. If one is listed once more, the same files are found, but those passed over at and
under it are counted once more. -/
theorem run_relisted (walk : PathWalk) (view : FileView) (extensions : List String)
    {paths : List String} (hPaths : 2 ≤ paths.length) :
    ((run walk view extensions paths).filePaths.map Path.keys).SortedLT ∧
    (∀ others, others.Perm paths →
      (run walk view extensions others).filePaths = (run walk view extensions paths).filePaths ∧
      (run walk view extensions others).skipped = (run walk view extensions paths).skipped) ∧
    ∀ path ∈ paths, ∀ others, others.Perm (path :: paths) →
      (run walk view extensions others).filePaths = (run walk view extensions paths).filePaths ∧
      (run walk view extensions others).skipped = (run walk view extensions paths).skipped +
        (passedOver walk (extensions.map normalize) path).length ∧
      ((run walk view extensions others).skipped = (run walk view extensions paths).skipped ↔
        ∀ file ∈ filesAt walk path, hasExtension (extensions.map normalize) file.path = true) := by
  refine ⟨sorted_filePaths_run .., fun others hPerm => ?_, fun path hPath others hPerm => ?_⟩
  · have hOthers : 2 ≤ others.length := hPerm.length_eq ▸ hPaths
    refine ⟨filePaths_run_congr hPaths hOthers fun _ => hPerm.mem_iff, ?_⟩
    rw [skipped_run hPaths, skipped_run hOthers]
    exact (hPerm.flatMap_right _).length_eq
  · have hOthers : 2 ≤ others.length := by
      rw [hPerm.length_eq, List.length_cons]
      exact Nat.le_succ_of_le hPaths
    have hSame (other : String) : other ∈ others ↔ other ∈ paths := by
      rw [hPerm.mem_iff, List.mem_cons, or_iff_right_of_imp]
      rintro rfl
      exact hPath
    have hSkipped : (run walk view extensions others).skipped =
        (run walk view extensions paths).skipped +
        (passedOver walk (extensions.map normalize) path).length := by
      rw [skipped_run hPaths, skipped_run hOthers, (hPerm.flatMap_right _).length_eq,
        List.flatMap_cons, List.length_append, Nat.add_comm]
    refine ⟨filePaths_run_congr hPaths hOthers hSame, hSkipped, ?_⟩
    rw [hSkipped, Nat.add_eq_left, length_passedOver_eq_zero_iff]

/-- A directory with a file that is not searched for, and one with a file that is. -/
def twoDirectories : Entry := .directory 0
  [("d", .directory 0 [("x.txt", .file "zz".toUTF8)]),
   ("e", .directory 0 [("a.gql", .file "{ a }".toUTF8)])]

theorem view_twoDirectories :
    twoDirectories.view "d" = .ok (.directory 0 [("x.txt", .file "zz".toUTF8)]) ∧
      twoDirectories.view "e" = .ok (.directory 0 [("a.gql", .file "{ a }".toUTF8)]) := by
  have hPieces : "d".splitOn "/" = ["d"] ∧ "e".splitOn "/" = ["e"] := by
    simp +decide only [String.splitOn, String.splitOnAux, ↓reduceIte]
  constructor
  · rw [Entry.view, if_neg (by decide +kernel), hPieces.1]
    simp [twoDirectories, Entry.descend]
  · rw [Entry.view, if_neg (by decide +kernel), hPieces.2]
    simp [twoDirectories, Entry.descend, List.lookup_cons]

theorem normalize_default : Arguments.defaultExtensions.map normalize = [".graphql", ".gql"] := by
  decide +kernel

theorem hasExtension_twoDirectories : hasExtension [".graphql", ".gql"] "d/x.txt" = false ∧
    hasExtension [".graphql", ".gql"] "e/a.gql" = true := by
  have hOther : Path.components "d/x.txt" = [.name "d", .name "x.txt"] := by
    simp +decide only [Path.components, String.splitOn, String.splitOnAux, ↓reduceIte]
  have hQuery : Path.components "e/a.gql" = [.name "e", .name "a.gql"] := by
    simp +decide only [Path.components, String.splitOn, String.splitOnAux, ↓reduceIte]
  constructor
  · rw [hasExtension, Path.extension?, Path.fileName?, hOther]
    decide
  · rw [hasExtension, Path.extension?, Path.fileName?, hQuery]
    decide

/-- The walks through the two directories. -/
theorem walk_twoDirectories :
    twoDirectories.view.walk "d" =
      [.ok ("d", .directory 0 [("x.txt", .file "zz".toUTF8)]),
        .ok ("d/x.txt", .file "zz".toUTF8)] ∧
    twoDirectories.view.walk "e" =
      [.ok ("e", .directory 0 [("a.gql", .file "{ a }".toUTF8)]),
        .ok ("e/a.gql", .file "{ a }".toUTF8)] := by
  have hPaths : Path.join "d" "x.txt" = "d/x.txt" ∧ Path.join "e" "a.gql" = "e/a.gql" := by
    decide +kernel
  constructor
  · rw [FileView.walk, view_twoDirectories.1]
    simp only [entriesUnder, entriesAmong, hPaths, List.append_nil, List.map_cons, List.map_nil]
  · rw [FileView.walk, view_twoDirectories.2]
    simp only [entriesUnder, entriesAmong, hPaths, List.append_nil, List.map_cons, List.map_nil]

theorem filesAt_twoDirectories :
    filesAt twoDirectories.view.walk "d" = [⟨"d/x.txt", "zz".toUTF8⟩] ∧
      filesAt twoDirectories.view.walk "e" = [⟨"e/a.gql", "{ a }".toUTF8⟩] := by
  constructor
  · rw [filesAt, walk_twoDirectories.1]
    rfl
  · rw [filesAt, walk_twoDirectories.2]
    rfl

theorem ordered_singleton (file : FoundFile) : ordered [file] = [file] := by
  rw [ordered, List.mergeSort_singleton]
  exact dropRepeats_of_few fun a b rest h => by cases h

/-- The search through directories of which the first is listed once or twice. -/
theorem run_twoDirectories :
    run twoDirectories.view.walk twoDirectories.view Arguments.defaultExtensions ["d", "e"] =
      ⟨[⟨"e/a.gql", "{ a }".toUTF8⟩], 1, []⟩ ∧
    run twoDirectories.view.walk twoDirectories.view Arguments.defaultExtensions ["d", "e", "d"] =
      ⟨[⟨"e/a.gql", "{ a }".toUTF8⟩], 2, []⟩ := by
  have hTaken : taken twoDirectories.view.walk [".graphql", ".gql"] "d" = [] ∧
      taken twoDirectories.view.walk [".graphql", ".gql"] "e" = [⟨"e/a.gql", "{ a }".toUTF8⟩] := by
    rw [taken, taken, filesAt_twoDirectories.1, filesAt_twoDirectories.2]
    simp [hasExtension_twoDirectories]
  have hOthers : (passedOver twoDirectories.view.walk [".graphql", ".gql"] "d").length = 1 ∧
      (passedOver twoDirectories.view.walk [".graphql", ".gql"] "e").length = 0 := by
    rw [passedOver, passedOver, filesAt_twoDirectories.1, filesAt_twoDirectories.2]
    simp [hasExtension_twoDirectories]
  have hFound (found : Discovery) : found = ⟨found.files, found.skipped, found.unreadable⟩ := rfl
  have hPaths : 2 ≤ ["d", "e"].length ∧ 2 ≤ ["d", "e", "d"].length := by decide
  constructor
  · rw [hFound (run ..), files_run hPaths.1, skipped_run hPaths.1, unreadable_run hPaths.1,
      normalize_default]
    simp [hTaken, hOthers, ordered_singleton, walk_twoDirectories, unreadable?]
  · rw [hFound (run ..), files_run hPaths.2, skipped_run hPaths.2, unreadable_run hPaths.2,
      normalize_default]
    simp [hTaken, hOthers, ordered_singleton, walk_twoDirectories, unreadable?]

/-- The directory that is listed again has one file that is passed over. -/
theorem run_relisted_directory :
    let find := run twoDirectories.view.walk twoDirectories.view Arguments.defaultExtensions
    (find ["d", "e", "d"]).filePaths = (find ["d", "e"]).filePaths ∧
      (find ["d", "e", "d"]).skipped ≠ (find ["d", "e"]).skipped := by
  have hPaths : 2 ≤ ["d", "e"].length := by decide
  obtain ⟨-, -, hRepeated⟩ := run_relisted twoDirectories.view.walk twoDirectories.view
    Arguments.defaultExtensions hPaths
  obtain ⟨hFiles, -, hAgree⟩ := hRepeated "d" (by decide) ["d", "e", "d"] (by decide)
  refine ⟨hFiles, mt hAgree.1 ?_⟩
  rw [filesAt_twoDirectories.1, normalize_default]
  simp [hasExtension_twoDirectories]

/-- One file is checked and one is passed over, but two are reported as skipped if the directory of
the latter is listed twice. -/
theorem report_of_repeated :
    (∀ path ∈ ["d", "e"], ∃ entry, twoDirectories.view path = .ok entry) ∧
    runCheck twoDirectories.view Arguments.defaultMaxBytes Arguments.defaultExtensions ["d", "e"] =
      .success (checkMark ++ " All query documents parsed successfully:\n" ++
        "  * Checked 1 file.\n  * Skipped 1 non-query file.\n" ++
        "  * Assembled 1 operation and 0 named fragments into 3 document parts.") ∧
    runCheck twoDirectories.view Arguments.defaultMaxBytes Arguments.defaultExtensions
        ["d", "e", "d"] =
      .success (checkMark ++ " All query documents parsed successfully:\n" ++
        "  * Checked 1 file.\n  * Skipped 2 non-query files.\n" ++
        "  * Assembled 1 operation and 0 named fragments into 3 document parts.") := by
  refine ⟨by simp [view_twoDirectories], ?_, ?_⟩
  · rw [runCheck, run_twoDirectories.1]
    decide +kernel
  · rw [runCheck, run_twoDirectories.2]
    decide +kernel

end Discovery

end GraphQL
