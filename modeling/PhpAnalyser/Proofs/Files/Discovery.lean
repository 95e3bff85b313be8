import PhpAnalyser.Proofs.Files.Order
import PhpAnalyser.Proofs.Files.Relisting
/-!
Which files paths stand for. If there is a file or a directory at each path, the source files at and
below them are found, each once, in increasing order, however directories list their entries and
however often and in whatever order the paths are given. If there is nothing at a path, that is an
error.
-/
namespace PhpAnalyser

namespace Entry

mutual

theorem mem_files (f : String) : ∀ (e : Entry) (path : String),
    f ∈ e.files path ↔ ∃ names, e.HasFile names ∧ f = names.foldl Path.join path
  | .file content, path => by
    rw [files, List.mem_singleton]
    constructor
    · intro same
      exact ⟨[], .here content, same⟩
    · rintro ⟨names, has, same⟩
      cases has
      exact same
  | .link target, path => by
    rw [files]
    constructor
    · simp
    · rintro ⟨names, has, -⟩
      cases has
  | .directory entries, path => by
    rw [files, mem_files_below f entries path]
    constructor
    · rintro ⟨name, e, names, listed, has, same⟩
      exact ⟨name :: names, .child listed has, same⟩
    · rintro ⟨names, has, same⟩
      cases has with
      | child listed has => exact ⟨_, _, _, listed, has, same⟩

theorem mem_files_below (f : String) : ∀ (entries : List (String × Entry)) (path : String),
    f ∈ filesBelow path entries ↔ ∃ name e names, (name, e) ∈ entries ∧ e.HasFile names ∧
      f = names.foldl Path.join (Path.join path name)
  | [], path => by simp [filesBelow]
  | (name, e) :: rest, path => by
    rw [filesBelow, List.mem_append, mem_files f e, mem_files_below f rest]
    constructor
    · rintro (⟨names, has, same⟩ | ⟨other, e', names, listed, has, same⟩)
      · exact ⟨name, e, names, List.mem_cons_self, has, same⟩
      · exact ⟨other, e', names, List.mem_cons_of_mem _ listed, has, same⟩
    · rintro ⟨other, e', names, listed, has, same⟩
      cases listed with
      | head => exact .inl ⟨names, has, same⟩
      | tail _ listed => exact .inr ⟨other, e', names, listed, has, same⟩

end

end Entry

def FileTree.Exists (t : FileTree) (path : String) : Prop :=
  (∃ content, t.find? path = some (.file content)) ∨
    ∃ entries, t.find? path = some (.directory entries)

theorem FileTree.exists_iff (t : FileTree) (path : String) :
    t.Exists path ↔ (t.find? path).isSome := by
  cases found : t.find? path with
  | none => simp [Exists, found]
  | some e =>
    cases e with
    | file content => simp [Exists, found]
    | directory entries => simp [Exists, found]
    | link target => exact absurd found (t.find_ne_link path target)

namespace Discovery

/-- A file that a path stands for: what is at the path leads to a regular file, by no link, and one
of the suffixes is that of the file. -/
def IsSource (t : FileTree) (suffixes : List String) (path f : String) : Prop :=
  ∃ e names, t.find? path = some e ∧ e.HasFile names ∧ f = names.foldl Path.join path ∧
    ∃ suffix ∈ suffixes, Path.suffix? f = some suffix

def found (t : FileTree) (suffixes paths : List String) : List String :=
  paths.flatMap fun path => (filesOf? t suffixes path).getD []

theorem has_suffix_iff (suffixes : List String) (f : String) :
    hasSuffix suffixes f = true ↔ ∃ suffix ∈ suffixes, Path.suffix? f = some suffix := by
  cases suffix : Path.suffix? f <;> simp [hasSuffix, suffix]

theorem mem_files_of (t : FileTree) (suffixes : List String) (path f : String) :
    f ∈ (filesOf? t suffixes path).getD [] ↔ IsSource t suffixes path f := by
  cases there : t.find? path with
  | none => simp [filesOf?, IsSource, there]
  | some e =>
    simp [filesOf?, IsSource, there, Entry.mem_files, has_suffix_iff, ← exists_and_right, and_assoc]

theorem mem_found (t : FileTree) (suffixes paths : List String) (f : String) :
    f ∈ found t suffixes paths ↔ ∃ path ∈ paths, IsSource t suffixes path f := by
  simp [found, mem_files_of]

def filesAt (t : FileTree) (suffixes : List String) (path : String) : Except String (List String) :=
  match filesOf? t suffixes path with
  | some files => .ok files
  | none => .error path

theorem discover_eq (t : FileTree) (suffixes paths : List String) :
    discover t suffixes paths =
      (do return arrange (← paths.mapM (filesAt t suffixes)).flatten) := rfl

theorem files_at_exists {t : FileTree} {path : String} (there : t.Exists path)
    (suffixes : List String) :
    filesAt t suffixes path = .ok ((filesOf? t suffixes path).getD []) := by
  obtain ⟨e, found⟩ := Option.isSome_iff_exists.mp ((t.exists_iff path).mp there)
  simp [filesAt, filesOf?, found]

theorem files_at_missing {t : FileTree} {path : String} (missing : ¬t.Exists path)
    (suffixes : List String) : filesAt t suffixes path = .error path := by
  rw [t.exists_iff, Option.not_isSome_iff_eq_none] at missing
  simp [filesAt, filesOf?, missing]

theorem files_at_all {t : FileTree} {paths : List String} (there : ∀ path ∈ paths, t.Exists path)
    (suffixes : List String) :
    paths.mapM (filesAt t suffixes) =
      .ok (paths.map fun path => (filesOf? t suffixes path).getD []) := by
  induction paths with
  | nil => rfl
  | cons path rest ih =>
    rw [List.mapM_cons, files_at_exists (there path (by simp)),
      ih fun other member => there other (by simp [member])]
    rfl

theorem discover_exists {t : FileTree} {paths : List String} (there : ∀ path ∈ paths, t.Exists path)
    (suffixes : List String) :
    discover t suffixes paths = .ok (arrange (found t suffixes paths)) := by
  rw [discover_eq, files_at_all there]
  rfl

/-- The first path at which there is nothing is the error. -/
theorem discover_missing {t : FileTree} {front rest : List String} {missing : String}
    (there : ∀ path ∈ front, t.Exists path) (nothing : ¬t.Exists missing) (suffixes : List String) :
    discover t suffixes (front ++ missing :: rest) = .error missing := by
  rw [discover_eq, List.mapM_append, files_at_all there, List.mapM_cons, files_at_missing nothing]
  rfl

theorem source_relisted {t t' : FileTree} (same : t.Relisted t') (suffixes : List String)
    (path f : String) : IsSource t suffixes path f ↔ IsSource t' suffixes path f := by
  have found := FileTree.find_relisted same path
  unfold IsSource
  revert found
  generalize t.find? path = e
  generalize t'.find? path = e'
  intro found
  cases found with
  | none => simp
  | some inside => simp [inside.has_file_iff]

theorem exists_relisted {t t' : FileTree} (same : t.Relisted t') (path : String) :
    t.Exists path ↔ t'.Exists path := by
  have found := FileTree.find_relisted same path
  rw [t.exists_iff, t'.exists_iff]
  revert found
  generalize t.find? path = e
  generalize t'.find? path = e'
  intro found
  cases found <;> simp

theorem first_missing {t : FileTree} {paths : List String} (gap : ∃ path ∈ paths, ¬t.Exists path) :
    ∃ front missing rest, paths = front ++ missing :: rest ∧ (∀ path ∈ front, t.Exists path) ∧
      ¬t.Exists missing := by
  induction paths with
  | nil => simp at gap
  | cons path paths ih =>
    by_cases there : t.Exists path
    · have later : ∃ path ∈ paths, ¬t.Exists path := by simpa [there] using gap
      obtain ⟨front, missing, rest, same, all, nothing⟩ := ih later
      exact ⟨path :: front, missing, rest, by simp [same], by simpa [there] using all, nothing⟩
    · exact ⟨[], path, paths, rfl, by simp, there⟩

/-- If there is a file or a directory at each path, the files found are increasing in the order of
paths and are the files that the paths stand for; trees that list their entries in another order and
the same paths in another order and number give the same files. Otherwise the first path at which
there is nothing is the error. -/
theorem discover_sources (t : FileTree) (suffixes paths : List String) :
    ((∀ path ∈ paths, t.Exists path) → ∃ files, discover t suffixes paths = .ok files ∧
      files.Pairwise Path.Before ∧
      (∀ f ∈ files, ∃ path ∈ paths, IsSource t suffixes path f) ∧
      (∀ path ∈ paths, ∀ f, IsSource t suffixes path f →
        ∃ kept ∈ files, Path.components kept = Path.components f) ∧
      ∀ t' paths', t.Relisted t' → (∀ path, path ∈ paths' ↔ path ∈ paths) →
        ∃ files', discover t' suffixes paths' = .ok files' ∧
          files'.map Path.components = files.map Path.components) ∧
    ((∃ path ∈ paths, ¬t.Exists path) → ∃ front missing rest, paths = front ++ missing :: rest ∧
      (∀ path ∈ front, t.Exists path) ∧ ¬t.Exists missing ∧
      discover t suffixes paths = .error missing) := by
  constructor
  · intro there
    refine ⟨_, discover_exists there suffixes, ?_, ?_, ?_, ?_⟩
    · simpa [Path.key_lt_key] using arrange_increasing (found t suffixes paths)
    · intro f member
      exact (mem_found t suffixes paths f).mp (mem_of_mem_arrange member)
    · intro path member f source
      have listed : f ∈ found t suffixes paths :=
        (mem_found t suffixes paths f).mpr ⟨path, member, source⟩
      obtain ⟨kept, inside, same⟩ := mem_arrange listed
      exact ⟨kept, inside, (Path.key_eq_key kept f).mp same⟩
    · intro t' paths' relisted listed
      have there' : ∀ path ∈ paths', t'.Exists path := fun path member =>
        (exists_relisted relisted path).mp (there path ((listed path).mp member))
      refine ⟨_, discover_exists there' suffixes, arrange_unique fun k => ?_⟩
      have same (f : String) : f ∈ found t' suffixes paths' ↔ f ∈ found t suffixes paths := by
        simp [mem_found, listed, source_relisted relisted]
      simp [same]
  · intro gap
    obtain ⟨front, missing, rest, same, there, nothing⟩ := first_missing gap
    refine ⟨front, missing, rest, same, there, nothing, ?_⟩
    rw [same]
    exact discover_missing there nothing suffixes

def library : Entry :=
  .directory [("a.php", .file []), ("notes", .file []), ("again", .link "/lib")]

def libraryReversed : Entry :=
  .directory [("again", .link "/lib"), ("notes", .file []), ("a.php", .file [])]

theorem library_relisted : library.Relisted libraryReversed := by
  apply Entry.Relisted.directory
  · decide
  · decide
  · intro name e e' listed listed'
    simp only [List.mem_cons, Prod.mk.injEq, List.not_mem_nil, or_false] at listed listed'
    rcases listed with ⟨rfl, rfl⟩ | ⟨rfl, rfl⟩ | ⟨rfl, rfl⟩
    · obtain rfl : e' = .file [] := by simpa using listed'
      exact .file []
    · obtain rfl : e' = .file [] := by simpa using listed'
      exact .file []
    · obtain rfl : e' = .link "/lib" := by simpa using listed'
      exact .link "/lib"

theorem discover_sources_overlap :
    let t : FileTree := ⟨library, []⟩
    let t' : FileTree := ⟨libraryReversed, []⟩
    (∀ path ∈ [".", "./a.php"], t.Exists path) ∧ t.Relisted t' ∧
      (∃ files files', discover t ["php"] [".", "./a.php"] = .ok files ∧
        files.Pairwise Path.Before ∧
        (∃ kept ∈ files, Path.components kept = Path.components ".//a.php") ∧
        discover t' ["php"] ["./a.php", ".", "."] = .ok files' ∧
        files'.map Path.components = files.map Path.components) ∧
      ¬t.Exists "b" ∧ ∃ missing ∈ [".", "b"], discover t ["php"] [".", "b"] = .error missing := by
  intro t t'
  have steps : Path.steps "." = ["."] ∧ Path.steps "./a.php" = [".", "a.php"] ∧
      Path.steps "b" = ["b"] := by decide
  have relative : Path.isFromRoot "." = false ∧ Path.isFromRoot "./a.php" = false ∧
      Path.isFromRoot "b" = false := by decide
  have here : t.find? "." = some library := by
    simp [FileTree.find?, FileTree.place_eq, FileTree.walk, Entry.at?, t, library, steps, relative]
  have file : t.find? "./a.php" = some (.file []) := by
    simp [FileTree.find?, FileTree.place_eq, FileTree.walk, Entry.at?, Entry.entries, t, library,
      steps, relative]
  have nothing : t.find? "b" = none := by
    simp [FileTree.find?, FileTree.place_eq, FileTree.walk, Entry.at?, t, library, List.lookup_cons,
      steps, relative]
  have relisted : t.Relisted t' := ⟨library_relisted, rfl⟩
  have there : ∀ path ∈ [".", "./a.php"], t.Exists path := by
    simp [FileTree.exists_iff, here, file]
  have gap : ¬t.Exists "b" := by simp [FileTree.exists_iff, nothing]
  obtain ⟨files, run, increasing, -, all, steady⟩ :=
    (discover_sources t ["php"] [".", "./a.php"]).1 there
  have source : IsSource t ["php"] "./a.php" "./a.php" :=
    ⟨_, [], file, .here [], rfl, "php", by simp, by decide⟩
  obtain ⟨kept, inside, same⟩ := all _ (by simp) _ source
  obtain ⟨files', run', eq⟩ := steady t' ["./a.php", ".", "."] relisted (by simp [or_comm])
  obtain ⟨front, missing, rest, split, -, -, failed⟩ :=
    (discover_sources t ["php"] [".", "b"]).2 ⟨"b", by simp, gap⟩
  refine ⟨there, relisted, ⟨files, files', run, increasing, ⟨kept, inside, ?_⟩, run', eq⟩, gap,
    missing, ?_, failed⟩
  · exact same.trans (by decide)
  · simp only [split]
    simp

end Discovery

end PhpAnalyser
