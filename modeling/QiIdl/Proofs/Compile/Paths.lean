import QiIdl.Proofs.Compile
import QiIdl.Proofs.Format.Endings
import QiIdl.Proofs.Package.FoundAgain

/-!
# Compiling files and directories

The inputs of a run are loaded one after the other by one manager, and each of them changes what it knows. For inputs
that are files and directories this cannot be seen from outside. Everything known was read from one disk
(`Manager.Mirrors`), so a file that is asked for is what the disk offers there, whatever was asked for before, and
`loadInputs` gives the files that the inputs name, each at its first mention. The texts that are made of them need
nothing else of the manager, and the place of a file shows only in reports.

A directory names the source files that a walk comes upon (`Disk.mem_sources_iff`). What it holds besides, in directories
that are passed over or do not show it, makes no difference: such a file is missed, and such a fault as well.
-/

namespace QiIdl

open Managed Manager

variable {disk : Disk} {path : Path} {m m' : Manager} {input : String} {inputs : List String} {f : SourceFile}
  {paths : List Path}

/-! ## What inputs name -/

namespace Disk

/-- The files that a spelled path names: itself, or the source files of a directory. -/
def named (disk : Disk) (input : String) : List Path :=
  if disk.isFile input then (disk.resolve input).toOption.toList else disk.sources input

/-- A file is as the disk has it, and it is a source file of the package that its directories spell. -/
def Holds (disk : Disk) (f : SourceFile) : Prop := ∃ root, disk.Offers f root

/-- There is such a file at a path. -/
def HoldsAt (disk : Disk) (path : Path) : Prop := ∃ f, f.path = path ∧ disk.Holds f

/-- An input can be compiled: if it is a directory it has a source file, and so can each file that it names. -/
structure Accepts (disk : Disk) (input : String) : Prop where
  sources : disk.isDirectory input = true → disk.sources input ≠ []
  held : ∀ path ∈ disk.named input, disk.HoldsAt path

/-- The source files of a directory are the files of their extension below it, as far as no directory on the way is
passed over and each shows the next. -/
theorem mem_sources_iff {place : Path} (hdisk : disk.root.Distinct) (hplace : disk.resolve input = .ok place) :
    path ∈ disk.sources input ↔ ∃ way file text, path = place ++ way ++ [file] ∧
      (∀ directory ∈ way, directory.IsSearched) ∧ file.IsQi ∧ disk.Lists place (way ++ [file]) ∧
      disk.root.find? path = some (.file text) := by
  have hfind (e : Entry) (he : disk.root.find? place = some e) (way : Path) (file : Name) :
      disk.root.find? (place ++ way ++ [file]) = e.find? (way ++ [file]) := by
    rw [List.append_assoc, Entry.find?_append, he, Option.bind_some]
  simp only [sources, hplace, mem_sortPaths_iff]
  constructor
  · intro h
    cases he : disk.root.find? place with
    | none => simp [he] at h
    | some e =>
      rw [he] at h
      obtain ⟨way, file, rfl, hsource⟩ := (Entry.mem_sources_iff e place).mp h
      obtain ⟨hopen, hfile, hlists, text, hfound⟩ := (hdisk.find? he).hasSource_iff.mp hsource
      refine ⟨way, file, text, rfl, fun directory hmem => isHidden_eq_false_iff.mp (hopen directory hmem),
        isSource_iff.mp hfile, ⟨e, he, hlists⟩, ?_⟩
      rw [hfind e he, hfound]
  · rintro ⟨way, file, text, rfl, hopen, hfile, ⟨e, he, hlists⟩, hfound⟩
    rw [hfind e he] at hfound
    rw [he]
    refine (Entry.mem_sources_iff e place).mpr ⟨way, file, rfl, (hdisk.find? he).hasSource_iff.mpr ?_⟩
    exact ⟨fun directory hmem => isHidden_eq_false_iff.mpr (hopen directory hmem), isSource_iff.mpr hfile, hlists, text,
      hfound⟩

theorem find?_of_mem_sources (hdisk : disk.root.Distinct) (h : path ∈ disk.sources input) :
    ∃ text, disk.root.find? path = some (.file text) := by
  cases hplace : disk.resolve input with
  | error e =>
    rw [sources, hplace] at h
    cases h
  | ok place =>
    obtain ⟨-, -, text, -, -, -, -, hfound⟩ := (mem_sources_iff hdisk hplace).mp h
    exact ⟨text, hfound⟩

/-- A path without dots leads to itself if there is something. -/
theorem follow_of_find? {place : Path} {found : Entry} (hpath : path.IsCanonical)
    (h : disk.root.find? (place ++ path) = some found) : disk.follow place path = .ok (place ++ path) := by
  induction path generalizing place with
  | nil => exact congrArg Except.ok (List.append_nil place).symm
  | cons name path ih =>
    obtain ⟨hname, hrest⟩ := List.forall_mem_cons.mp hpath
    obtain ⟨es, shows, child, hplace, hlookup, -⟩ := Entry.find?_append_cons_eq_some h
    have hsnoc : place ++ name :: path = place ++ [name] ++ path := by simp
    rw [follow, List.foldlM_cons, step_of_lookup hname hplace hlookup, hsnoc]
    exact ih hrest (hsnoc ▸ h)

theorem resolve_of_isFile (h : disk.isFile input = true) : ∃ place, disk.resolve input = .ok place := by
  unfold isFile entry? at h
  cases hplace : disk.resolve input with
  | error e => simp [hplace] at h
  | ok place => exact ⟨place, rfl⟩

theorem named_of_isFile {place : Path} (h : disk.isFile input = true) (hplace : disk.resolve input = .ok place) :
    disk.named input = [place] := by
  rw [named, if_pos h, hplace]
  rfl

theorem named_of_isDirectory (h : disk.isDirectory input = true) : disk.named input = disk.sources input := by
  refine if_neg fun hfile => ?_
  unfold isDirectory at h
  unfold isFile at hfile
  cases hentry : disk.entry? input <;> simp_all

/-- A file names itself, so only a directory can name nothing. -/
theorem named_ne_nil_iff (h : disk.isFile input = true ∨ disk.isDirectory input = true) :
    disk.named input ≠ [] ↔ (disk.isDirectory input = true → disk.sources input ≠ []) := by
  by_cases hdirectory : disk.isDirectory input = true
  · simp [named_of_isDirectory hdirectory, hdirectory]
  · have hfile := h.resolve_right hdirectory
    obtain ⟨place, hplace⟩ := resolve_of_isFile hfile
    simp [named_of_isFile hfile hplace, hdirectory]

end Disk

/-! ## Files come from the disk -/

/-- Everything that a manager knows is as the disk has it. -/
def Manager.Mirrors (m : Manager) (disk : Disk) : Prop :=
  ∀ path f, m.files.find? path = some f → f.path = path ∧ disk.Holds f

theorem Manager.Mirrors.gets (hm : m.Mirrors disk) (h : m.Gets disk path f m') :
    (f.path = path ∧ disk.Holds f) ∧ m'.Mirrors disk := by
  cases h with
  | known hf => exact ⟨hm path f hf, hm⟩
  | new _ hpath hoffers =>
    refine ⟨⟨hpath, _, hoffers⟩, ?_⟩
    intro other g hg
    rw [accept_files, Table.find?_insert] at hg
    split at hg
    · next heq =>
      cases hg
      exact ⟨heq.symm, _, hoffers⟩
    · exact hm other g hg

/-- Some files are those of some paths, as the disk has them. -/
structure Disk.Gives (disk : Disk) (paths : List Path) (files : List SourceFile) : Prop where
  paths : files.map (·.path) = paths
  held : ∀ f ∈ files, disk.Holds f

namespace Managed

theorem gives_ofDisk {spelled : String} {x : Except DiskError Path} (hx : x = .ok path) (hm : m.Mirrors disk) :
    Ends (ofDisk spelled x >>= fileAt disk) m (fun f m' => (f.path = path ∧ disk.Holds f) ∧ m'.Mirrors disk)
      fun _ _ => ¬disk.HoldsAt path := by
  refine .bind (.of_ok (Q := fun found m₁ => found = path ∧ m₁ = m) (ofDisk_of_ok hx) ⟨rfl, rfl⟩) ?_
  rintro _ _ ⟨rfl, rfl⟩
  refine ends_fileAt.mono (fun f m' h => hm.gets h) ?_
  rintro e m' ⟨-, -, hnot⟩ ⟨f, hpath, root, hoffers⟩
  exact hnot f root hpath hoffers

theorem gives_mapM (hpaths : ∀ path ∈ paths, disk.follow [] path = .ok path) (hm : m.Mirrors disk) :
    Ends (paths.mapM (parseFound disk)) m
      (fun files m' => disk.Gives paths files ∧ m'.Mirrors disk) fun _ _ => ∃ path ∈ paths, ¬disk.HoldsAt path := by
  induction paths generalizing m with
  | nil =>
    rw [List.mapM_nil]
    exact .pure ⟨⟨rfl, by simp⟩, hm⟩
  | cons path paths ih =>
    obtain ⟨hpath, hrest⟩ := List.forall_mem_cons.mp hpaths
    rw [List.mapM_cons]
    refine .bind ((gives_ofDisk hpath hm).mono (fun _ _ h => h) ?_) ?_
    · exact fun _ _ hnot => ⟨path, List.mem_cons_self, hnot⟩
    · rintro f m₁ ⟨⟨rfl, hf⟩, hm₁⟩
      refine Ends.map ((ih hrest hm₁).mono (fun _ _ h => h) ?_) ?_
      · rintro _ _ ⟨other, hother, hnot⟩
        exact ⟨other, List.mem_cons_of_mem _ hother, hnot⟩
      · rintro files m₂ ⟨⟨rfl, hheld⟩, hm₂⟩
        exact ⟨⟨rfl, List.forall_mem_cons.mpr ⟨hf, hheld⟩⟩, hm₂⟩

/-- An input that is a file or a directory gives the files it names. -/
theorem gives_parse (hnames : disk.root.WellNamed) (hdistinct : disk.root.Distinct)
    (hinput : disk.isFile input = true ∨ disk.isDirectory input = true) (hm : m.Mirrors disk) :
    Ends (parse disk input) m (fun files m' => disk.Gives (disk.named input) files ∧ m'.Mirrors disk)
      fun _ _ => ∃ path ∈ disk.named input, ¬disk.HoldsAt path := by
  unfold parse
  by_cases hfile : disk.isFile input = true
  · obtain ⟨place, hplace⟩ := Disk.resolve_of_isFile hfile
    rw [if_pos hfile, Disk.named_of_isFile hfile hplace]
    refine Ends.map ((gives_ofDisk hplace hm).mono (fun _ _ h => h) ?_) ?_
    · exact fun _ _ hnot => ⟨place, List.mem_singleton_self place, hnot⟩
    · rintro f m' ⟨⟨rfl, hf⟩, hm'⟩
      exact ⟨⟨rfl, List.forall_mem_singleton.mpr hf⟩, hm'⟩
  · have hdirectory := hinput.resolve_left hfile
    rw [if_neg hfile, if_pos hdirectory, Disk.named_of_isDirectory hdirectory]
    refine gives_mapM (fun path hpath => ?_) hm
    obtain ⟨text, hfound⟩ := Disk.find?_of_mem_sources hdistinct hpath
    exact Disk.follow_of_find? ((hnames.find? hfound).1) hfound

end Managed

/-! ## Each file once -/

/-- Files that come are put behind those there are, unless they are there. -/
theorem map_path_join {known parsed : List SourceFile} (h : known.map (·.path) = paths.eraseDups) :
    (parsed.foldl (fun known f => if known.any (·.path == f.path) then known else known ++ [f]) known).map (·.path) =
      (paths ++ parsed.map (·.path)).eraseDups := by
  induction parsed generalizing known paths with
  | nil => simpa using h
  | cons f parsed ih =>
    have hmem : known.any (·.path == f.path) = true ↔ f.path ∈ paths := by
      rw [← List.mem_eraseDups, ← h]
      simp
    have hsnoc : paths ++ f.path :: parsed.map (·.path) = paths ++ [f.path] ++ parsed.map (·.path) := by simp
    rw [List.foldl_cons, List.map_cons, hsnoc]
    refine ih ?_
    rw [List.eraseDups_append, List.cons_removeAll]
    by_cases hf : f.path ∈ paths
    · simp [hmem.mpr hf, hf, h, List.removeAll]
    · have hnew : known.any (·.path == f.path) = false := Bool.eq_false_iff.mpr (mt hmem.mp hf)
      simp [hnew, hf, h, List.removeAll, List.eraseDups_cons]

/-- Inputs that are files and directories give the files they name, behind those that were named before. -/
theorem gives_loadInputs {known : List SourceFile} (hnames : disk.root.WellNamed) (hdistinct : disk.root.Distinct)
    (hinputs : ∀ input ∈ inputs, disk.isFile input = true ∨ disk.isDirectory input = true) (hm : m.Mirrors disk)
    (hknown : disk.Gives paths.eraseDups known) :
    (∀ files m', loadInputs disk inputs known m = .ok files m' → (∀ input ∈ inputs, disk.Accepts input) ∧
      disk.Gives (paths ++ inputs.flatMap disk.named).eraseDups files) ∧
    ∀ e m', loadInputs disk inputs known m = .error e m' → ¬∀ input ∈ inputs, disk.Accepts input := by
  induction inputs generalizing m known paths with
  | nil =>
    refine ⟨fun files m' h => ?_, fun e m' h => (by cases h)⟩
    cases h
    exact ⟨by simp, by simpa using hknown⟩
  | cons input inputs ih =>
    obtain ⟨hinput, hrest⟩ := List.forall_mem_cons.mp hinputs
    have hends := gives_parse hnames hdistinct hinput hm
    rw [List.forall_mem_cons]
    unfold loadInputs
    split
    · next e m₁ hparse =>
      refine ⟨fun files m' h => (by cases h), fun e' m' _ haccepts => ?_⟩
      obtain ⟨path, hpath, hnot⟩ := hends.error _ _ hparse
      exact hnot (haccepts.1.held path hpath)
    · next m₁ hparse =>
      refine ⟨fun files m' h => (by cases h), fun e' m' _ haccepts => ?_⟩
      exact (Disk.named_ne_nil_iff hinput).mpr haccepts.1.sources (hends.ok _ _ hparse).1.paths.symm
    · next parsed m₁ hparsed hparse =>
      obtain ⟨⟨hpaths, hheld⟩, hm₁⟩ := hends.ok _ _ hparse
      have haccepts : disk.Accepts input := by
        refine ⟨(Disk.named_ne_nil_iff hinput).mp fun hnil => hparsed (List.map_eq_nil_iff.mp (hpaths.trans hnil)), ?_⟩
        intro path hpath
        rw [← hpaths] at hpath
        obtain ⟨f, hf, heq⟩ := List.mem_map.mp hpath
        exact ⟨f, heq, hheld f hf⟩
      have hjoin : disk.Gives (paths ++ disk.named input).eraseDups
          (parsed.foldl (fun known f => if known.any (·.path == f.path) then known else known ++ [f]) known) := by
        refine ⟨hpaths ▸ map_path_join hknown.paths, fun f hf => ?_⟩
        rcases mem_of_mem_join hf with hf | hf
        · exact hknown.held f hf
        · exact hheld f hf
      obtain ⟨hok, herror⟩ := ih hrest hm₁ hjoin
      refine ⟨fun files m' h => ?_, fun e m' h hall => herror e m' h hall.2⟩
      obtain ⟨hall, hgives⟩ := hok files m' h
      rw [List.append_assoc] at hgives
      exact ⟨⟨haccepts, hall⟩, by rwa [List.flatMap_cons]⟩

/-! ## What is made of a file -/

/-- The text that is made of a source text, which is empty for one that is faulty. -/
def Backend.rendering (backend : Backend) (source : String) : String :=
  match parseSource source "", backend with
  | .ok ast, .qilang => ast.canonical 2
  | .ok ast, .sexpr => ast.dump 2
  | .ok ast, .doc => (ast.docMap []).1
  | _, _ => ""

variable {backend : Backend}

theorem generate_of_parseSource (hbackend : backend ∈ [.qilang, .sexpr, .doc])
    (hparsed : parseSource f.source f.path.text = .ok f.ast) (reports : List Diagnostic) :
    ∃ reports', generate backend m f 2 reports = .ok (backend.rendering f.source) reports' := by
  obtain ⟨toks, hlex, hread, -, -⟩ := parseSource_eq_ok hparsed
  -- the place of a file shows in reports only
  let plain : Ast := ⟨"", LineIndex.ofText f.source.toList, f.ast.nodes, f.ast.roots⟩
  have hplain : parseSource f.source "" = .ok plain := parseSource_of_parseTokens "" hlex hread
  have hsame : f.ast.roots.map Node.erase = plain.roots.map Node.erase := rfl
  simp only [List.mem_cons, List.not_mem_nil, or_false] at hbackend
  rcases hbackend with rfl | rfl | rfl
  · refine ⟨reports, ?_⟩
    simp only [Backend.rendering, hplain, ← Ast.canonical_congr hsame]
    rfl
  · refine ⟨reports, ?_⟩
    simp only [Backend.rendering, hplain, ← Ast.dump_congr hsame]
    rfl
  · refine ⟨(f.ast.docMap reports).2, ?_⟩
    simp only [Backend.rendering, hplain, ← Ast.concur_docMap hsame reports []]
    rfl

theorem generate_all {files : List SourceFile} (hbackend : backend ∈ [.qilang, .sexpr, .doc])
    (hheld : ∀ f ∈ files, disk.Holds f) (reports : List Diagnostic) :
    ∃ reports', files.mapM (generate backend m · 2) reports =
      .ok (files.map fun f => backend.rendering f.source) reports' := by
  induction files generalizing reports with
  | nil => exact ⟨reports, rfl⟩
  | cons f files ih =>
    obtain ⟨⟨root, hoffers⟩, hrest⟩ := List.forall_mem_cons.mp hheld
    obtain ⟨before, hf⟩ := generate_of_parseSource (m := m) hbackend hoffers.parsed reports
    obtain ⟨reports', hfiles⟩ := ih hrest before
    rw [List.mapM_cons, bind_of_ok hf, bind_of_ok hfiles]
    exact ⟨reports', rfl⟩

/-! ## The output -/

namespace Disk

/-- The text of a file, which is empty if it cannot be read. -/
def textAt (disk : Disk) (path : Path) : String := (disk.read path).toOption.getD ""

/-- What is made of some inputs: the texts of the files they name, each once, in the order of their first mention. -/
def rendering (disk : Disk) (backend : Backend) (inputs : List String) : String :=
  String.join ((inputs.flatMap disk.named).eraseDups.map fun path => backend.rendering (disk.textAt path))

theorem pairwise_named (disk : Disk) (input : String) : (disk.named input).Pairwise (· < ·) := by
  unfold named sources
  split
  · cases disk.resolve input <;> simp [Except.toOption]
  · split
    · exact pairwise_sortPaths _
    · exact .nil

/-- Files that are named again are not made again. -/
theorem rendering_again {before after : List String} {again : String}
    (h : disk.named again ⊆ before.flatMap disk.named) :
    disk.rendering backend (before ++ again :: after) = disk.rendering backend (before ++ after) := by
  have hnone : (disk.named again).removeAll (before.flatMap disk.named) = [] := by
    refine List.filter_eq_nil_iff.mpr fun path hpath => ?_
    simp [h hpath]
  have hsame : ((before ++ again :: after).flatMap disk.named).eraseDups =
      ((before ++ after).flatMap disk.named).eraseDups := by
    rw [List.flatMap_append, List.flatMap_append, List.flatMap_cons, List.eraseDups_append, List.eraseDups_append,
      List.removeAll, List.filter_append, ← List.removeAll, ← List.removeAll, hnone, List.nil_append]
  rw [rendering, rendering, hsame]

theorem rendering_append {first second : List String}
    (h : ∀ path ∈ first.flatMap disk.named, path ∉ second.flatMap disk.named) :
    disk.rendering backend (first ++ second) = disk.rendering backend first ++ disk.rendering backend second := by
  have hall : (second.flatMap disk.named).removeAll (first.flatMap disk.named) = second.flatMap disk.named := by
    refine List.filter_eq_self.mpr fun path hpath => ?_
    have hnot : path ∉ first.flatMap disk.named := fun hmem => h path hmem hpath
    simpa using hnot
  rw [rendering, List.flatMap_append, List.eraseDups_append, hall, List.map_append, String.join_append]
  rfl

theorem Holds.textAt (h : disk.Holds f) : disk.textAt f.path = f.source := by
  obtain ⟨root, hoffers⟩ := h
  rw [Disk.textAt, hoffers.read]
  rfl

end Disk

theorem files_includes (disk : Disk) (includes : List String) (m : Manager) :
    (includes.foldl (fun m i => m.addInclude (.ofText disk i)) m).files = m.files := by
  induction includes generalizing m with
  | nil => rfl
  | cons i includes ih => rw [List.foldl_cons, ih, addInclude_files]

theorem loadAll_of_not_needsResolution {includes : List String} (h : backend.needsResolution = false) :
    loadAll disk backend includes inputs m =
      loadInputs disk inputs [] (includes.foldl (fun m i => m.addInclude (.ofText disk i)) m) := by
  have hmodify : (modify (fun m => includes.foldl (fun m i => m.addInclude (.ofText disk i)) m) :
      EStateM CompileFailure Manager PUnit) m = .ok ⟨⟩ (includes.foldl (fun m i => m.addInclude (.ofText disk i)) m) :=
    rfl
  rw [loadAll, bind_of_ok hmodify, h]
  exact congrFun (bind_pure _) _

theorem result_eq_ok_iff {includes : List String} {output : String} (hnames : disk.root.WellNamed)
    (hdistinct : disk.root.Distinct) (hbackend : backend ∈ [.qilang, .sexpr, .doc])
    (hinputs : ∀ input ∈ inputs, disk.isFile input = true ∨ disk.isDirectory input = true) :
    (compile disk backend includes inputs).result = .ok output ↔
      (∀ input ∈ inputs, disk.Accepts input) ∧ output = disk.rendering backend inputs := by
  have hneeds : backend.needsResolution = false := by
    simp only [List.mem_cons, List.not_mem_nil, or_false] at hbackend
    rcases hbackend with rfl | rfl | rfl <;> rfl
  have hm : (includes.foldl (fun m i => m.addInclude (.ofText disk i)) Manager.empty).Mirrors disk := by
    intro path f hf
    rw [files_includes] at hf
    cases hf
  have hnone : disk.Gives ([] : List Path).eraseDups [] := ⟨rfl, by simp⟩
  have hloaded := gives_loadInputs hnames hdistinct hinputs hm hnone
  unfold compile
  rw [loadAll_of_not_needsResolution hneeds]
  cases hload : loadInputs disk inputs [] _ with
  | error e m' => simp [hloaded.2 e m' hload]
  | ok files m' =>
    obtain ⟨haccepts, hgives⟩ := hloaded.1 files m' hload
    obtain ⟨reports, hgenerate⟩ := generate_all (m := m') hbackend hgives.held []
    have htexts : (inputs.flatMap disk.named).eraseDups.map (fun path => backend.rendering (disk.textAt path)) =
        files.map fun f => backend.rendering f.source := by
      rw [← List.nil_append (inputs.flatMap disk.named), ← hgives.paths, List.map_map]
      exact List.map_congr_left fun f hf => congrArg backend.rendering (hgives.held f hf).textAt
    simp only [hgenerate, Disk.rendering, htexts]
    constructor
    · intro h
      exact ⟨haccepts, (Except.ok.inj h).symm⟩
    · rintro ⟨-, rfl⟩
      rfl

/-- Compiling files and directories into one of the texts, on a disk whose names are names of entries, each once in its
directory. A file names itself, and a directory names the source files that it shows, itself or through the directories
that it shows and that are not passed over. There is output just if every directory names a file and every file named can
be read, has no faults, and has one package statement that its directories spell. It is then what is made of each file by
itself, in the order of first mention, those of a directory in increasing order. So naming files again makes no
difference, and the output of two lists of inputs that name no file in common is that of the one and then that of the
other. -/
theorem compile_paths (includes : List String) (hnames : disk.root.WellNamed) (hdistinct : disk.root.Distinct)
    (hbackend : backend ∈ [.qilang, .sexpr, .doc])
    (hinputs : ∀ input ∈ inputs, disk.isFile input = true ∨ disk.isDirectory input = true) :
    (∀ output, (compile disk backend includes inputs).result = .ok output ↔
      (∀ input ∈ inputs, disk.Accepts input) ∧ output = disk.rendering backend inputs) ∧
    (∀ input ∈ inputs, (disk.named input).Pairwise (· < ·)) ∧
    (∀ input place, disk.resolve input = .ok place → (disk.isFile input = true → disk.named input = [place]) ∧
      (disk.isDirectory input = true → ∀ path, path ∈ disk.named input ↔
        ∃ way file text, path = place ++ way ++ [file] ∧ (∀ directory ∈ way, directory.IsSearched) ∧ file.IsQi ∧
          disk.Lists place (way ++ [file]) ∧ disk.root.find? path = some (.file text))) ∧
    (∀ before again after output, inputs = before ++ again :: after → disk.named again ≠ [] →
      disk.named again ⊆ before.flatMap disk.named →
      ((compile disk backend includes inputs).result = .ok output ↔
        (compile disk backend includes (before ++ after)).result = .ok output)) ∧
    ∀ first second output output', inputs = first ++ second →
      (∀ path ∈ first.flatMap disk.named, path ∉ second.flatMap disk.named) →
      (compile disk backend includes first).result = .ok output →
      (compile disk backend includes second).result = .ok output' →
      (compile disk backend includes inputs).result = .ok (output ++ output') := by
  refine ⟨fun output => result_eq_ok_iff hnames hdistinct hbackend hinputs, fun input _ => disk.pairwise_named input,
    fun input place hplace => ⟨fun hfile => Disk.named_of_isFile hfile hplace, fun hdirectory path => ?_⟩, ?_, ?_⟩
  · rw [Disk.named_of_isDirectory hdirectory]
    exact Disk.mem_sources_iff hdistinct hplace
  · rintro before again after output rfl hsome hagain
    obtain ⟨hbefore, hrest⟩ := List.forall_mem_append.mp hinputs
    obtain ⟨hpath, hafter⟩ := List.forall_mem_cons.mp hrest
    have hothers := List.forall_mem_append.mpr ⟨hbefore, hafter⟩
    rw [result_eq_ok_iff hnames hdistinct hbackend hinputs, result_eq_ok_iff hnames hdistinct hbackend hothers,
      Disk.rendering_again hagain, List.forall_mem_append, List.forall_mem_append, List.forall_mem_cons]
    -- what is named again was accepted before
    have haccepts : (∀ input ∈ before, disk.Accepts input) → disk.Accepts again := by
      refine fun hall => ⟨(Disk.named_ne_nil_iff hpath).mp hsome, fun path hmem => ?_⟩
      obtain ⟨input, hinput, hnamed⟩ := List.mem_flatMap.mp (hagain hmem)
      exact (hall input hinput).held path hnamed
    constructor
    · rintro ⟨⟨hall, -, hall'⟩, houtput⟩
      exact ⟨⟨hall, hall'⟩, houtput⟩
    · rintro ⟨⟨hall, hall'⟩, houtput⟩
      exact ⟨⟨hall, haccepts hall, hall'⟩, houtput⟩
  · rintro first second output output' rfl hdisjoint hok hok'
    obtain ⟨hfirst, hsecond⟩ := List.forall_mem_append.mp hinputs
    obtain ⟨hall, rfl⟩ := (result_eq_ok_iff hnames hdistinct hbackend hfirst).mp hok
    obtain ⟨hall', rfl⟩ := (result_eq_ok_iff hnames hdistinct hbackend hsecond).mp hok'
    refine (result_eq_ok_iff hnames hdistinct hbackend hinputs).mpr ⟨List.forall_mem_append.mpr ⟨hall, hall'⟩, ?_⟩
    exact (Disk.rendering_append hdisjoint).symm

/-- A disk with two files of one package, which are not in order, and one of another. -/
def Disk.stacks : Disk :=
  ⟨.directory [
    ("lib", .directory [("a", .directory [("y.qi", .file (some "package a\nstruct T\nend\n")),
      ("x.qi", .file (some "package a\n\n\nstruct S\nend\n"))])]),
    ("more", .directory [("b", .directory [("z.qi", .file (some "package b\n"))])])], ["lib"]⟩

/-- A file is named first, then its directory and the file once more in other words, and then another directory. -/
theorem compile_paths_stacks :
    Disk.stacks.root.WellNamed ∧ Disk.stacks.root.Distinct ∧
    (∀ input ∈ ["a/y.qi", "/lib", "../lib/a//y.qi", "/more"],
      Disk.stacks.isFile input = true ∨ Disk.stacks.isDirectory input = true) ∧
    (∀ input ∈ ["a/y.qi", "/lib", "../lib/a//y.qi", "/more"], Disk.stacks.Accepts input) ∧
    (compile .stacks .qilang [] ["a/y.qi", "/lib", "/more"]).result =
      .ok ("package a\nstruct T\nend\n\npackage a\nstruct S\nend\n\n" ++ "package b\n") ∧
    (compile .stacks .qilang [] ["a/y.qi", "/lib", "../lib/a//y.qi", "/more"]).result =
      .ok ("package a\nstruct T\nend\n\npackage a\nstruct S\nend\n\n" ++ "package b\n") := by
  have hnames : Disk.stacks.root.WellNamed := by
    simp [Disk.stacks]
  have hdistinct : Disk.stacks.root.Distinct := by simp [Disk.stacks, Entry.Distinct, Entry.AllDistinct]
  have hinputs : ∀ input ∈ ["a/y.qi", "/lib", "../lib/a//y.qi", "/more"],
      Disk.stacks.isFile input = true ∨ Disk.stacks.isDirectory input = true := by decide +kernel
  have hfirst : (compile .stacks .qilang [] ["a/y.qi", "/lib"]).result.toOption.any
      (· == "package a\nstruct T\nend\n\npackage a\nstruct S\nend\n\n") = true := by decide +kernel
  have hsecond : (compile .stacks .qilang [] ["/more"]).result.toOption.any (· == "package b\n") = true := by
    decide +kernel
  obtain ⟨output, hok, heq⟩ := exists_ok_of_any hfirst
  obtain ⟨output', hok', heq'⟩ := exists_ok_of_any hsecond
  rw [beq_iff_eq] at heq heq'
  subst heq heq'
  have hthree : ∀ input ∈ ["a/y.qi", "/lib", "/more"],
      Disk.stacks.isFile input = true ∨ Disk.stacks.isDirectory input = true := by decide +kernel
  have hbackend : Backend.qilang ∈ [.qilang, .sexpr, .doc] := List.mem_cons_self
  have hwhole := (compile_paths [] hnames hdistinct hbackend hthree).2.2.2.2 ["a/y.qi", "/lib"] ["/more"] _ _ rfl
    (by decide +kernel) hok hok'
  obtain ⟨hiff, -, -, hagain, -⟩ := compile_paths [] hnames hdistinct hbackend hinputs
  have hsame := (hagain ["a/y.qi", "/lib"] "../lib/a//y.qi" ["/more"] _ rfl (by decide +kernel) (by decide +kernel)).mpr
    hwhole
  exact ⟨hnames, hdistinct, hinputs, ((hiff _).mp hsame).1, hwhole, hsame⟩

/-- A disk with three directories. One has its source file in a directory that is passed over, one does not show its
source file, and one has a faulty source file in a directory that cannot be listed. -/
def Disk.unseen : Disk :=
  ⟨.directory [
    ("d", .directory [("target", .directory [("x.qi", .file (some "package target\n"))])]),
    ("e", .directory [("x.qi", .file (some "package e\n"))] fun _ => false),
    ("f", .directory [("x.qi", .file (some "package f\n")),
      ("b", .directory [("y.qi", .file (some "package\n"))] fun _ => false)])], []⟩

/-- Files that can be compiled by themselves, though the directories that contain them cannot, and one that cannot, though
the directory that contains it can. -/
theorem compile_paths_unseen :
    let output (input : String) := (compile .unseen .qilang [] [input]).result.toOption
    Disk.unseen.root.WellNamed ∧ Disk.unseen.root.Distinct ∧
    (∀ input ∈ ["/d", "/e", "/f"], Disk.unseen.isDirectory input = true) ∧
    (output "/d/target/x.qi" = some "package target\n" ∧ output "/d" = none) ∧
    (output "/e/x.qi" = some "package e\n" ∧ output "/e" = none) ∧
    output "/f/b/y.qi" = none ∧ output "/f" = some "package f\n" := by
  refine ⟨?_, ?_, ?_⟩
  · simp [Disk.unseen]
  · simp [Disk.unseen, Entry.Distinct, Entry.AllDistinct]
  · decide +kernel

end QiIdl
