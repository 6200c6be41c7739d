import QiIdl.Proofs.Grammar.Twins
import QiIdl.Proofs.Package.Operation

/-!
# Coherent managers

What a manager knows fits together. Every file is kept under its own path, in the package it declares and in no
other, below an include directory from which the package can be found again. Each of the steps keeps this
(`Step.coherent`), so it holds of every manager that operations lead to, whatever became of the disk between them
and wherever one of them failed.
-/

namespace QiIdl.Manager

variable {m m' : Manager} {asked : SourceFile → Node Mark → Prop} {name : String} {path : Path} {f : SourceFile}

/-- The file of a package at a path. -/
def fileIn (m : Manager) (name : String) (path : Path) : Option SourceFile :=
  (m.packages.find? name).bind (·.files.find? path)

/-- The include directories as they are compared. -/
def includePaths (m : Manager) : List (Bool × Path) := m.includes.map (·.components)

/-- The parts of a manager fit together. The tables have one entry for a key; a file is kept under its own path
and was read from there; the files of a package are the files that declare it; the directories of a file spell its
package, and what stands above them is an include directory; no include directory is there twice; and a package
has registered only files it has. -/
structure Coherent (m : Manager) : Prop where
  sorted_files : m.files.Sorted
  sorted_packages : m.packages.Sorted
  sorted_packageFiles : ∀ name p, m.packages.find? name = some p → p.files.Sorted
  keyed : ∀ path f, m.files.find? path = some f → f.path = path
  named : ∀ name p, m.packages.find? name = some p → p.name = name
  partition : ∀ name path f, m.fileIn name path = some f ↔ m.files.find? path = some f ∧ f.package = name
  placed : ∀ path f, m.files.find? path = some f → ∃ root, f.Placed root ∧ (true, root) ∈ m.includePaths
  nodup_includes : m.includePaths.Nodup
  registered : ∀ name p, m.packages.find? name = some p → ∀ path ∈ p.registered, (p.files.find? path).isSome

theorem fileIn_eq_some :
    m.fileIn name path = some f ↔ ∃ p, m.packages.find? name = some p ∧ p.files.find? path = some f := by
  unfold fileIn
  cases m.packages.find? name <;> simp

/-- A file of a package is found under its path, in the package and among all files. -/
theorem Coherent.find?_of_mem {p : Package} (hm : m.Coherent) (hp : m.packages.find? name = some p)
    (hf : f ∈ p.files.values) : p.files.find? f.path = some f ∧ m.files.find? f.path = some f := by
  obtain ⟨path, hpath⟩ := (hm.sorted_packageFiles name p hp).mem_values_iff.mp hf
  have hfound := ((hm.partition name path f).mp (fileIn_eq_some.mpr ⟨p, hp, hpath⟩)).1
  obtain rfl := hm.keyed path f hfound
  exact ⟨hpath, hfound⟩

/-- What stands at the top of a known file is sound. -/
theorem Coherent.every_sound (hm : m.Coherent) (hf : m.files.find? path = some f) {n : Node Mark}
    (hn : n ∈ f.ast.roots) : n.tree.Every Node.Sound := by
  obtain ⟨root, hplaced, -⟩ := hm.placed path f hf
  exact (parseSource_sound hplaced.parsed n hn).2

theorem Coherent.laid (hm : m.Coherent) (hf : m.files.find? path = some f) : Laid f.ast.nodes f.ast.trees := by
  obtain ⟨root, hplaced, -⟩ := hm.placed path f hf
  exact laid_of_parseSource hplaced.parsed

theorem coherent_empty : empty.Coherent where
  sorted_files := .nil
  sorted_packages := .nil
  sorted_packageFiles := nofun
  keyed := nofun
  named := nofun
  partition := by
    intro name path f
    simp [fileIn, empty, Table.find?]
  placed := nofun
  nodup_includes := .nil
  registered := nofun

/-! ## Include directories -/

theorem mem_includePaths_addInclude (i : Include) : i.components ∈ (m.addInclude i).includePaths := by
  unfold addInclude includePaths
  split
  · next h => simpa using h
  · simp

theorem includePaths_addInclude {i : Include} {path : Bool × Path} (h : path ∈ m.includePaths) :
    path ∈ (m.addInclude i).includePaths := by
  unfold addInclude
  split
  · exact h
  · exact List.mem_cons_of_mem _ h

theorem nodup_addInclude {i : Include} (h : m.includePaths.Nodup) : (m.addInclude i).includePaths.Nodup := by
  unfold addInclude
  split
  · exact h
  · next hnew =>
    refine List.nodup_cons.mpr ⟨?_, h⟩
    simpa [includePaths] using hnew

theorem Coherent.addInclude (hm : m.Coherent) (i : Include) : (m.addInclude i).Coherent := by
  constructor
  case placed =>
    intro path f hf
    obtain ⟨root, hplaced, hroot⟩ := hm.placed path f (by simpa using hf)
    exact ⟨root, hplaced, includePaths_addInclude hroot⟩
  case nodup_includes => exact nodup_addInclude hm.nodup_includes
  all_goals simp only [fileIn, addInclude_files, addInclude_packages]
  · exact hm.sorted_files
  · exact hm.sorted_packages
  · exact hm.sorted_packageFiles
  · exact hm.keyed
  · exact hm.named
  · exact hm.partition
  · exact hm.registered

/-! ## Packages -/

/-- A package may be exchanged for one of the same name and files, in which only its files are registered. -/
theorem Coherent.setPackage {p q : Package} {ds : List Diagnostic} (hm : m.Coherent)
    (hp : m.packages.find? name = some p) (hname : q.name = p.name) (hfiles : q.files = p.files)
    (hregistered : ∀ path ∈ q.registered, (p.files.find? path).isSome) :
    Coherent { m with packages := m.packages.insert name q, diagnostics := ds } := by
  -- whatever is found among the packages now has the name and files of what was found before
  have hfound : ∀ other r, (m.packages.insert name q).find? other = some r →
      ∃ r', m.packages.find? other = some r' ∧ r.name = r'.name ∧ r.files = r'.files := by
    intro other r hr
    rw [Table.find?_insert] at hr
    split at hr
    · next heq =>
      cases hr
      exact ⟨p, heq ▸ hp, hname, hfiles⟩
    · exact ⟨r, hr, rfl, rfl⟩
  constructor
  case sorted_files => exact hm.sorted_files
  case sorted_packages => exact hm.sorted_packages.insert
  case sorted_packageFiles =>
    intro other r hr
    obtain ⟨r', hr', -, heq⟩ := hfound other r hr
    exact heq ▸ hm.sorted_packageFiles other r' hr'
  case keyed => exact hm.keyed
  case named =>
    intro other r hr
    obtain ⟨r', hr', heq, -⟩ := hfound other r hr
    exact heq ▸ hm.named other r' hr'
  case partition =>
    intro other path f
    rw [← hm.partition other path f]
    simp only [fileIn, Table.find?_insert]
    by_cases heq : other = name
    · rw [if_pos heq, heq, hp, Option.bind_some, Option.bind_some, hfiles]
    · rw [if_neg heq]
  case placed => exact hm.placed
  case nodup_includes => exact hm.nodup_includes
  case registered =>
    intro other r hr path hpath
    rw [Table.find?_insert] at hr
    split at hr
    · cases hr
      rw [hfiles]
      exact hregistered path hpath
    · exact hm.registered other r hr path hpath

theorem Coherent.registerFile (hm : m.Coherent) (hf : f ∈ m.packageFiles name) : (m.registerFile name f).Coherent := by
  obtain ⟨p, hp, hf⟩ := mem_packageFiles.mp hf
  rw [registerFile_eq hp]
  obtain ⟨hname, hfiles⟩ := p.registerFile_frame f
  refine hm.setPackage hp hname hfiles ?_
  intro path hpath
  rcases Package.mem_registered_registerFile hpath with rfl | hpath
  · rw [(hm.find?_of_mem hp hf).1]
    rfl
  · exact hm.registered name p hp path hpath

theorem Coherent.markLocated (hm : m.Coherent) (name : String) (count : Nat) : (m.markLocated name count).Coherent := by
  unfold Manager.markLocated
  cases hp : m.packages.find? name with
  | none => exact hm
  | some p => exact hm.setPackage hp rfl rfl (hm.registered name p hp)

/-! ## Files -/

/-- The package that a file is added to: the one there is, or a new one. -/
def homeOf (m : Manager) (f : SourceFile) : Package := (m.packages.find? f.package).getD (.empty f.package)

theorem addFile_eq (f : SourceFile) : m.addFile f =
    { m with
      files := m.files.insert f.path f
      packages := m.packages.insert f.package ((m.homeOf f).addFile f) } := rfl

theorem find?_files_homeOf (f : SourceFile) (path : Path) : (m.homeOf f).files.find? path = m.fileIn f.package path := by
  unfold homeOf fileIn
  cases m.packages.find? f.package <;> rfl

/-- What holds of the packages there are and of an empty one holds of the package that a file is added to. -/
theorem homeOf_of_forall {P : Package → Prop} (f : SourceFile)
    (hm : ∀ p, m.packages.find? f.package = some p → P p) (hempty : P (.empty f.package)) : P (m.homeOf f) := by
  unfold homeOf
  cases hp : m.packages.find? f.package with
  | none => exact hempty
  | some p => exact hm p hp

/-- A path that is new is new in the package of its file. -/
theorem Coherent.find?_homeOf (hm : m.Coherent) (hnew : m.files.find? f.path = none) :
    (m.homeOf f).files.find? f.path = none := by
  rw [find?_files_homeOf, Option.eq_none_iff_forall_ne_some]
  intro g hg
  simp [((hm.partition _ _ g).mp hg).1] at hnew

theorem Coherent.addFile {root : Path} (hm : m.Coherent) (hnew : m.files.find? f.path = none) (hplaced : f.Placed root)
    (hroot : (true, root) ∈ m.includePaths) : (m.addFile f).Coherent := by
  rw [addFile_eq, Package.addFile_eq (hm.find?_homeOf hnew)]
  constructor
  case sorted_files => exact hm.sorted_files.insert
  case sorted_packages => exact hm.sorted_packages.insert
  case sorted_packageFiles =>
    intro name p hp
    rw [Table.find?_insert] at hp
    split at hp
    · cases hp
      exact (homeOf_of_forall (P := (·.files.Sorted)) f (hm.sorted_packageFiles _) .nil).insert
    · exact hm.sorted_packageFiles name p hp
  case keyed =>
    intro path g hg
    rw [Table.find?_insert] at hg
    split at hg
    · next heq =>
      cases hg
      exact heq.symm
    · exact hm.keyed path g hg
  case named =>
    intro name p hp
    rw [Table.find?_insert] at hp
    split at hp
    · next heq =>
      cases hp
      rw [heq]
      exact homeOf_of_forall (P := (·.name = f.package)) f (hm.named _) rfl
    · exact hm.named name p hp
  case partition =>
    intro name path g
    simp only [fileIn, Table.find?_insert]
    by_cases hname : name = f.package
    · rw [if_pos hname, Option.bind_some, Table.find?_insert]
      by_cases hpath : path = f.path
      · simp only [if_pos hpath, Option.some.injEq]
        constructor
        · rintro rfl
          exact ⟨rfl, hname.symm⟩
        · exact fun h => h.1
      · rw [if_neg hpath, if_neg hpath, find?_files_homeOf, hname]
        exact hm.partition f.package path g
    · rw [if_neg hname]
      by_cases hpath : path = f.path
      · -- the path is new, so no other package has it, and the file declares another one
        rw [if_pos hpath, hpath]
        constructor
        · intro hg
          have := ((hm.partition name f.path g).mp hg).1
          simp [this] at hnew
        · rintro ⟨heq, hpackage⟩
          cases heq
          exact absurd hpackage.symm hname
      · rw [if_neg hpath]
        exact hm.partition name path g
  case placed =>
    intro path g hg
    rw [Table.find?_insert] at hg
    split at hg
    · cases hg
      exact ⟨root, hplaced, hroot⟩
    · exact hm.placed path g hg
  case nodup_includes => exact hm.nodup_includes
  case registered =>
    intro name p hp path hpath
    rw [Table.find?_insert] at hp
    split at hp
    · cases hp
      rw [Table.find?_insert]
      split
      · rfl
      · exact homeOf_of_forall (P := fun p => ∀ path ∈ p.registered, (p.files.find? path).isSome) f
          (hm.registered _) nofun path hpath
    · exact hm.registered name p hp path hpath

/-! ## Steps -/

/-- Coherence is about files, packages and include directories. -/
theorem Coherent.congr (hm : m.Coherent) (hfiles : m'.files = m.files) (hpackages : m'.packages = m.packages)
    (hincludes : m'.includes = m.includes) : m'.Coherent := by
  obtain ⟨packages, files, includes⟩ := m
  obtain ⟨packages', files', includes'⟩ := m'
  cases hfiles
  cases hpackages
  cases hincludes
  exact ⟨hm.sorted_files, hm.sorted_packages, hm.sorted_packageFiles, hm.keyed, hm.named, hm.partition, hm.placed,
    hm.nodup_includes, hm.registered⟩

theorem Step.coherent (h : Step asked m m') (hm : m.Coherent) : m'.Coherent := by
  cases h with
  | addInclude i => exact hm.addInclude i
  | report => exact hm.congr rfl rfl rfl
  | countRead => exact hm.congr rfl rfl rfl
  | load hnew hplaced =>
    refine (hm.addInclude _).addFile ?_ hplaced (mem_includePaths_addInclude _)
    rw [addInclude_files]
    exact hnew
  | noteLocated => exact hm.congr rfl rfl rfl
  | register hf => exact hm.registerFile hf
  | markLocated name count => exact hm.markLocated name count
  | keep => exact hm.congr rfl rfl rfl

theorem Steps.coherent (h : Steps asked m m') (hm : m.Coherent) : m'.Coherent := by
  induction h with
  | refl => exact hm
  | tail _ hstep ih => exact hstep.coherent ih

/-- Every manager that operations lead to is coherent, whichever they are and on whatever disks they run, also
where they fail. -/
theorem coherent_of_leads {allowed : Manager → Operation → Prop} (h : Leads allowed empty m) : m.Coherent :=
  (h.steps named_empty).coherent coherent_empty

theorem coherent_ofLibrary :
    Leads (fun _ _ => True) empty ofLibrary ∧
      ofLibrary.files.keys =
        ([["lib", "a", "x.qi"], ["lib", "b", "y.qi"], ["lib", "c", "z.qi"]] : List Path) ∧
      ofLibrary.Coherent := by
  have hleads : Leads (fun _ _ => True) empty ofLibrary :=
    leads_ofLibrary (fun _ _ => trivial) (fun _ _ => trivial) (fun _ _ => trivial)
  exact ⟨hleads, by decide +kernel, coherent_of_leads hleads⟩

end QiIdl.Manager
