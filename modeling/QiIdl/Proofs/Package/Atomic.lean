import QiIdl.Proofs.Package.Coherent
import QiIdl.Proofs.Package.Moves

/-!
# A file comes in whole or not at all

Reading a file does several things one after the other: the read is counted, the syntax and the package statement are
looked at, an include directory is added, and the file is entered among the files and into its package. It can stop
half way. What is known changes only behind the last place where it can stop, so a file that is refused leaves
everything known as it was (`Manager.Spared`), and a file that comes in is all that comes in (`Manager.Gains`).
-/

namespace QiIdl

open Manager

/-- What is reported with an error about how a file fits its package. -/
def PackageError.structuralReport? : PackageError → Option Diagnostic
  | .structural problem location => some (problem.diagnostic location)
  | _ => none

namespace Manager

/-- The package of a name, which is an empty one as long as there is none. -/
def packageNamed (m : Manager) (name : String) : Package := (m.packages.find? name).getD (.empty name)

/-- A file does not come in, and what is known is as it was. At most one read is counted, and if the file does not fit
its package this is reported; there is no other report. -/
structure Spared (m : Manager) (e : PackageError) (m' : Manager) : Prop where
  files : m'.files = m.files
  packages : m'.packages = m.packages
  includes : m'.includes = m.includes
  located : m'.located = m.located
  resolutions : m'.resolutions = m.resolutions
  reads : m.reads ≤ m'.reads ∧ m'.reads ≤ m.reads + 1
  diagnostics : m'.diagnostics = m.diagnostics ++ e.structuralReport?.toList

/-- One file comes in: under its path, where there was none, and into the package it declares. At most one include
directory comes with it, in front. Of no package anything changes but its files, so what is exported and imported is
as it was. -/
structure Gains (m : Manager) (f : SourceFile) (m' : Manager) : Prop where
  fresh : m.files.find? f.path = none
  declared : ∃ tag, f.ast.roots.filter (fun n => n.sort == .package) = [.package tag f.package]
  files : ∀ path, m'.files.find? path = if path = f.path then some f else m.files.find? path
  packages : ∀ name path,
    m'.fileIn name path = if name = f.package ∧ path = f.path then some f else m.fileIn name path
  ledgers : ∀ name, m'.packageNamed name = { m.packageNamed name with files := (m'.packageNamed name).files }
  includes : m'.includes = m.includes ∨ ∃ i, m'.includes = i :: m.includes
  located : m'.located = m.located
  resolutions : m'.resolutions = m.resolutions
  diagnostics : m'.diagnostics = m.diagnostics
  reads : m'.reads = m.reads + 1

variable {m m' : Manager} {e : PackageError} {f : SourceFile}

theorem Rejects.spared (h : m.Rejects e m') : m.Spared e m' := by
  cases h with
  | unread => exact ⟨rfl, rfl, rfl, rfl, rfl, ⟨Nat.le_refl _, Nat.le_succ _⟩, (List.append_nil _).symm⟩
  | faulty => exact ⟨rfl, rfl, rfl, rfl, rfl, ⟨Nat.le_succ _, Nat.le_refl _⟩, (List.append_nil _).symm⟩
  | misplaced hmisfits =>
    cases hmisfits
    exact ⟨rfl, rfl, rfl, rfl, rfl, ⟨Nat.le_succ _, Nat.le_refl _⟩, rfl⟩

theorem includes_addInclude (i : Include) :
    (m.addInclude i).includes = m.includes ∨ ∃ j, (m.addInclude i).includes = j :: m.includes := by
  unfold addInclude
  split
  · exact .inl rfl
  · exact .inr ⟨_, rfl⟩

@[simp] theorem addInclude_reads (i : Include) : (m.addInclude i).reads = m.reads := by
  unfold addInclude
  split <;> rfl

/-- Packages as they are found after one of them was exchanged. -/
theorem packageNamed_insert {home : String} {p : Package} (hpackages : m'.packages = m.packages.insert home p)
    (name : String) : m'.packageNamed name = if name = home then p else m.packageNamed name := by
  rw [packageNamed, hpackages, Table.find?_insert]
  split
  · rfl
  · rfl

theorem find?_files_packageNamed (name : String) (path : Path) :
    (m.packageNamed name).files.find? path = m.fileIn name path := by
  unfold packageNamed fileIn
  cases m.packages.find? name <;> rfl

/-- The package that a file is added to gets the file and nothing else, and the other packages get nothing. -/
theorem Coherent.gains (hm : m.Coherent) (hfresh : m.files.find? f.path = none)
    (hdeclared : ∃ tag, f.ast.roots.filter (fun n => n.sort == .package) = [.package tag f.package]) (root : Path) :
    m.Gains f (({ m with reads := m.reads + 1 }.addInclude (.known root)).addFile f) := by
  have hpackages : (({ m with reads := m.reads + 1 }.addInclude (.known root)).addFile f).packages =
      m.packages.insert f.package { m.packageNamed f.package with
        files := (m.packageNamed f.package).files.insert f.path f } := by
    have hhome : (m.homeOf f).addFile f = { m.packageNamed f.package with
        files := (m.packageNamed f.package).files.insert f.path f } := Package.addFile_eq (hm.find?_homeOf hfresh)
    rw [← hhome, addFile_eq, homeOf, addInclude_packages]
    rfl
  have hnamed := packageNamed_insert hpackages
  constructor
  case fresh => exact hfresh
  case declared => exact hdeclared
  case files =>
    intro path
    rw [addFile_files, addInclude_files, Table.find?_insert]
  case packages =>
    intro name path
    rw [← find?_files_packageNamed, hnamed, ← find?_files_packageNamed]
    by_cases hname : name = f.package
    · simp [hname, Table.find?_insert]
    · simp [hname]
  case ledgers =>
    intro name
    rw [hnamed]
    split
    · next hname => rw [hname]
    · rfl
  case includes => exact includes_addInclude (m := { m with reads := m.reads + 1 }) (.known root)
  case located => exact addInclude_located _ _
  case resolutions => exact addInclude_resolutions _
  case diagnostics => exact addInclude_diagnostics _
  case reads => exact addInclude_reads _

end Manager

namespace Managed

open Manager

variable {disk : Disk} {m : Manager} {path : Path}

/-- A file that is known is given back, and nothing else happens. -/
theorem parseFile_of_find? {spelled : String} {f : SourceFile} (hpath : disk.resolve spelled = .ok path)
    (hf : m.files.find? path = some f) : parseFile disk spelled m = .ok f m := by
  rw [parseFile, bind_of_ok (ofDisk_of_ok hpath), fileAt_of_find? hf]

theorem gains_parseFile {spelled : String} (hm : m.Coherent) :
    Ends (parseFile disk spelled) m
      (fun f m' => ∀ path, disk.resolve spelled = .ok path → m.files.find? path = none → f.path = path ∧ m.Gains f m')
      m.Spared := by
  refine ends_parseFile.mono ?_ fun _ _ h => h.spared
  rintro f m' ⟨path, hpath, hgets⟩ other hother hfresh
  cases hpath.symm.trans hother
  cases hgets with
  | known hf => cases hf.symm.trans hfresh
  | new _ heq hoffers => exact ⟨heq, hm.gains (heq ▸ hfresh) hoffers.filter_sort _⟩

/-- Whichever operations a manager was made by, reading a file is atomic. If it fails, what is known is as it was. If
the file is known already, it is given back and nothing changes. Otherwise it comes in, in one place, and asking for
it again changes nothing. -/
theorem parseFile_atomic {allowed : Manager → Operation → Prop} (h : Leads allowed empty m) (disk : Disk)
    (spelled : String) :
    (∀ e m', parseFile disk spelled m = .error e m' → m.Spared e m') ∧
    (∀ path f, disk.resolve spelled = .ok path → m.files.find? path = some f → parseFile disk spelled m = .ok f m) ∧
    ∀ path f m', disk.resolve spelled = .ok path → m.files.find? path = none → parseFile disk spelled m = .ok f m' →
      f.path = path ∧ m.Gains f m' ∧ parseFile disk spelled m' = .ok f m' := by
  have hm : m.Coherent := (h.steps named_empty).coherent coherent_empty
  have hends : Ends (parseFile disk spelled) m _ m.Spared := gains_parseFile hm
  refine ⟨hends.error, fun path f => parseFile_of_find?, ?_⟩
  intro path f m' hpath hfresh hparsed
  obtain ⟨rfl, hgains⟩ := hends.ok f m' hparsed path hpath hfresh
  refine ⟨rfl, hgains, parseFile_of_find? hpath ?_⟩
  rw [hgains.files, if_pos rfl]

end Managed

/-- A disk with two files that fit one package, and one that declares another package than its directory says. -/
def Disk.annex : Disk :=
  ⟨.directory [("lib", .directory [("a", .directory [("x.qi", .file (some "package a\nstruct S\nend\n")),
    ("v.qi", .file (some "package b\n")), ("w.qi", .file (some "package a\nenum S\nend\n"))])])], []⟩

/-- The first of the files is known. The second one exports the same name, which is no matter as long as it is only
read. -/
theorem Managed.parseFile_atomic_annex :
    let m := (Operation.parseFile "/lib/a/x.qi").after .annex .empty
    Leads (fun _ _ => True) empty m ∧
    (∃ e m', parseFile .annex "/lib/a/v.qi" m = .error e m' ∧ e.structuralReport?.isSome = true ∧ m.Spared e m') ∧
    (∃ f, m.files.find? (["lib", "a", "x.qi"] : Path) = some f ∧ parseFile .annex "/lib//a/x.qi" m = .ok f m) ∧
    ∃ f m', parseFile .annex "/lib/a/w.qi" m = .ok f m' ∧ f.package = "a" ∧ m.Gains f m' ∧
      parseFile .annex "/lib/a/w.qi" m' = .ok f m' := by
  intro m
  have hdisk : Disk.annex.root.WellNamed := by
    simp [Disk.annex]
  have hleads : Leads (fun _ _ => True) empty m := .step _ _ .refl hdisk trivial
  refine ⟨hleads, ?_, ?_, ?_⟩
  · have hfails : failsWith (parseFile .annex "/lib/a/v.qi") m (fun e _ => e.structuralReport?.isSome) = true := by
      decide +kernel
    obtain ⟨e, m', hparse, he⟩ := exists_of_failsWith hfails
    exact ⟨e, m', hparse, he, (parseFile_atomic hleads .annex "/lib/a/v.qi").1 e m' hparse⟩
  · have hknown : (m.files.find? (["lib", "a", "x.qi"] : Path)).isSome = true := by decide +kernel
    obtain ⟨f, hf⟩ := Option.isSome_iff_exists.mp hknown
    exact ⟨f, hf, (parseFile_atomic hleads .annex "/lib//a/x.qi").2.1 ["lib", "a", "x.qi"] f rfl hf⟩
  · have hparses : succeedsWith (parseFile .annex "/lib/a/w.qi") m (fun f _ => f.package == "a") = true := by
      decide +kernel
    have hfresh : m.files.find? (["lib", "a", "w.qi"] : Path) = none := Option.isNone_iff_eq_none.mp (by decide +kernel)
    obtain ⟨f, m', hparse, hpackage⟩ := exists_of_succeedsWith hparses
    obtain ⟨-, hgains, hagain⟩ :=
      (parseFile_atomic hleads .annex "/lib/a/w.qi").2.2 ["lib", "a", "w.qi"] f m' rfl hfresh hparse
    exact ⟨f, m', hparse, beq_iff_eq.mp hpackage, hgains, hagain⟩

end QiIdl
