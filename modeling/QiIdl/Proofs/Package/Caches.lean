import QiIdl.Proofs.Package.Causes
import QiIdl.Proofs.Package.Coherent
import QiIdl.Proofs.Package.Located

/-!
# Notes about locations

A manager notes where a package was located, and marks a package whose files were all read and registered; both with
no more than the number of include directories there were. Include directories are added in front and never taken
away, so the number says which they were.

How much a note says depends on what became of the disk since. `Faithful Says Has m` leaves that open: every note
says what `Says` demands, and where a mark is as new as the note of its package, all noted paths satisfy `Has`. Moves
keep that for every `Reading` of notes and marks (`Move.faithful`). Whatever became of the disk, the noted paths of a
marked package are among the files (`Noted`); and as long as the disk stays as it is, they are those where the package
is (`Transparent`).
-/

namespace QiIdl

open Managed

namespace Manager

variable {disk : Disk} {m m' : Manager} {o : Option PackageError} {errors : List PackageError}
  {Says : Manager → String → Nat → List Path → Prop} {Has : Manager → Path → Prop} {name : String} {paths : List Path}

/-! ## Faithful notes -/

/-- A package that is marked has files, and has been noted since it was marked or when it was; in the latter case all
of the paths that were noted are had. -/
structure Marked (Has : Manager → Path → Prop) (m : Manager) (name : String) (count : Nat) (p : Package) : Prop where
  files : p.files.values ≠ []
  noted : ∃ later paths, m.located.find? name = some (later, paths) ∧ count ≤ later ∧
    (later = count → ∀ path ∈ paths, Has m path)

/-- The notes say what they should, and the marks are made for good reason. -/
structure Faithful (Says : Manager → String → Nat → List Path → Prop) (Has : Manager → Path → Prop) (m : Manager) :
    Prop where
  noted : ∀ name count paths, m.located.find? name = some (count, paths) → Says m name count paths
  marked : ∀ name p count, m.packages.find? name = some p → p.locatedWith = some count → m.Marked Has name count p

theorem faithful_empty : empty.Faithful Says Has := ⟨nofun, nofun⟩

/-- What notes and marks can be taken to mean. It stays true when more include directories and files are known; what
is located on the disk is noted rightly, and what is known there is had. -/
structure Reading (disk : Disk) (Says : Manager → String → Nat → List Path → Prop) (Has : Manager → Path → Prop) :
    Prop where
  bound : ∀ {m name count paths}, Says m name count paths → count ≤ m.includes.length
  mono : ∀ {m m' name count paths}, m.includes <:+ m'.includes → Says m name count paths → Says m' name count paths
  located : ∀ m name, Says m name m.includes.length (locate disk m.includes name)
  stays : ∀ {m m' : Manager} {path},
    (∀ path f, m.files.find? path = some f → m'.files.find? path = some f) → Has m path → Has m' path
  known : ∀ {m name count paths path}, Says m name count paths → path ∈ paths → m.Knows disk path → Has m path

/-- Include directories and files may be added, and no mark must come with that. -/
theorem Faithful.extend (hm : m.Faithful Says Has) (hreading : Reading disk Says Has)
    (hlocated : m'.located = m.located) (hincludes : m.includes <:+ m'.includes)
    (hfiles : ∀ path f, m.files.find? path = some f → m'.files.find? path = some f)
    (hpackages : ∀ name p, m'.packages.find? name = some p → p.locatedWith ≠ none →
      ∃ q, m.packages.find? name = some q ∧ q.locatedWith = p.locatedWith ∧ q.Grows p) : m'.Faithful Says Has := by
  constructor
  · intro name count paths hfound
    rw [hlocated] at hfound
    exact hreading.mono hincludes (hm.noted name count paths hfound)
  · intro name p count hp hcount
    obtain ⟨q, hq, hsame, hgrows⟩ := hpackages name p hp (by simp [hcount])
    obtain ⟨hfilled, later, paths, hnoted, hle, hhad⟩ := hm.marked name q count hq (hsame.trans hcount)
    obtain ⟨f, hf⟩ := List.exists_mem_of_ne_nil _ hfilled
    refine ⟨List.ne_nil_of_mem (hgrows.files f hf), later, paths, by rwa [hlocated], hle, ?_⟩
    exact fun heq path hpath => hreading.stays hfiles (hhad heq path hpath)

theorem Faithful.congr (hm : m.Faithful Says Has) (hreading : Reading disk Says Has)
    (hlocated : m'.located = m.located) (hincludes : m'.includes = m.includes) (hfiles : m'.files = m.files)
    (hpackages : m'.packages = m.packages) : m'.Faithful Says Has := by
  refine hm.extend hreading hlocated (hincludes ▸ List.suffix_rfl) (fun _ _ hf => hfiles ▸ hf) ?_
  intro name p hp _
  exact ⟨p, hpackages ▸ hp, rfl, .refl p⟩

theorem Faithful.read (hm : m.Faithful Says Has) (hreading : Reading disk Says Has) (h : Read m m') :
    m'.Faithful Says Has := by
  have hlocated : m'.located = m.located := Reads.located (.single h)
  refine hm.extend hreading hlocated h.includes (fun _ _ hf => h.find?_files hf) ?_
  intro name p hp hmarked
  obtain ⟨root, -⟩ := h
  rw [addFile_eq, Table.find?_insert] at hp
  split at hp
  · next f heq =>
    cases hp
    rw [Package.addFile_locatedWith] at hmarked ⊢
    -- a new package is not marked, so it is one there was
    unfold homeOf at hmarked ⊢
    rw [addInclude_packages] at hmarked ⊢
    rw [heq]
    cases hq : m.packages.find? f.package with
    | none => simp [hq, Package.empty] at hmarked
    | some q => exact ⟨q, rfl, by simp, by simpa using q.grows_addFile f⟩
  · rw [addInclude_packages] at hp
    exact ⟨p, hp, rfl, .refl p⟩

/-- A package is noted again only when an include directory was added, so a mark of it is older than the note. -/
theorem Faithful.locate (hm : m.Faithful Says Has) (hreading : Reading disk Says Has)
    (hnew : ∀ paths, m.located.find? name ≠ some (m.includes.length, paths)) :
    Faithful Says Has
      { m with located := m.located.insert name (m.includes.length, locate disk m.includes name) } := by
  have hsuffix : m.includes <:+ m.includes := List.suffix_rfl
  constructor
  · intro other count paths hfound
    rw [Table.find?_insert] at hfound
    split at hfound
    · next heq =>
      cases hfound
      exact hreading.mono (m := m) hsuffix (heq ▸ hreading.located m other)
    · exact hreading.mono (m := m) hsuffix (hm.noted other count paths hfound)
  · intro other p count hp hcount
    obtain ⟨hfilled, later, paths, hnoted, hle, hhad⟩ := hm.marked other p count hp hcount
    refine ⟨hfilled, ?_⟩
    rw [Table.find?_insert]
    split
    · next heq =>
      have hlater : later ≤ m.includes.length := hreading.bound (hm.noted other later paths hnoted)
      refine ⟨_, _, rfl, Nat.le_trans hle hlater, fun hold => ?_⟩
      subst heq
      obtain rfl : later = m.includes.length := Nat.le_antisymm hlater (hold ▸ hle)
      exact absurd hnoted (hnew paths)
    · exact ⟨later, paths, hnoted, hle, fun heq path hpath =>
        hreading.stays (m := m) (fun _ _ hf => hf) (hhad heq path hpath)⟩

theorem Faithful.entered {count : Nat} (hm : m.Faithful Says Has) (hreading : Reading disk Says Has)
    (hfound : m.located.find? name = some (count, paths)) (hknown : ∀ path ∈ paths, m.Knows disk path)
    (hfiles : m.packageFiles name ≠ []) : (m.entered name count).Faithful Says Has := by
  obtain ⟨p, hp, hvalues⟩ := exists_package hfiles
  have hsuffix : m.includes <:+ m.includes := List.suffix_rfl
  rw [entered_eq hp]
  constructor
  · exact fun other count paths hother => hreading.mono (m := m) hsuffix (hm.noted other count paths hother)
  · intro other q count' hq hcount
    rw [Table.find?_insert] at hq
    split at hq
    · next heq =>
      cases hq
      cases hcount
      subst heq
      refine ⟨by rwa [p.enter_files, ← hvalues], count, paths, hfound, Nat.le_refl _, fun _ path hpath => ?_⟩
      have hhad := hreading.known (hm.noted other count paths hfound) hpath (hknown path hpath)
      exact hreading.stays (m := m) (fun _ _ hf => hf) hhad
    · obtain ⟨hfilled, later, paths', hnoted, hle, hhad⟩ := hm.marked other q count' hq hcount
      refine ⟨hfilled, later, paths', hnoted, hle, fun heq path hpath => ?_⟩
      exact hreading.stays (m := m) (fun _ _ hf => hf) (hhad heq path hpath)

theorem Move.faithful (h : Move disk m o m') (hreading : Reading disk Says Has) (hm : m.Faithful Says Has) :
    m'.Faithful Says Has := by
  cases h with
  | addInclude i =>
    refine hm.extend hreading (addInclude_located m i) (suffix_addInclude m i) (by simp) ?_
    intro name p hp _
    exact ⟨p, by simpa using hp, rfl, .refl p⟩
  | read hread => exact hm.read hreading hread
  | refuse hrefuses => cases hrefuses <;> exact hm.congr hreading rfl rfl rfl rfl
  | locate hnew => exact hm.locate hreading hnew
  | enter hfound hknown hfiles => exact hm.entered hreading hfound hknown hfiles
  | clash name => exact hm
  | keep path id r => exact hm.congr hreading rfl rfl rfl rfl

theorem Moves.faithful (h : Moves disk m errors m') (hreading : Reading disk Says Has) (hm : m.Faithful Says Has) :
    m'.Faithful Says Has := by
  induction h with
  | done m => exact hm
  | step hmove _ ih => exact ih (hmove.faithful hreading hm)

/-- A package that counts as loaded was noted with the include directories there are. -/
theorem Faithful.of_isLoaded {p : Package} (hm : m.Faithful Says Has)
    (hbound : ∀ count paths, Says m name count paths → count ≤ m.includes.length) (hp : m.packages.find? name = some p)
    (hloaded : p.isLoaded m.includes.length = true) :
    p.files.values ≠ [] ∧ ∃ paths, m.located.find? name = some (m.includes.length, paths) ∧
      ∀ path ∈ paths, Has m path := by
  obtain ⟨hmark, -⟩ := Package.isLoaded_iff.mp hloaded
  obtain ⟨hfilled, later, paths, hnoted, hle, hhad⟩ := hm.marked name p _ hp hmark
  -- the note is not older than the mark, which is as new as can be
  obtain rfl : later = m.includes.length := Nat.le_antisymm (hbound later paths (hm.noted name later paths hnoted)) hle
  exact ⟨hfilled, paths, hnoted, hhad rfl⟩

/-! ## Whatever becomes of the disk -/

/-- Notes give canonical paths, and those of a package that is marked are paths of files. -/
abbrev Noted : Manager → Prop :=
  Faithful (fun m _ count paths => count ≤ m.includes.length ∧ ∀ path ∈ paths, path.IsCanonical)
    fun m path => (m.files.find? path).isSome = true

theorem reading_noted (hdisk : disk.root.WellNamed) :
    Reading disk (fun m _ count paths => count ≤ m.includes.length ∧ ∀ path ∈ paths, path.IsCanonical)
      fun m path => (m.files.find? path).isSome = true where
  bound h := h.1
  mono hincludes h := ⟨Nat.le_trans h.1 hincludes.length_le, h.2⟩
  located m name := ⟨Nat.le_refl _, fun _ hpath => isCanonical_of_mem_locate hdisk hpath⟩
  stays hfiles h := by
    obtain ⟨f, hf⟩ := Option.isSome_iff_exists.mp h
    rw [hfiles _ f hf]
    rfl
  known h hpath hknown := by
    obtain ⟨key, hkey, hsome⟩ := hknown
    obtain rfl := Disk.follow_of_isCanonical (h.2 _ hpath) hkey
    exact hsome

theorem Leads.noted {allowed : Manager → Operation → Prop} (h : Leads allowed empty m) : m.Noted := by
  induction h with
  | refl => exact faithful_empty
  | step disk op _ hdisk _ ih =>
    obtain ⟨errors, hmoves⟩ := op.moves_after
    exact hmoves.faithful (reading_noted hdisk) ih

/-! ## As long as the disk stays as it is -/

/-- Operations lead from one manager to another on a disk that does not change. -/
inductive LeadsOn (disk : Disk) (m : Manager) : Manager → Prop where
  | refl : LeadsOn disk m m
  | step {m' : Manager} (op : Operation) : LeadsOn disk m m' → LeadsOn disk m (op.after disk m')

theorem LeadsOn.leads (h : LeadsOn disk m m') (hdisk : disk.root.WellNamed) : Leads (fun _ _ => True) m m' := by
  induction h with
  | refl => exact .refl
  | step op _ ih => exact .step disk op ih hdisk trivial

/-- These are the paths of a package below as many include directories, those that were there first. -/
def Finds (disk : Disk) (m : Manager) (name : String) (count : Nat) (paths : List Path) : Prop :=
  ∃ older, older <:+ m.includes ∧ older.length = count ∧ paths = locate disk older name

/-- With as many include directories as there are, they are all there are. -/
theorem Finds.current (h : m.Finds disk name m.includes.length paths) : paths = locate disk m.includes name := by
  obtain ⟨older, hsuffix, hlength, rfl⟩ := h
  rw [hsuffix.eq_of_length hlength]

/-- Notes give the paths that are on the disk, and those of a package that is marked are known. -/
abbrev Transparent (disk : Disk) : Manager → Prop := Faithful (Finds disk) (Knows disk)

theorem reading_transparent (disk : Disk) : Reading disk (Finds disk) (Knows disk) where
  bound := by
    rintro m name count paths ⟨older, hsuffix, rfl, -⟩
    exact hsuffix.length_le
  mono := by
    rintro m m' name count paths hincludes ⟨older, hsuffix, hrest⟩
    exact ⟨older, hsuffix.trans hincludes, hrest⟩
  located m name := ⟨m.includes, List.suffix_rfl, rfl, rfl⟩
  stays := by
    rintro m m' path hfiles ⟨key, hkey, hknown⟩
    obtain ⟨f, hf⟩ := Option.isSome_iff_exists.mp hknown
    exact ⟨key, hkey, by rw [hfiles key f hf]; rfl⟩
  known _ _ hknown := hknown

theorem LeadsOn.transparent (h : LeadsOn disk empty m) : Transparent disk m := by
  induction h with
  | refl => exact faithful_empty
  | step op _ ih =>
    obtain ⟨errors, hmoves⟩ := op.moves_after
    exact hmoves.faithful (reading_transparent disk) ih

/-! ## Loading again -/

/-- Whether it was noted before or not, what is located is what is on the disk. -/
theorem locatedFiles_of_transparent (hm : Transparent disk m) (name : String) :
    ∃ m', locatedFiles disk name m = .ok (QiIdl.locate disk m.includes name) m' ∧
      m' = { m with located := m'.located } := by
  have hends : Ends (locatedFiles disk name) m _ fun _ _ => False := ends_locatedFiles
  obtain ⟨paths, m', hrun, hnotes⟩ := hends.exists_ok
  have hincludes : m'.includes = m.includes := by rw [hnotes.same]
  have hfinds := (hnotes.moves.faithful (reading_transparent disk) hm).noted name _ paths hnotes.noted
  rw [← hincludes] at hfinds
  exact ⟨m', by rw [hrun, hfinds.current, hincludes], hnotes.same⟩

theorem locatedFiles_of_noted (h : m.located.find? name = some (m.includes.length, paths)) :
    locatedFiles disk name m = .ok paths m := by
  rw [locatedFiles, get_bind_eq, h]
  simp only [if_true]
  rfl

theorem parseFound_of_knows {path : Path} (h : m.Knows disk path) : ∃ f, parseFound disk path m = .ok f m := by
  obtain ⟨key, hkey, hknown⟩ := h
  obtain ⟨f, hf⟩ := Option.isSome_iff_exists.mp hknown
  exact ⟨f, by rw [parseFound, bind_of_ok (ofDisk_of_ok hkey), fileAt_of_find? hf]⟩

theorem forM_parseFound_of_knows (h : ∀ path ∈ paths, m.Knows disk path) :
    (paths.forM fun path => discard (parseFound disk path)) m = .ok () m := by
  induction paths with
  | nil => rfl
  | cons path paths ih =>
    obtain ⟨hpath, hpaths⟩ := List.forall_mem_cons.mp h
    obtain ⟨f, hf⟩ := parseFound_of_knows hpath
    have hfirst : discard (parseFound disk path) m = .ok () m := bind_of_ok hf
    rw [List.forM, bind_of_ok hfirst, ih hpaths]

/-- Registers the files of a package, which must have some. -/
def enterKnown (name : String) (location : Location) (count : Nat) : Managed Unit := do
  let files := (← get).packageFiles name
  if files.isEmpty then
    modify (·.report ((Problem.packageNotFound name).diagnostic location))
    throw (.notFound name)
  modify fun m => files.foldl (·.registerFile name) m
  modify (·.markLocated name count)

theorem readPackage_eq (name : String) (location : Location) : readPackage disk name location m = (do
    let paths ← locatedFiles disk name
    paths.forM fun path => discard (parseFound disk path)
    enterKnown name location m.includes.length : Managed Unit) m := rfl

theorem enterKnown_of_files (location : Location) (count : Nat) (h : m.packageFiles name ≠ []) :
    enterKnown name location count m = .ok () (m.entered name count) := by
  have hempty : (m.packageFiles name).isEmpty = false := by simpa using h
  rw [enterKnown, get_bind_eq, hempty]
  rfl

/-- A package is entered without a look at the disk, where it is noted and all its paths are known. -/
theorem readPackage_of_known {location : Location} (hfound : m.located.find? name = some (m.includes.length, paths))
    (hknown : ∀ path ∈ paths, m.Knows disk path) (hfiles : m.packageFiles name ≠ []) :
    readPackage disk name location m = .ok () (m.entered name m.includes.length) := by
  rw [readPackage_eq, bind_of_ok (locatedFiles_of_noted hfound), bind_of_ok (forM_parseFound_of_knows hknown)]
  exact enterKnown_of_files location _ hfiles

/-- A package that is loaded is left as it is when it is entered. -/
theorem Coherent.entered_of_isLoaded {p : Package} {count : Nat} (hm : m.Coherent) (hp : m.packages.find? name = some p)
    (hloaded : p.isLoaded count = true) : m.entered name count = m := by
  obtain ⟨hmarked, hregistered⟩ := Package.isLoaded_iff.mp hloaded
  have hall : ∀ f ∈ p.files.values, f.path ∈ p.registered := by
    intro f hf
    exact hregistered _ (List.mem_map_of_mem (Table.mem_of_find? (hm.find?_of_mem hp hf).1))
  have hsame : p.enter count = p := by rw [Package.enter, Package.registerFiles_of_registered hall, ← hmarked]
  rw [entered_eq hp, hsame, hm.sorted_packages.insert_of_find? hp, Package.registerFiles_of_registered hall,
    List.append_nil]

/-- The notes and marks of a manager can be relied on, as long as the disk stays as it is. What is noted about a
package is where it is; and a package that counts as loaded has all its paths among the files and all its files
registered, so that to read it again would change nothing. -/
theorem locations_transparent (hdisk : disk.root.WellNamed) (h : LeadsOn disk empty m) (name : String) :
    (∃ m', locatedFiles disk name m = .ok (locate disk m.includes name) m' ∧ m' = { m with located := m'.located }) ∧
      ∀ p, m.packages.find? name = some p → p.isLoaded m.includes.length = true →
        (∀ path ∈ locate disk m.includes name, path ∈ m.files.keys) ∧
        (∀ path ∈ p.files.keys, path ∈ p.registered) ∧
        ∀ location, readPackage disk name location m = .ok () m := by
  have hm := h.transparent
  have hleads := h.leads hdisk
  have hcoherent : m.Coherent := (hleads.steps named_empty).coherent coherent_empty
  refine ⟨locatedFiles_of_transparent hm name, fun p hp hloaded => ?_⟩
  obtain ⟨hfilled, paths, hnoted, hknown⟩ := hm.of_isLoaded (fun _ _ => (reading_transparent disk).bound) hp hloaded
  obtain ⟨-, _, hnoted', hsome⟩ := hleads.noted.of_isLoaded (fun _ _ h => h.1) hp hloaded
  cases hnoted.symm.trans hnoted'
  obtain rfl := (hm.noted name _ paths hnoted).current
  refine ⟨fun path hpath => ?_, (Package.isLoaded_iff.mp hloaded).2, fun location => ?_⟩
  · obtain ⟨f, hf⟩ := Option.isSome_iff_exists.mp (hsome path hpath)
    exact List.mem_map_of_mem (Table.mem_of_find? hf)
  · have hfiles : m.packageFiles name ≠ [] := by simpa [packageFiles, hp] using hfilled
    rw [readPackage_of_known hnoted hknown hfiles, hcoherent.entered_of_isLoaded hp hloaded]

/-- In the small library a package is loaded that another package imports. -/
theorem locations_transparent_ofLibrary :
    LeadsOn .library empty ofLibrary ∧ locate .library ofLibrary.includes "a" = ([["lib", "a", "x.qi"]] : List Path) ∧
      ∃ p, ofLibrary.packages.find? "a" = some p ∧ p.isLoaded ofLibrary.includes.length = true ∧
        (∀ path ∈ locate .library ofLibrary.includes "a", path ∈ ofLibrary.files.keys) ∧
        (∀ path ∈ p.files.keys, path ∈ p.registered) ∧
        ∀ location, readPackage .library "a" location ofLibrary = .ok () ofLibrary := by
  have hleads : LeadsOn .library empty ofLibrary := .step _ (.step _ (.step _ .refl))
  have hcheck : locate .library ofLibrary.includes "a" = ([["lib", "a", "x.qi"]] : List Path) ∧ ofLibrary.loaded "a" = true := by
    decide +kernel
  obtain ⟨p, hp, hloaded⟩ := loaded_iff.mp hcheck.2
  obtain ⟨-, hrest⟩ := locations_transparent Disk.wellNamed_library hleads "a"
  exact ⟨hleads, hcheck.1, p, hp, hloaded, hrest p hp hloaded⟩

end Manager
end QiIdl
