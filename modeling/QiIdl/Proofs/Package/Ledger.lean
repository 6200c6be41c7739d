import Mathlib.Data.List.Dedup
import QiIdl.Proofs.Package.Coherent

/-!
# What packages export and import

The exports, imports and the count of refused exports of a package are a ledger of what stands at the top of its
registered files. Files are registered at different times, some long after they were read, and a package may be
loaded and fail many times, so the ledger is compared with the files it is about, not with how it came about:
`Package.Enters p roots` says that the ledger of `p` is the one of `roots`. Registering a node adds it to `roots`
(`Enters.register`), and registering a file adds the file to those that are registered (`registeredFiles_perm`).

The reports of names that were taken are counted along with it: each refused export is reported once.
-/

namespace QiIdl

variable {name : String}

/-- The words for a name that is taken. -/
theorem Problem.isClash_alreadyExported (name : String) (previous location : Location) :
    ((Problem.alreadyExported name previous).diagnostic location).isClash = true := by
  have hmessage : ((Problem.alreadyExported name previous).diagnostic location).message.toList =
      "symbol '".toList ++ name.toList ++ "' already exported".toList := by
    simp only [← String.toList_append]
    rfl
  unfold Diagnostic.isClash
  rw [hmessage, Bool.and_eq_true, List.isPrefixOf_iff_prefix, List.isSuffixOf_iff_suffix, List.append_assoc]
  exact ⟨List.prefix_append _ _, List.suffix_append_of_suffix (List.suffix_append _ _)⟩

namespace Package

/-- The files whose exports and imports are entered, in increasing order of their paths. -/
def registeredFiles (p : Package) : List SourceFile := p.files.values.filter fun f => p.registered.contains f.path

/-- What stands at the top of some files, each with its file. -/
def rootsOf (files : List SourceFile) : List (SourceFile × Node Mark) :=
  files.flatMap fun f => f.ast.roots.map fun n => (f, n)

/-- The names that some nodes are exported under, one for each node that is exported. -/
def exportedNames (roots : List (SourceFile × Node Mark)) : List String := roots.filterMap (·.2.exportedName?)

/-- The entry that an import statement at the top of a file makes. -/
def useOf? : SourceFile × Node Mark → Option ImportUse
  | (f, .imports d) => some ⟨f.path, d, f.ast.location (.imports d)⟩
  | _ => none

/-- All import statements that are entered. -/
def importUses (p : Package) : List ImportUse := p.imports.values.flatten

/-- Exports are those of some nodes, but for names that were taken, which are counted. -/
structure EntersExports (table : Table String Export) (count : Nat) (roots : List (SourceFile × Node Mark)) :
    Prop where
  exports : ∀ name e, table.find? name = some e →
    e.name = name ∧ (e.file, e.node) ∈ roots ∧ e.node.exportedName? = some name
  exported : ∀ name ∈ exportedNames roots, (table.find? name).isSome
  duplicates : count + (exportedNames roots).dedup.length = (exportedNames roots).length

/-- Imports are those of some nodes, each under the package that is imported. -/
structure EntersImports (table : Table String (List ImportUse)) (roots : List (SourceFile × Node Mark)) : Prop where
  imports : table.values.flatten.Perm (roots.filterMap useOf?)
  sorted_imports : table.Sorted
  keyed_imports : ∀ package uses, table.find? package = some uses → ∀ use ∈ uses, use.stmt.package = package

/-- The ledger of a package is that of some nodes at the top of its files. -/
structure Enters (p : Package) (roots : List (SourceFile × Node Mark)) : Prop extends
  EntersExports p.exports p.duplicates roots, EntersImports p.imports roots

variable {p : Package} {roots : List (SourceFile × Node Mark)} {file : SourceFile} {node : Node Mark}
  {exports : Table String Export} {duplicates : Nat} {imports : Table String (List ImportUse)}

theorem enters_empty (name : String) : (empty name).Enters [] :=
  ⟨⟨nofun, nofun, rfl⟩, .nil, .nil, nofun⟩

/-- The order of the nodes does not count. -/
theorem Enters.perm {roots' : List (SourceFile × Node Mark)} (h : p.Enters roots) (hperm : roots.Perm roots') :
    p.Enters roots' := by
  have hnames : (exportedNames roots).Perm (exportedNames roots') := hperm.filterMap _
  refine ⟨⟨fun name e he => ?_, ?_, ?_⟩, h.imports.trans (hperm.filterMap _), h.sorted_imports, h.keyed_imports⟩
  · obtain ⟨hname, hmem, hexported⟩ := h.exports name e he
    exact ⟨hname, hperm.mem_iff.mp hmem, hexported⟩
  · exact fun name hname => h.exported name (hnames.mem_iff.mpr hname)
  · rw [← hnames.length_eq, ← hnames.dedup.length_eq]
    exact h.duplicates

/-! ## One node -/

theorem exportedNames_cons_none (h : node.exportedName? = none) :
    exportedNames ((file, node) :: roots) = exportedNames roots := List.filterMap_cons_none h

theorem exportedNames_cons_some (h : node.exportedName? = some name) :
    exportedNames ((file, node) :: roots) = name :: exportedNames roots := List.filterMap_cons_some h

namespace EntersExports

theorem mem_cons (h : EntersExports exports duplicates roots) {root : SourceFile × Node Mark} {e : Export}
    (he : exports.find? name = some e) :
    e.name = name ∧ (e.file, e.node) ∈ root :: roots ∧ e.node.exportedName? = some name := by
  obtain ⟨hname, hroot, hexported⟩ := h.exports name e he
  exact ⟨hname, List.mem_cons_of_mem _ hroot, hexported⟩

/-- A name that is taken is counted, and the export there is stays. -/
theorem addDuplicate {previous : Export} (h : EntersExports exports duplicates roots)
    (hnode : node.exportedName? = some name) (htaken : exports.find? name = some previous) :
    EntersExports exports (duplicates + 1) ((file, node) :: roots) := by
  have hmem : name ∈ exportedNames roots := by
    obtain ⟨-, hroot, hexported⟩ := h.exports name previous htaken
    exact List.mem_filterMap.mpr ⟨_, hroot, hexported⟩
  refine ⟨fun _ _ => h.mem_cons, ?_, ?_⟩
  · rw [exportedNames_cons_some hnode]
    exact List.forall_mem_cons.mpr ⟨by rw [htaken]; rfl, h.exported⟩
  · rw [exportedNames_cons_some hnode, List.dedup_cons_of_mem hmem, List.length_cons, ← h.duplicates]
    exact Nat.add_right_comm _ _ _

theorem addNew (h : EntersExports exports duplicates roots) (hnode : node.exportedName? = some name)
    (hnew : exports.find? name = none) :
    EntersExports (exports.insert name ⟨name, file, node⟩) duplicates ((file, node) :: roots) := by
  have hmem : name ∉ exportedNames roots := by
    intro hmem
    have := h.exported name hmem
    simp [hnew] at this
  constructor
  case exports =>
    intro other e he
    rw [Table.find?_insert] at he
    split at he
    · next heq =>
      cases he
      exact ⟨heq.symm, List.mem_cons_self, heq ▸ hnode⟩
    · exact h.mem_cons he
  case exported =>
    rw [exportedNames_cons_some hnode]
    refine List.forall_mem_cons.mpr ⟨by rw [Table.find?_insert_self]; rfl, ?_⟩
    intro other hother
    rw [Table.find?_insert]
    split
    · rfl
    · exact h.exported other hother
  case duplicates =>
    rw [exportedNames_cons_some hnode, List.dedup_cons_of_notMem hmem, List.length_cons, List.length_cons,
      ← h.duplicates]
    rfl

/-- A node that is not exported makes no entry. -/
theorem skip (h : EntersExports exports duplicates roots) (hnode : node.exportedName? = none) :
    EntersExports exports duplicates ((file, node) :: roots) := by
  have hnames : exportedNames ((file, node) :: roots) = exportedNames roots := exportedNames_cons_none hnode
  exact ⟨fun _ _ => h.mem_cons, hnames ▸ h.exported, hnames ▸ h.duplicates⟩

end EntersExports

theorem useOf?_eq_none (h : ∀ d, node ≠ .imports d) : useOf? (file, node) = none := by
  unfold useOf?
  split
  · next d heq => exact absurd (Prod.mk.inj heq).2 (h d)
  · rfl

/-- An import statement comes in behind the others of its package, once. -/
theorem importUses_addImport (hsorted : p.imports.Sorted) (use : ImportUse) :
    (p.addImport use).importUses.Perm (use :: p.importUses) := by
  unfold addImport importUses Table.alter
  cases hfind : p.imports.find? use.stmt.package with
  | none => exact (Table.perm_values_insert _ hfind).flatten
  | some uses =>
    obtain ⟨rest, hold, hnew⟩ := hsorted.exists_perm_values_insert (uses ++ [use]) hfind
    have hmiddle : ((uses ++ [use]) ++ rest.flatten).Perm (use :: (uses ++ rest.flatten)) := by
      rw [List.append_assoc]
      exact List.perm_middle
    exact (hnew.flatten.trans hmiddle).trans (hold.flatten.symm.cons use)

theorem EntersImports.addImport {d : Import Mark} (h : EntersImports p.imports roots) :
    EntersImports (p.addImport ⟨file.path, d, file.ast.location (.imports d)⟩).imports
      ((file, .imports d) :: roots) := by
  constructor
  case imports => exact (importUses_addImport h.sorted_imports _).trans (h.imports.cons _)
  case sorted_imports => exact h.sorted_imports.insert
  case keyed_imports =>
    intro package uses huses use huse
    simp only [Package.addImport, Table.alter, Table.find?_insert] at huses
    split at huses
    · next heq =>
      cases huses
      rcases List.mem_append.mp huse with huse | huse
      · cases hfind : p.imports.find? d.package with
        | none =>
          rw [hfind] at huse
          cases huse
        | some others =>
          rw [hfind] at huse
          exact heq ▸ h.keyed_imports _ _ hfind use huse
      · rw [List.mem_singleton.mp huse]
        exact heq.symm
    · exact h.keyed_imports package uses huses use huse

theorem EntersImports.skip (h : EntersImports imports roots) (himports : ∀ d, node ≠ .imports d) :
    EntersImports imports ((file, node) :: roots) := by
  refine ⟨?_, h.sorted_imports, h.keyed_imports⟩
  rw [List.filterMap_cons_none (useOf?_eq_none himports)]
  exact h.imports

/-- Registering a node enters it, and reports it if its name is taken. -/
theorem Enters.register (h : p.Enters roots) (file : SourceFile) (node : Node Mark) :
    (p.register file node).1.Enters ((file, node) :: roots) ∧
      p.duplicates + (p.register file node).2.countP (·.isClash) = (p.register file node).1.duplicates := by
  unfold Package.register
  split
  · exact ⟨⟨h.toEntersExports.skip rfl, h.addImport⟩, rfl⟩
  · next name himports hnode =>
    unfold addExport
    cases hname : p.exports.find? name with
    | some previous =>
      refine ⟨⟨h.addDuplicate hnode hname, h.toEntersImports.skip himports⟩, ?_⟩
      simp [Problem.isClash_alreadyExported]
    | none => exact ⟨⟨h.addNew hnode hname, h.toEntersImports.skip himports⟩, rfl⟩
  · next himports hnode => exact ⟨⟨h.toEntersExports.skip hnode, h.toEntersImports.skip himports⟩, rfl⟩

/-! ## A file -/

theorem Enters.registerAll (h : p.Enters roots) (file : SourceFile) (nodes : List (Node Mark)) :
    (p.registerAll file nodes).1.Enters (nodes.map (fun n => (file, n)) ++ roots) ∧
      p.duplicates + (p.registerAll file nodes).2.countP (·.isClash) = (p.registerAll file nodes).1.duplicates := by
  induction nodes generalizing p roots with
  | nil => exact ⟨h, rfl⟩
  | cons node nodes ih =>
    obtain ⟨hfirst, hcount⟩ := h.register file node
    obtain ⟨hrest, hcounts⟩ := ih hfirst
    rw [registerAll_cons]
    refine ⟨hrest.perm List.perm_middle, ?_⟩
    rw [List.countP_append, ← Nat.add_assoc, hcount, hcounts]

/-- One more path is registered: that of a file which is among the files once. -/
theorem filter_registered_perm {files : List SourceFile} {registered : List Path}
    (hnodup : (files.map (·.path)).Nodup) (hfile : file ∈ files) (hnew : file.path ∉ registered) :
    (files.filter fun f => (file.path :: registered).contains f.path).Perm
      (file :: files.filter fun f => registered.contains f.path) := by
  induction files with
  | nil => cases hfile
  | cons first files ih =>
    obtain ⟨hfirst, hnodup⟩ := List.nodup_cons.mp hnodup
    rcases List.mem_cons.mp hfile with rfl | hfile
    · -- no other file has this path
      have hrest : files.filter (fun f => (file.path :: registered).contains f.path) =
          files.filter fun f => registered.contains f.path := by
        refine List.filter_congr fun f hf => ?_
        have hne : f.path ≠ file.path := fun heq => hfirst (List.mem_map.mpr ⟨f, hf, heq⟩)
        simp [hne]
      rw [List.filter_cons_of_pos (by simp), List.filter_cons_of_neg (by simpa using hnew), hrest]
    · have hne : first.path ≠ file.path := fun heq => hfirst (List.mem_map.mpr ⟨file, hfile, heq.symm⟩)
      have hsame : (file.path :: registered).contains first.path = registered.contains first.path := by
        simp [hne]
      rw [List.filter_cons, List.filter_cons, hsame]
      split
      · exact ((ih hnodup hfile).cons first).trans (.swap _ _ _)
      · exact ih hnodup hfile

theorem rootsOf_perm {files files' : List SourceFile} (h : files.Perm files') :
    (rootsOf files).Perm (rootsOf files') := h.flatMap_right _

/-- Registering a file of a package keeps its ledger that of the registered files, and reports each clash. -/
theorem Enters.registerFile (h : p.Enters (rootsOf p.registeredFiles))
    (hnodup : (p.files.values.map (·.path)).Nodup) (hfile : file ∈ p.files.values) :
    (p.registerFile file).1.Enters (rootsOf (p.registerFile file).1.registeredFiles) ∧
      p.duplicates + (p.registerFile file).2.countP (·.isClash) = (p.registerFile file).1.duplicates := by
  by_cases hknown : file.path ∈ p.registered
  · rw [registerFile_of_mem hknown]
    exact ⟨h, rfl⟩
  · obtain ⟨hentered, hcount⟩ := h.registerAll file file.ast.roots
    obtain ⟨_, _, _, hframe⟩ := registerAll_frame file p file.ast.roots
    rw [registerFile_of_new hknown]
    have hperm := filter_registered_perm hnodup hfile hknown
    have hroots := hentered.perm (rootsOf_perm hperm).symm
    unfold registeredFiles
    rw [hframe]
    rw [hframe] at hroots
    exact ⟨⟨hroots.1, hroots.2⟩, hframe ▸ hcount⟩

/-- A file that is not registered adds nothing to the ledger. -/
theorem Enters.addFile (h : p.Enters (rootsOf p.registeredFiles)) (hnew : p.files.find? file.path = none)
    (hregistered : ∀ path ∈ p.registered, (p.files.find? path).isSome) :
    (p.addFile file).Enters (rootsOf (p.addFile file).registeredFiles) := by
  have hnot : file.path ∉ p.registered := by
    intro hmem
    have := hregistered _ hmem
    simp [hnew] at this
  have hperm := (Table.perm_values_insert file hnew).filter fun f => p.registered.contains f.path
  rw [List.filter_cons_of_neg (by simpa using hnot)] at hperm
  have hroots := h.perm (rootsOf_perm hperm.symm)
  rw [addFile_eq hnew]
  exact ⟨hroots.1, hroots.2⟩

/-- The refused exports of some packages. -/
def totalDuplicates : List Package → Nat
  | [] => 0
  | p :: ps => p.duplicates + totalDuplicates ps

theorem totalDuplicates_perm {ps qs : List Package} (h : ps.Perm qs) : totalDuplicates ps = totalDuplicates qs := by
  induction h with
  | nil => rfl
  | cons p _ ih => rw [totalDuplicates, totalDuplicates, ih]
  | swap p q ps => exact Nat.add_left_comm _ _ _
  | trans _ _ ih ih' => exact ih.trans ih'

end Package

namespace Manager

open Package

variable {m m' : Manager} {asked : SourceFile → Node Mark → Prop}

def duplicates (m : Manager) : Nat := totalDuplicates m.packages.values

/-- Exchanging a package, or adding one, changes the total by what the packages differ. -/
theorem totalDuplicates_insert (hsorted : m.packages.Sorted) (name : String) (q : Package) :
    totalDuplicates (m.packages.insert name q).values + ((m.packages.find? name).map (·.duplicates)).getD 0 =
      m.duplicates + q.duplicates := by
  unfold duplicates
  cases hp : m.packages.find? name with
  | none =>
    rw [totalDuplicates_perm (Table.perm_values_insert q hp), totalDuplicates]
    simp only [Option.map_none, Option.getD_none]
    omega
  | some p =>
    obtain ⟨rest, hold, hnew⟩ := hsorted.exists_perm_values_insert q hp
    rw [totalDuplicates_perm hold, totalDuplicates_perm hnew, totalDuplicates, totalDuplicates]
    simp only [Option.map_some, Option.getD_some]
    omega

/-- Every package has entered what its registered files export and import, and every clash is reported once. -/
structure Balanced (m : Manager) : Prop where
  entered : ∀ name p, m.packages.find? name = some p → p.Enters (rootsOf p.registeredFiles)
  clashes : m.diagnostics.countP (·.isClash) = m.duplicates

theorem balanced_empty : empty.Balanced := ⟨nofun, rfl⟩

/-- The files of a package are kept under their paths. -/
theorem Coherent.map_path_values {p : Package} (hm : m.Coherent) (hp : m.packages.find? name = some p) :
    p.files.values.map (·.path) = p.files.keys := by
  unfold Table.values Table.keys
  rw [List.map_map]
  refine List.map_congr_left ?_
  rintro ⟨path, f⟩ hmem
  have hfound := (hm.sorted_packageFiles name p hp).find?_of_mem hmem
  exact hm.keyed path f ((hm.partition name path f).mp (fileIn_eq_some.mpr ⟨p, hp, hfound⟩)).1

theorem Coherent.nodup_paths {p : Package} (hm : m.Coherent) (hp : m.packages.find? name = some p) :
    (p.files.values.map (·.path)).Nodup := by
  rw [hm.map_path_values hp]
  exact (hm.sorted_packageFiles name p hp).nodup_keys

theorem Step.entered (h : Step asked m m') (hm : m.Coherent)
    (hentered : ∀ name p, m.packages.find? name = some p → p.Enters (rootsOf p.registeredFiles)) :
    ∀ name p, m'.packages.find? name = some p → p.Enters (rootsOf p.registeredFiles) := by
  refine h.forall_packages (fun name q hq => ?_) hentered
  cases hq with
  | @load f root hnew _ =>
    have hhome := homeOf_of_forall (P := fun p => p.Enters (rootsOf p.registeredFiles)) f (hentered _)
      (enters_empty f.package)
    have hregistered := homeOf_of_forall (P := fun p => ∀ path ∈ p.registered, (p.files.find? path).isSome) f
      (hm.registered _) nofun
    have hnone : (m.homeOf f).files.find? f.path = none := hm.find?_homeOf hnew
    exact hhome.addFile hnone hregistered
  | register hp hf => exact ((hentered _ _ hp).registerFile (hm.nodup_paths hp) hf).1
  | mark count hp => exact ⟨(hentered _ _ hp).1, (hentered _ _ hp).2⟩

/-- A package may be exchanged, or a new one may come in, if as much is reported as is refused in it. -/
theorem Balanced.clashes_insert (hm : m.Balanced) (hsorted : m.packages.Sorted) (name : String) (q : Package)
    (ds : List Diagnostic)
    (hq : ((m.packages.find? name).map (·.duplicates)).getD 0 + ds.countP (·.isClash) = q.duplicates) :
    (m.diagnostics ++ ds).countP (·.isClash) = totalDuplicates (m.packages.insert name q).values := by
  have htotal := totalDuplicates_insert hsorted name q
  rw [List.countP_append, hm.clashes]
  omega

theorem Step.clashes (h : Step asked m m') (hm : m.Coherent) (hbalanced : m.Balanced) :
    m'.diagnostics.countP (·.isClash) = m'.duplicates := by
  have hinsert := hbalanced.clashes_insert hm.sorted_packages
  cases h with
  | addInclude i =>
    unfold duplicates
    rw [addInclude_packages, addInclude_diagnostics]
    exact hbalanced.clashes
  | @report d hd =>
    show (m.diagnostics ++ [d]).countP (·.isClash) = m.duplicates
    rw [List.countP_append, List.countP_singleton, hd, hbalanced.clashes]
    rfl
  | countRead => exact hbalanced.clashes
  | @load f root hnew _ =>
    have hcount := hinsert f.package ((m.homeOf f).addFile f) [] ?_
    · rw [List.append_nil] at hcount
      unfold duplicates
      simpa [addFile_eq, homeOf] using hcount
    · rw [Package.addFile_eq (hm.find?_homeOf hnew)]
      unfold homeOf
      cases m.packages.find? f.package <;> rfl
  | noteLocated => exact hbalanced.clashes
  | register hf =>
    obtain ⟨p, hp, hf⟩ := mem_packageFiles.mp hf
    rw [registerFile_eq hp]
    refine hinsert _ _ _ ?_
    rw [hp]
    exact ((hbalanced.entered _ p hp).registerFile (hm.nodup_paths hp) hf).2
  | markLocated name count =>
    unfold Manager.markLocated
    cases hp : m.packages.find? name with
    | none => exact hbalanced.clashes
    | some p =>
      have hcount := hinsert name { p with locatedWith := some count } [] (by rw [hp]; rfl)
      rw [List.append_nil] at hcount
      exact hcount
  | keep => exact hbalanced.clashes

/-- Reports are only added. -/
theorem Step.reports_stay (h : Step asked m m') : m.diagnostics <+: m'.diagnostics := by
  cases h with
  | addInclude i => exact (addInclude_diagnostics i).symm ▸ List.prefix_rfl
  | report => exact List.prefix_append _ _
  | countRead => exact List.prefix_rfl
  | @load f root =>
    have hsame : ((m.addInclude (.known root)).addFile f).diagnostics = m.diagnostics :=
      addInclude_diagnostics (.known root)
    exact hsame.symm ▸ List.prefix_rfl
  | noteLocated => exact List.prefix_rfl
  | register hf =>
    obtain ⟨p, hp, -⟩ := mem_packageFiles.mp hf
    rw [registerFile_eq hp]
    exact List.prefix_append _ _
  | markLocated name count =>
    unfold Manager.markLocated
    cases m.packages.find? name <;> exact List.prefix_rfl
  | keep => exact List.prefix_rfl

theorem Steps.reports_stay (h : Steps asked m m') : m.diagnostics <+: m'.diagnostics := by
  induction h with
  | refl => exact List.prefix_rfl
  | tail _ hstep ih => exact ih.trans hstep.reports_stay

theorem Steps.balanced (h : Steps asked m m') (hm : m.Coherent) (hbalanced : m.Balanced) : m'.Balanced := by
  induction h with
  | refl => exact hbalanced
  | tail hsteps hstep ih =>
    have hcoherent := Steps.coherent hsteps hm
    exact ⟨hstep.entered hcoherent ih.entered, hstep.clashes hcoherent ih⟩

end Manager

/-! ## Import statements are told apart -/

/-- The statement that an entry is about: its file, and its number there. -/
def ImportUse.origin (use : ImportUse) : Path × Nat := (use.file, use.stmt.tag.id)

namespace Package

variable {p : Package} {roots : List (SourceFile × Node Mark)} {files : List SourceFile}

theorem mem_rootsOf {file : SourceFile} {node : Node Mark} :
    (file, node) ∈ rootsOf files ↔ file ∈ files ∧ node ∈ file.ast.roots := by
  simp [rootsOf]

/-- A path and a number belong to one node at the top of some files, if they do in each of them. -/
theorem nodup_origins_rootsOf (hpaths : (files.map (·.path)).Nodup)
    (hids : ∀ f ∈ files, (f.ast.roots.map (·.tag.id)).Nodup) :
    ((rootsOf files).map fun root => (root.1.path, root.2.tag.id)).Nodup := by
  induction files with
  | nil => exact .nil
  | cons file files ih =>
    obtain ⟨hpath, hpaths⟩ := List.nodup_cons.mp hpaths
    obtain ⟨hfile, hids⟩ := List.forall_mem_cons.mp hids
    rw [rootsOf, List.flatMap_cons, List.map_append, List.map_map]
    refine List.nodup_append.mpr ⟨?_, ih hpaths hids, ?_⟩
    · have hpairs := List.Nodup.map (f := fun id => (file.path, id)) (fun _ _ h => (Prod.mk.inj h).2) hfile
      rwa [List.map_map] at hpairs
    · intro origin horigin other hother heq
      subst heq
      obtain ⟨node, _, rfl⟩ := List.mem_map.mp horigin
      obtain ⟨⟨f, n⟩, hroot, heq⟩ := List.mem_map.mp hother
      exact hpath (List.mem_map.mpr ⟨f, (mem_rootsOf.mp hroot).1, (Prod.mk.inj heq).1⟩)

theorem origin_of_useOf? {root : SourceFile × Node Mark} {use : ImportUse} (h : useOf? root = some use) :
    use.origin = (root.1.path, root.2.tag.id) := by
  unfold useOf? at h
  split at h
  · cases h
    rfl
  · cases h

theorem nodup_origins_uses (h : (roots.map fun root => (root.1.path, root.2.tag.id)).Nodup) :
    ((roots.filterMap useOf?).map ImportUse.origin).Nodup := by
  induction roots with
  | nil => exact .nil
  | cons root roots ih =>
    obtain ⟨hroot, hroots⟩ := List.nodup_cons.mp h
    cases huse : useOf? root with
    | none =>
      rw [List.filterMap_cons_none huse]
      exact ih hroots
    | some use =>
      rw [List.filterMap_cons_some huse, List.map_cons]
      refine List.nodup_cons.mpr ⟨?_, ih hroots⟩
      intro hmem
      obtain ⟨other, hother, heq⟩ := List.mem_map.mp hmem
      obtain ⟨root', hroot', huse'⟩ := List.mem_filterMap.mp hother
      refine hroot (List.mem_map.mpr ⟨root', hroot', ?_⟩)
      rw [← origin_of_useOf? huse', heq, origin_of_useOf? huse]

theorem filter_eq_singleton_of_nodup {β κ : Type} [DecidableEq κ] {key : β → κ} {xs : List β} {x : β}
    (hnodup : (xs.map key).Nodup) (hx : x ∈ xs) : xs.filter (fun y => key y = key x) = [x] := by
  induction xs with
  | nil => cases hx
  | cons y xs ih =>
    obtain ⟨hy, hnodup⟩ := List.nodup_cons.mp hnodup
    rcases List.mem_cons.mp hx with rfl | hx
    · rw [List.filter_cons_of_pos (by simp), List.filter_eq_nil_iff.mpr]
      intro z hz hkey
      exact hy (List.mem_map.mpr ⟨z, hz, of_decide_eq_true hkey⟩)
    · have hne : key y ≠ key x := fun heq => hy (List.mem_map.mpr ⟨x, hx, heq.symm⟩)
      rw [List.filter_cons_of_neg (by simpa using hne)]
      exact ih hnodup hx

/-- The exports and imports of a package are those of its registered files: a name is exported if and only if a
registered file has a node of that name at its top, and then such a node; exports of a name that is taken are
counted; and each import statement is entered under the package it imports, once. -/
structure Ledger (p : Package) : Prop where
  exported_iff : ∀ name, (p.exports.find? name).isSome ↔
    ∃ f ∈ p.registeredFiles, ∃ n ∈ f.ast.roots, n.exportedName? = some name
  exports : ∀ name e, p.exports.find? name = some e →
    e.name = name ∧ e.file ∈ p.registeredFiles ∧ e.node ∈ e.file.ast.roots ∧ e.node.exportedName? = some name
  duplicates : p.duplicates + (exportedNames (rootsOf p.registeredFiles)).dedup.length =
    (exportedNames (rootsOf p.registeredFiles)).length
  imports : ∀ f ∈ p.registeredFiles, ∀ d, .imports d ∈ f.ast.roots →
    (∃ uses, p.imports.find? d.package = some uses ∧ ⟨f.path, d, f.ast.location (.imports d)⟩ ∈ uses) ∧
      p.importUses.filter (fun use => use.origin = (f.path, d.tag.id)) =
        [⟨f.path, d, f.ast.location (.imports d)⟩]

/-- What is entered under some package is about that package. -/
theorem Enters.exists_uses {use : ImportUse} (h : p.Enters roots) (huse : use ∈ p.importUses) :
    ∃ uses, p.imports.find? use.stmt.package = some uses ∧ use ∈ uses := by
  obtain ⟨uses, huses, hmem⟩ := List.mem_flatten.mp huse
  obtain ⟨package, hpackage⟩ := h.sorted_imports.mem_values_iff.mp huses
  rw [h.keyed_imports package uses hpackage use hmem]
  exact ⟨uses, hpackage, hmem⟩

theorem Enters.ledger (h : p.Enters (rootsOf p.registeredFiles))
    (hpaths : (p.files.values.map (·.path)).Nodup)
    (hids : ∀ f ∈ p.files.values, (f.ast.roots.map (·.tag.id)).Nodup) : p.Ledger := by
  have hsub : List.Sublist p.registeredFiles p.files.values := List.filter_sublist
  constructor
  case exported_iff =>
    intro name
    constructor
    · intro hname
      obtain ⟨e, he⟩ := Option.isSome_iff_exists.mp hname
      obtain ⟨-, hroot, hexported⟩ := h.exports name e he
      obtain ⟨hfile, hnode⟩ := mem_rootsOf.mp hroot
      exact ⟨e.file, hfile, e.node, hnode, hexported⟩
    · rintro ⟨f, hf, n, hn, hexported⟩
      exact h.exported name (List.mem_filterMap.mpr ⟨(f, n), mem_rootsOf.mpr ⟨hf, hn⟩, hexported⟩)
  case exports =>
    intro name e he
    obtain ⟨hname, hroot, hexported⟩ := h.exports name e he
    obtain ⟨hfile, hnode⟩ := mem_rootsOf.mp hroot
    exact ⟨hname, hfile, hnode, hexported⟩
  case duplicates => exact h.duplicates
  case imports =>
    intro f hf d hd
    have huse : (⟨f.path, d, f.ast.location (.imports d)⟩ : ImportUse) ∈ p.importUses :=
      h.imports.mem_iff.mpr (List.mem_filterMap.mpr ⟨(f, .imports d), mem_rootsOf.mpr ⟨hf, hd⟩, rfl⟩)
    have hnodup : (p.importUses.map ImportUse.origin).Nodup := by
      refine (h.imports.map _).nodup_iff.mpr (nodup_origins_uses (nodup_origins_rootsOf ?_ ?_))
      · exact hpaths.sublist (hsub.map _)
      · exact fun g hg => hids g (hsub.subset hg)
    exact ⟨h.exists_uses huse, filter_eq_singleton_of_nodup hnodup huse⟩

end Package

namespace Manager

open Package

variable {m : Manager}

/-- In every manager that operations lead to, the exports and imports of a package are those of its registered
files, and there are as many reports of names that are taken as there are refused exports, where no report is ever
taken back. -/
theorem ledger_of_leads {allowed : Manager → Operation → Prop} (h : Leads allowed empty m) :
    (∀ name p, m.packages.find? name = some p → p.Ledger) ∧
      m.diagnostics.countP (·.isClash) = m.duplicates ∧
      ∀ m', Leads allowed m m' → m.diagnostics <+: m'.diagnostics := by
  have hsteps := h.steps named_empty
  have hcoherent := hsteps.coherent coherent_empty
  have hbalanced := Steps.balanced hsteps coherent_empty balanced_empty
  refine ⟨fun name p hp => ?_, hbalanced.clashes,
    fun m' hlater => (hlater.steps (hsteps.named named_empty)).reports_stay⟩
  refine (hbalanced.entered name p hp).ledger (hcoherent.nodup_paths hp) ?_
  intro f hf
  exact Ast.nodup_ids_roots (hcoherent.laid (hcoherent.find?_of_mem hp hf).2)

theorem ledger_ofLibrary :
    Leads (fun _ _ => True) empty ofLibrary ∧ ofLibrary.duplicates = 1 ∧
      (∀ name p, ofLibrary.packages.find? name = some p → p.Ledger) ∧
      ofLibrary.diagnostics.countP (·.isClash) = ofLibrary.duplicates := by
  have hleads : Leads (fun _ _ => True) empty ofLibrary :=
    leads_ofLibrary (fun _ _ => trivial) (fun _ _ => trivial) (fun _ _ => trivial)
  obtain ⟨hledger, hclashes, -⟩ := ledger_of_leads hleads
  exact ⟨hleads, by decide +kernel, hledger, hclashes⟩

end Manager
end QiIdl
