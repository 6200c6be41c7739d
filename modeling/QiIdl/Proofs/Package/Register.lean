import QiIdl.Package.Basic
import QiIdl.Proofs.Table

/-!
# Registering files

A package grows: it gets files, and when a file is registered it gets what stands at the top of the file, unless
the name is taken. What was there stays (`Package.Grows`), and what is found there afterwards was there before or
comes from the file (`Package.find?_exports_registerFile`).
-/

namespace QiIdl

namespace Package

variable {p : Package} {file : SourceFile} {name : String} {e : Export}

/-- A package with the files and exports of another, and maybe more. -/
structure Grows (p q : Package) : Prop where
  files : ∀ f ∈ p.files.values, f ∈ q.files.values
  exports : ∀ name e, p.exports.find? name = some e → q.exports.find? name = some e

theorem Grows.refl (p : Package) : p.Grows p := ⟨fun _ h => h, fun _ _ h => h⟩

theorem Grows.trans {p q r : Package} (hpq : p.Grows q) (hqr : q.Grows r) : p.Grows r :=
  ⟨fun f hf => hqr.files f (hpq.files f hf), fun name e he => hqr.exports name e (hpq.exports name e he)⟩

/-- A file comes in under its path, if the path is new, and nothing else changes. -/
theorem addFile_eq {f : SourceFile} (h : p.files.find? f.path = none) :
    p.addFile f = { p with files := p.files.insert f.path f } := by
  simp [addFile, Table.contains, h]

theorem addFile_exports (p : Package) (f : SourceFile) : (p.addFile f).exports = p.exports := by
  unfold addFile
  split <;> rfl

theorem addFile_duplicates (p : Package) (f : SourceFile) : (p.addFile f).duplicates = p.duplicates := by
  unfold addFile
  split <;> rfl

theorem addFile_locatedWith (p : Package) (f : SourceFile) : (p.addFile f).locatedWith = p.locatedWith := by
  unfold addFile
  split <;> rfl

theorem grows_addFile (p : Package) (f : SourceFile) : p.Grows (p.addFile f) := by
  unfold addFile
  split
  · exact .refl p
  · next h =>
    exact ⟨fun g hg => (Table.mem_values_insert (Table.find?_of_not_contains h)).mpr (.inr hg), fun _ _ he => he⟩

theorem isLoaded_iff {count : Nat} :
    p.isLoaded count = true ↔ p.locatedWith = some count ∧ ∀ path ∈ p.files.keys, path ∈ p.registered := by
  simp [isLoaded]

/-! ## Registering -/

/-- Registering a node changes nothing but exports, imports and the count of names that were taken. -/
theorem register_frame (file : SourceFile) (p : Package) (node : Node Mark) :
    ∃ exports imports duplicates,
      (p.register file node).1 = { p with exports := exports, imports := imports, duplicates := duplicates } := by
  unfold register
  split
  · exact ⟨_, _, _, rfl⟩
  · next name _ _ =>
    unfold addExport
    cases p.exports.find? name <;> exact ⟨_, _, _, rfl⟩
  · exact ⟨_, _, _, rfl⟩

theorem registerAll_cons (file : SourceFile) (p : Package) (node : Node Mark) (nodes : List (Node Mark)) :
    p.registerAll file (node :: nodes) =
      (((p.register file node).1.registerAll file nodes).1,
        (p.register file node).2 ++ ((p.register file node).1.registerAll file nodes).2) := rfl

theorem registerAll_frame (file : SourceFile) (p : Package) (nodes : List (Node Mark)) :
    ∃ exports imports duplicates,
      (p.registerAll file nodes).1 =
        { p with exports := exports, imports := imports, duplicates := duplicates } := by
  induction nodes generalizing p with
  | nil => exact ⟨_, _, _, rfl⟩
  | cons node nodes ih =>
    obtain ⟨_, _, _, hfirst⟩ := register_frame file p node
    obtain ⟨exports, imports, duplicates, hrest⟩ := ih (p.register file node).1
    rw [hfirst] at hrest
    exact ⟨exports, imports, duplicates, by rw [registerAll_cons, hfirst, hrest]⟩

/-- A file that is not registered yet is gone through. -/
theorem registerFile_of_new (h : file.path ∉ p.registered) :
    p.registerFile file =
      ({ (p.registerAll file file.ast.roots).1 with registered := file.path :: p.registered },
        (p.registerAll file file.ast.roots).2) := by
  obtain ⟨_, _, _, hframe⟩ := registerAll_frame file p file.ast.roots
  have hregistered : (p.registerAll file file.ast.roots).1.registered = p.registered := by rw [hframe]
  rw [registerFile, if_neg (by simpa using h), ← hregistered]

theorem registerFile_of_mem (h : file.path ∈ p.registered) : p.registerFile file = (p, []) := if_pos (by simpa using h)

/-- Registering a file leaves the name and the files of a package. -/
theorem registerFile_frame (p : Package) (file : SourceFile) :
    (p.registerFile file).1.name = p.name ∧ (p.registerFile file).1.files = p.files := by
  by_cases hfile : file.path ∈ p.registered
  · rw [registerFile_of_mem hfile]
    exact ⟨rfl, rfl⟩
  · obtain ⟨_, _, _, h⟩ := registerAll_frame file p file.ast.roots
    rw [registerFile_of_new hfile, h]
    exact ⟨rfl, rfl⟩

theorem mem_registered_registerFile {path : Path} (h : path ∈ (p.registerFile file).1.registered) :
    path = file.path ∨ path ∈ p.registered := by
  by_cases hfile : file.path ∈ p.registered
  · rw [registerFile_of_mem hfile] at h
    exact .inr h
  · rw [registerFile_of_new hfile] at h
    exact List.mem_cons.mp h

/-- What is found among the exports after a node was registered was found there before, or is that node. -/
theorem find?_exports_register {node : Node Mark} (h : (p.register file node).1.exports.find? name = some e) :
    p.exports.find? name = some e ∨ e = ⟨name, file, node⟩ ∧ node.exportedName? = some name := by
  unfold register at h
  split at h
  · exact .inl h
  · next exported _ hexported =>
    unfold addExport at h
    cases htaken : p.exports.find? exported with
    | some previous =>
      simp only [htaken] at h
      exact .inl h
    | none =>
      simp only [htaken, Table.find?_insert] at h
      split at h
      · next heq =>
        cases h
        exact .inr ⟨by rw [heq], by rw [hexported, heq]⟩
      · exact .inl h
  · exact .inl h

theorem find?_exports_registerAll {nodes : List (Node Mark)}
    (h : (p.registerAll file nodes).1.exports.find? name = some e) :
    p.exports.find? name = some e ∨ ∃ node ∈ nodes, e = ⟨name, file, node⟩ ∧ node.exportedName? = some name := by
  induction nodes generalizing p with
  | nil => exact .inl h
  | cons node nodes ih =>
    rcases ih h with hfirst | ⟨other, hmem, hother⟩
    · rcases find?_exports_register hfirst with hold | hnew
      · exact .inl hold
      · exact .inr ⟨node, List.mem_cons_self, hnew⟩
    · exact .inr ⟨other, List.mem_cons_of_mem _ hmem, hother⟩

theorem find?_exports_registerFile (h : (p.registerFile file).1.exports.find? name = some e) :
    p.exports.find? name = some e ∨
      ∃ node ∈ file.ast.roots, e = ⟨name, file, node⟩ ∧ node.exportedName? = some name := by
  by_cases hfile : file.path ∈ p.registered
  · rw [registerFile_of_mem hfile] at h
    exact .inl h
  · rw [registerFile_of_new hfile] at h
    exact find?_exports_registerAll h

theorem grows_register (file : SourceFile) (p : Package) (node : Node Mark) :
    p.Grows (p.register file node).1 := by
  unfold register
  split
  · exact ⟨fun _ h => h, fun _ _ h => h⟩
  · next name _ _ =>
    unfold addExport
    cases hname : p.exports.find? name with
    | some previous => exact ⟨fun _ h => h, fun _ _ h => h⟩
    | none => exact ⟨fun _ h => h, fun _ _ he => Table.find?_insert_of_find? he hname⟩
  · exact .refl p

theorem grows_registerAll (file : SourceFile) (p : Package) (nodes : List (Node Mark)) :
    p.Grows (p.registerAll file nodes).1 := by
  induction nodes generalizing p with
  | nil => exact .refl p
  | cons node nodes ih => exact (grows_register file p node).trans (ih _)

theorem grows_registerFile (p : Package) (file : SourceFile) : p.Grows (p.registerFile file).1 := by
  by_cases hfile : file.path ∈ p.registered
  · rw [registerFile_of_mem hfile]
    exact .refl p
  · rw [registerFile_of_new hfile]
    exact (grows_registerAll file p file.ast.roots).trans ⟨fun _ h => h, fun _ _ h => h⟩

/-! ## Reports -/

/-- Some reports are errors, one for each name that was taken. -/
def Tallies (p q : Package) (reports : List Diagnostic) : Prop :=
  q.duplicates = p.duplicates + reports.length ∧ ∀ d ∈ reports, d.isError = true

theorem Tallies.nil {p q : Package} (h : q.duplicates = p.duplicates) : p.Tallies q [] := ⟨h, nofun⟩

theorem Tallies.append {p q r : Package} {reports reports' : List Diagnostic} (h : p.Tallies q reports)
    (h' : q.Tallies r reports') : p.Tallies r (reports ++ reports') := by
  refine ⟨by rw [h'.1, h.1, List.length_append, Nat.add_assoc], ?_⟩
  intro d hd
  exact (List.mem_append.mp hd).elim (h.2 d) (h'.2 d)

theorem tallies_register (file : SourceFile) (p : Package) (node : Node Mark) :
    p.Tallies (p.register file node).1 (p.register file node).2 := by
  unfold register
  split
  · exact .nil rfl
  · next name _ _ =>
    unfold addExport
    cases p.exports.find? name with
    | some previous => exact ⟨rfl, by simp [Problem.diagnostic, Diagnostic.isError]⟩
    | none => exact .nil rfl
  · exact .nil rfl

theorem tallies_registerAll (file : SourceFile) (p : Package) (nodes : List (Node Mark)) :
    p.Tallies (p.registerAll file nodes).1 (p.registerAll file nodes).2 := by
  induction nodes generalizing p with
  | nil => exact .nil rfl
  | cons node nodes ih => exact (tallies_register file p node).append (ih _)

theorem tallies_registerFile (p : Package) (file : SourceFile) :
    p.Tallies (p.registerFile file).1 (p.registerFile file).2 := by
  by_cases hfile : file.path ∈ p.registered
  · rw [registerFile_of_mem hfile]
    exact .nil rfl
  · rw [registerFile_of_new hfile]
    exact tallies_registerAll file p file.ast.roots

/-! ## Registering some files -/

/-- Enters what some files export and import. -/
def registerFiles (p : Package) : List SourceFile → Package × List Diagnostic
  | [] => (p, [])
  | file :: files =>
    (((p.registerFile file).1.registerFiles files).1,
      (p.registerFile file).2 ++ ((p.registerFile file).1.registerFiles files).2)

theorem tallies_registerFiles (p : Package) (files : List SourceFile) :
    p.Tallies (p.registerFiles files).1 (p.registerFiles files).2 := by
  induction files generalizing p with
  | nil => exact .nil rfl
  | cons file files ih => exact (tallies_registerFile p file).append (ih _)

/-- Nothing happens where all files are registered. -/
theorem registerFiles_of_registered {files : List SourceFile} (h : ∀ file ∈ files, file.path ∈ p.registered) :
    p.registerFiles files = (p, []) := by
  induction files with
  | nil => rfl
  | cons file files ih =>
    obtain ⟨hfile, hfiles⟩ := List.forall_mem_cons.mp h
    simp only [registerFiles, registerFile_of_mem hfile, ih hfiles, List.append_nil]

theorem registerFiles_files (p : Package) (files : List SourceFile) : (p.registerFiles files).1.files = p.files := by
  induction files generalizing p with
  | nil => rfl
  | cons file files ih => exact (ih _).trans (p.registerFile_frame file).2

theorem registered_registerFile (p : Package) (file : SourceFile) :
    file.path ∈ (p.registerFile file).1.registered ∧ p.registered ⊆ (p.registerFile file).1.registered := by
  by_cases hfile : file.path ∈ p.registered
  · rw [registerFile_of_mem hfile]
    exact ⟨hfile, List.Subset.refl _⟩
  · rw [registerFile_of_new hfile]
    exact ⟨List.mem_cons_self, List.subset_cons_self _ _⟩

/-- Afterwards the files are registered, and those that were before still are. -/
theorem registered_registerFiles (p : Package) (files : List SourceFile) :
    (∀ file ∈ files, file.path ∈ (p.registerFiles files).1.registered) ∧
      p.registered ⊆ (p.registerFiles files).1.registered := by
  induction files generalizing p with
  | nil => exact ⟨nofun, List.Subset.refl _⟩
  | cons file files ih =>
    obtain ⟨hfile, hold⟩ := registered_registerFile p file
    obtain ⟨hfiles, hstay⟩ := ih (p.registerFile file).1
    exact ⟨List.forall_mem_cons.mpr ⟨hstay hfile, hfiles⟩, List.Subset.trans hold hstay⟩

/-- The package with all its files registered, after they were located with so many include directories. -/
def enter (p : Package) (count : Nat) : Package :=
  { (p.registerFiles p.files.values).1 with locatedWith := some count }

theorem enter_files (p : Package) (count : Nat) : (p.enter count).files = p.files := p.registerFiles_files _

end Package

end QiIdl
