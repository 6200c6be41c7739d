import QiIdl.Proofs.Package.Ends
import QiIdl.Proofs.Package.Step

/-!
# Reading a file

A file comes in if the disk offers it: its text is there and has no faults, and it has one package statement, which
the directories that hold it spell. Whether it comes in and what it is depends on the disk alone; what the manager
then is depends on what was there before, and `ends_readSource` and `ends_fileAt` say all of it. What other modules
need to know about reading follows from these two.
-/

namespace QiIdl

/-- A file as the disk has it, below the root of its package. -/
structure Disk.Offers (disk : Disk) (f : SourceFile) (root : Path) : Prop where
  read : disk.read f.path = .ok f.source
  parsed : parseSource f.source f.path.text = .ok f.ast
  declared : ∃ location, Managed.packageStatements f.ast = [(f.package, location)]
  directories : f.path.dropLast = root ++ Path.ofPackage f.package

namespace Manager

/-- The manager after a new file below a root was read. -/
def accept (m : Manager) (root : Path) (f : SourceFile) : Manager :=
  ({ m with reads := m.reads + 1 }.addInclude (.known root)).addFile f

/-- A file does not fit its package, and this is reported. -/
inductive Misfits (m : Manager) : PackageError → Manager → Prop where
  | intro {p : Problem} (location : Location) : (∀ name previous, p ≠ .alreadyExported name previous) →
      Misfits m (.structural p location) (m.report (p.diagnostic location))

/-- A file does not come in: its text is not there or is faulty, or it does not fit its package. -/
inductive Rejects (m : Manager) : PackageError → Manager → Prop where
  | unread (path : String) (e : DiskError) : Rejects m (.disk path e) m
  | faulty (path source : String) (faults : List Fault) :
      Rejects m (.faults path source faults) { m with reads := m.reads + 1 }
  | misplaced {e : PackageError} {m' : Manager} : { m with reads := m.reads + 1 }.Misfits e m' → Rejects m e m'

/-- The file of a path is got: it is known, or else it is read. -/
inductive Gets (disk : Disk) (m : Manager) (path : Path) : SourceFile → Manager → Prop where
  | known {f : SourceFile} : m.files.find? path = some f → Gets disk m path f m
  | new {f : SourceFile} {root : Path} : m.files.find? path = none → f.path = path → disk.Offers f root →
      Gets disk m path f (m.accept root f)

theorem accept_files (m : Manager) (root : Path) (f : SourceFile) :
    (m.accept root f).files = m.files.insert f.path f := by
  rw [accept, addFile_files, addInclude_files]

theorem Gets.find? {disk : Disk} {m m' : Manager} {path : Path} {f : SourceFile} (h : m.Gets disk path f m') :
    m'.files.find? path = some f := by
  cases h with
  | known hf => exact hf
  | new _ hpath _ =>
    rw [← hpath, accept_files]
    exact Table.find?_insert_self

end Manager

open Manager

variable {disk : Disk}

theorem exists_filter_eq_singleton {β γ : Type} {f : β → Option γ} {p : β → Bool} {xs : List β} {c : γ}
    (h : xs.filterMap f = [c]) (hp : ∀ b, p b = (f b).isSome) : ∃ b, xs.filter p = [b] ∧ f b = some c := by
  induction xs with
  | nil => cases h
  | cons b xs ih =>
    cases hb : f b with
    | none =>
      rw [List.filterMap_cons_none hb] at h
      rw [List.filter_cons_of_neg (by simp [hp, hb])]
      exact ih h
    | some c' =>
      rw [List.filterMap_cons_some hb, List.cons.injEq] at h
      have hrest : xs.filter p = [] := by
        rw [List.filter_eq_nil_iff]
        intro b' hb'
        simp [hp, List.filterMap_eq_nil_iff.mp h.2 b' hb']
      rw [List.filter_cons_of_pos (by simp [hp, hb]), hrest]
      exact ⟨b, rfl, h.1 ▸ hb⟩

/-- A file that has one package statement has one node of that sort at its top. -/
theorem Disk.Offers.filter_sort {f : SourceFile} {root : Path} (h : disk.Offers f root) :
    ∃ tag, f.ast.roots.filter (fun n => n.sort == .package) = [.package tag f.package] := by
  obtain ⟨location, hstatements⟩ := h.declared
  obtain ⟨n, hfilter, hn⟩ := exists_filter_eq_singleton (p := fun n => n.sort == .package) hstatements fun n => by
    cases n with
    | literal l => cases l <;> rfl
    | expr e => cases e <;> rfl
    | type t => cases t <;> rfl
    | object o => cases o <;> rfl
    | _ => rfl
  cases n with
  | package tag name =>
    cases hn
    exact ⟨tag, hfilter⟩
  | _ => cases hn

theorem Disk.Offers.placed {f : SourceFile} {root : Path} (h : disk.Offers f root) (hdisk : disk.root.WellNamed) :
    f.Placed root :=
  ⟨disk.isCanonical_of_read hdisk h.read, h.parsed, h.filter_sort, h.directories⟩

namespace Managed

variable {m : Manager} {path : Path}

/-- Taking the segments off the directories leaves what stands before them. -/
theorem dropDirectories_eq_ok_iff {segments directories rest : Path} :
    dropDirectories segments directories = .ok rest ↔ directories = segments ++ rest := by
  induction segments generalizing directories with
  | nil => simp [dropDirectories]
  | cons segment segments ih =>
    cases directories with
    | nil => simp [dropDirectories]
    | cons directory directories =>
      rw [dropDirectories, List.cons_append, List.cons.injEq]
      split
      · next heq => simp [heq, ih]
      · next hne => simp [Ne.symm hne]

theorem ends_declaredPackage {ast : Ast} :
    Ends (declaredPackage ast) m (fun declared m' => m' = m ∧ packageStatements ast = [declared])
      (fun e m' => m.Misfits e m' ∧ ∀ declared, packageStatements ast ≠ [declared]) := by
  unfold declaredPackage
  split
  · next hnone => exact .of_error rfl ⟨.intro _ nofun, by simp [hnone]⟩
  · next hone => exact .pure ⟨rfl, hone⟩
  · next hmany => exact .of_error rfl ⟨.intro _ nofun, by simp [hmany]⟩

theorem ends_packageRoot {package : String} {location : Location} :
    Ends (packageRoot path package location) m
      (fun root m' => m' = m ∧ path.dropLast = root ++ Path.ofPackage package)
      (fun e m' => m.Misfits e m' ∧ ∀ root, path.dropLast ≠ root ++ Path.ofPackage package) := by
  unfold packageRoot
  split
  · next directories hroot =>
    have hdirectories := congrArg List.reverse (dropDirectories_eq_ok_iff.mp hroot)
    exact .pure ⟨rfl, by simpa using hdirectories⟩
  · next directory hfails =>
    refine .of_error rfl ⟨.intro _ nofun, ?_⟩
    intro root hdirectories
    rw [hdirectories, List.reverse_append, dropDirectories_eq_ok_iff.mpr rfl] at hfails
    cases hfails

/-- A file of a path comes in as the disk has it, or it does not come in, and the disk does not have it. -/
theorem ends_readSource : Ends (readSource disk path) m
    (fun f m' => f.path = path ∧ ∃ root, disk.Offers f root ∧ m' = m.accept root f)
    (fun e m' => m.Rejects e m' ∧ ∀ f root, f.path = path → ¬disk.Offers f root) := by
  unfold readSource
  cases hread : disk.read path with
  | error e =>
    refine .of_error rfl ⟨.unread _ _, ?_⟩
    rintro f root rfl hoffers
    cases hread.symm.trans hoffers.read
  | ok source =>
    refine .bind (.pure (Q := fun text m' => text = source ∧ m' = m) ⟨rfl, rfl⟩) ?_
    rintro source m ⟨rfl, rfl⟩
    refine .modify_bind ?_
    -- what is offered at the path has the tree that is read here
    have hparsed : ∀ f root, f.path = path → disk.Offers f root → parseSource source path.text = .ok f.ast := by
      rintro f root rfl hoffers
      cases hread.symm.trans hoffers.read
      exact hoffers.parsed
    split
    · next faults hfaults =>
      refine .throw ⟨.faulty _ _ _, fun f root hpath hoffers => ?_⟩
      cases hfaults.symm.trans (hparsed f root hpath hoffers)
    · next ast hast =>
      have htree : ∀ f root, f.path = path → disk.Offers f root → f.ast = ast := fun f root hpath hoffers =>
        (Except.ok.inj (hast.symm.trans (hparsed f root hpath hoffers))).symm
      refine .bind (ends_declaredPackage.mono (fun _ _ h => h) ?_) ?_
      · rintro e m' ⟨hmisfits, hnot⟩
        refine ⟨.misplaced hmisfits, fun f root hpath hoffers => ?_⟩
        obtain ⟨location, hdeclared⟩ := hoffers.declared
        exact hnot _ (htree f root hpath hoffers ▸ hdeclared)
      · rintro ⟨package, location⟩ _ ⟨rfl, hdeclared⟩
        refine .bind (ends_packageRoot.mono (fun _ _ h => h) ?_) ?_
        · rintro e m' ⟨hmisfits, hnot⟩
          refine ⟨.misplaced hmisfits, fun f root hpath hoffers => ?_⟩
          obtain ⟨other, hother⟩ := hoffers.declared
          rw [htree f root hpath hoffers, hdeclared] at hother
          cases hother
          exact hnot root (hpath ▸ hoffers.directories)
        · rintro root _ ⟨rfl, hdirectories⟩
          exact .of_ok rfl ⟨rfl, root, ⟨hread, hast, ⟨location, hdeclared⟩, hdirectories⟩, rfl⟩

theorem ends_fileAt : Ends (fileAt disk path) m (m.Gets disk path)
    (fun e m' => m.Rejects e m' ∧ m.files.find? path = none ∧ ∀ f root, f.path = path → ¬disk.Offers f root) := by
  unfold fileAt
  refine .get_bind ?_
  split
  · next f hf => exact .pure (.known hf)
  · next hnew =>
    refine ends_readSource.mono ?_ fun e m' h => ⟨h.1, hnew, h.2⟩
    rintro f m' ⟨hpath, root, hoffers, rfl⟩
    exact .new hnew hpath hoffers

theorem ends_ofDisk {β : Type} {spelled : String} {x : Except DiskError β} :
    Ends (ofDisk spelled x) m (fun b m' => m' = m ∧ x = .ok b) m.Rejects := by
  cases x with
  | ok b => exact .pure ⟨rfl, rfl⟩
  | error e => exact .throw (.unread spelled e)

theorem ends_parseFile {spelled : String} : Ends (parseFile disk spelled) m
    (fun f m' => ∃ path, disk.resolve spelled = .ok path ∧ m.Gets disk path f m') m.Rejects := by
  refine .bind ends_ofDisk ?_
  rintro path m ⟨rfl, hpath⟩
  exact ends_fileAt.mono (fun _ _ h => ⟨path, hpath, h⟩) fun _ _ h => h.1

theorem ends_parseFound : Ends (parseFound disk path) m
    (fun f m' => ∃ key, disk.follow [] path = .ok key ∧ m.Gets disk key f m') m.Rejects := by
  refine .bind ends_ofDisk ?_
  rintro key m ⟨rfl, hkey⟩
  exact ends_fileAt.mono (fun _ _ h => ⟨key, hkey, h⟩) fun _ _ h => h.1

end Managed
end QiIdl
