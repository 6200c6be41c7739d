import QiIdl.Proofs.Package.Operation

/-!
# Moves of a manager

What an operation does, it does in moves, and `Move disk m o m'` lists them: `o` is the error that the operation
ends in with this move, if it does. A move says what is on the disk, which a step does not: a package is located
by looking at the disk, and is marked only when every path where it was located has been read.

`Moves disk m errors m'` are moves one after the other, with the errors of all of them. An operation that ends in
its first error makes moves without errors before that (`moves_loadPackage`, `moves_resolveReference`).
-/

namespace QiIdl

variable {path : Path} {f : SourceFile}

/-- Whether an error is about reading a file: the disk does not give its text, or the text is faulty. -/
def PackageError.isRead : PackageError → Bool
  | .disk .. | .faults .. => true
  | _ => false

namespace Manager

/-- Whether a package is loaded for the include directories there are. -/
def loaded (m : Manager) (name : String) : Bool := (m.packages.find? name).any (·.isLoaded m.includes.length)

/-- The error of a package in which a name is exported twice. -/
def clash? (m : Manager) (name : String) : Option PackageError :=
  match (m.packages.find? name).map (·.duplicates) with
  | some (count + 1) => some (.failed name (count + 1))
  | _ => none

/-- The manager after the files of a package are registered and the package is marked. -/
def entered (name : String) (count : Nat) (m : Manager) : Manager :=
  ((m.packageFiles name).foldl (·.registerFile name) m).markLocated name count

/-- A path leads to a file that is known. -/
def Knows (disk : Disk) (m : Manager) (path : Path) : Prop :=
  ∃ key, disk.follow [] path = .ok key ∧ (m.files.find? key).isSome = true

/-- A file comes in under a path that is new. -/
inductive Read (m : Manager) : Manager → Prop where
  | file {f : SourceFile} (root : Path) : m.files.find? f.path = none →
      Read m (({ m with reads := m.reads + 1 }.addInclude (.known root)).addFile f)

/-- One file after the other comes in. -/
abbrev Reads : Manager → Manager → Prop := Relation.ReflTransGen Read

/-- A file does not come in: it cannot be read, or it is read and refused with a report. -/
inductive Refuses (m : Manager) : PackageError → Manager → Prop where
  | unread {e : PackageError} (reads : Nat) : e.isRead = true → Refuses m e { m with reads := reads }
  | reported {e : PackageError} {d : Diagnostic} (reads : Nat) : e.isRead = false → d.isError = true →
      Refuses m e ({ m with reads := reads }.report d)

/-- One of the things that operations do on a disk, with the error they end in. -/
inductive Move (disk : Disk) (m : Manager) : Option PackageError → Manager → Prop where
  | addInclude (i : Include) : Move disk m none (m.addInclude i)
  | read {m' : Manager} : Read m m' → Move disk m none m'
  | refuse {e : PackageError} {m' : Manager} : m.Refuses e m' → Move disk m (some e) m'
  | locate {name : String} : (∀ paths, m.located.find? name ≠ some (m.includes.length, paths)) → Move disk m none
      { m with located := m.located.insert name (m.includes.length, locate disk m.includes name) }
  | enter {name : String} {count : Nat} {paths : List Path} : m.located.find? name = some (count, paths) →
      (∀ path ∈ paths, m.Knows disk path) → m.packageFiles name ≠ [] →
      Move disk m ((m.entered name count).clash? name) (m.entered name count)
  | clash (name : String) : Move disk m (m.clash? name) m
  | keep (path : Path) (id : Nat) (r : Resolution) : Move disk m none (m.keep path id r)

/-- One move after the other, with the errors that operations end in on the way. -/
inductive Moves (disk : Disk) : Manager → List PackageError → Manager → Prop where
  | done (m : Manager) : Moves disk m [] m
  | step {m m₁ m' : Manager} {o : Option PackageError} {errors : List PackageError} : Move disk m o m₁ →
      Moves disk m₁ errors m' → Moves disk m (o.toList ++ errors) m'

variable {disk : Disk} {m m₁ m' : Manager} {o : Option PackageError} {errors others : List PackageError} {name : String}

theorem Moves.single (h : Move disk m o m') : Moves disk m o.toList m' := by
  simpa using Moves.step h (.done m')

theorem Moves.trans (h : Moves disk m errors m₁) (h' : Moves disk m₁ others m') : Moves disk m (errors ++ others) m' := by
  induction h with
  | done m => exact h'
  | step hmove _ ih =>
    rw [List.append_assoc]
    exact .step hmove (ih h')

theorem Reads.moves (h : Reads m m') : Moves disk m [] m' := by
  induction h with
  | refl => exact .done m
  | tail _ hread ih => exact ih.trans (.single (o := none) (.read hread))

/-! ## What reading leaves as it was -/

/-- Include directories are only added in front. -/
theorem suffix_addInclude (m : Manager) (i : Include) : m.includes <:+ (m.addInclude i).includes := by
  unfold addInclude
  split
  · exact List.suffix_rfl
  · exact List.suffix_cons _ _

@[simp] theorem addInclude_located (m : Manager) (i : Include) : (m.addInclude i).located = m.located := by
  unfold addInclude
  split <;> rfl

theorem Reads.located (h : Reads m m') : m'.located = m.located := by
  induction h with
  | refl => rfl
  | tail _ hread ih =>
    obtain ⟨root, _⟩ := hread
    rw [← ih]
    exact addInclude_located _ _

theorem Read.includes (h : Read m m') : m.includes <:+ m'.includes := by
  obtain ⟨root, _⟩ := h
  exact suffix_addInclude { m with reads := m.reads + 1 } (.known root)

theorem Read.find?_files (h : Read m m') (hf : m.files.find? path = some f) : m'.files.find? path = some f := by
  obtain ⟨root, hnew⟩ := h
  rw [addFile_files, addInclude_files]
  exact Table.find?_insert_of_find? hf hnew

theorem Reads.find?_files (h : Reads m m') (hf : m.files.find? path = some f) : m'.files.find? path = some f := by
  induction h with
  | refl => exact hf
  | tail _ hread ih => exact hread.find?_files ih

/-- A file is known. -/
def Has (m : Manager) (f : SourceFile) : Prop := ∃ path, m.files.find? path = some f

theorem Reads.has (h : Reads m m') (hf : m.Has f) : m'.Has f := by
  obtain ⟨path, hpath⟩ := hf
  exact ⟨path, h.find?_files hpath⟩

theorem Reads.resolutions (h : Reads m m') : m'.resolutions = m.resolutions := by
  induction h with
  | refl => rfl
  | tail _ hread ih =>
    obtain ⟨root, _⟩ := hread
    rw [← ih]
    exact addInclude_resolutions _

theorem Reads.knows (h : Reads m m') (hpath : m.Knows disk path) : m'.Knows disk path := by
  obtain ⟨key, hkey, hknown⟩ := hpath
  obtain ⟨f, hf⟩ := Option.isSome_iff_exists.mp hknown
  exact ⟨key, hkey, by rw [h.find?_files hf]; rfl⟩

/-! ## Entering a package -/

theorem loaded_iff :
    m.loaded name = true ↔ ∃ p, m.packages.find? name = some p ∧ p.isLoaded m.includes.length = true := by
  unfold loaded
  cases m.packages.find? name <;> simp

theorem exists_package (h : m.packageFiles name ≠ []) :
    ∃ p, m.packages.find? name = some p ∧ m.packageFiles name = p.files.values := by
  unfold packageFiles at h ⊢
  cases hp : m.packages.find? name with
  | none => simp [hp] at h
  | some p => exact ⟨p, rfl, rfl⟩

theorem markLocated_registerFiles {p : Package} (hp : m.packages.find? name = some p) (files : List SourceFile)
    (count : Nat) :
    (files.foldl (·.registerFile name) m).markLocated name count =
      { m with
        packages := m.packages.insert name { (p.registerFiles files).1 with locatedWith := some count }
        diagnostics := m.diagnostics ++ (p.registerFiles files).2 } := by
  induction files generalizing m p with
  | nil => simp [markLocated, hp, Package.registerFiles]
  | cons file files ih =>
    have hfirst : (m.registerFile name file).packages.find? name = some (p.registerFile file).1 := by
      rw [registerFile_eq hp]
      exact Table.find?_insert_self
    rw [List.foldl_cons, ih hfirst, registerFile_eq hp]
    simp only [Table.insert_insert, List.append_assoc, Package.registerFiles]

/-- Only the package changes, and the reports of its names that are taken are made. -/
theorem entered_eq {p : Package} (hp : m.packages.find? name = some p) (count : Nat) :
    m.entered name count =
      { m with
        packages := m.packages.insert name (p.enter count)
        diagnostics := m.diagnostics ++ (p.registerFiles p.files.values).2 } := by
  have hfiles : m.packageFiles name = p.files.values := by simp [packageFiles, hp]
  rw [entered, hfiles, markLocated_registerFiles hp]
  rfl

/-- A move keeps one answer, or leaves all answers as they are. -/
theorem Move.resolutions_eq (h : Move disk m o m') :
    m'.resolutions = m.resolutions ∨ ∃ path id r, m' = m.keep path id r := by
  cases h with
  | addInclude i => exact .inl (addInclude_resolutions i)
  | read hread => exact .inl (Reads.resolutions (.single hread))
  | refuse hrefuses => cases hrefuses <;> exact .inl rfl
  | locate _ => exact .inl rfl
  | enter _ _ hfiles =>
    obtain ⟨p, hp, -⟩ := exists_package hfiles
    rw [entered_eq hp]
    exact .inl rfl
  | clash name => exact .inl rfl
  | keep path id r => exact .inr ⟨path, id, r, rfl⟩

/-- It is noted where a package is, for the include directories there are. Nothing else changes, and no other note
for them. -/
structure Notes (disk : Disk) (name : String) (m m' : Manager) (paths : List Path) : Prop where
  moves : Moves disk m [] m'
  same : m' = { m with located := m'.located }
  noted : m'.located.find? name = some (m.includes.length, paths)
  stays : ∀ other found, m.located.find? other = some (m.includes.length, found) →
    m'.located.find? other = some (m.includes.length, found)

/-- The files of a package are located and read, and then the package is entered. -/
inductive Loads (disk : Disk) (name : String) (m : Manager) : Manager → Prop where
  | intro {m₁ m₂ : Manager} {paths : List Path} : m.Notes disk name m₁ paths → Reads m₁ m₂ →
      (∀ path ∈ paths, m₂.Knows disk path) → m₂.packageFiles name ≠ [] →
      Loads disk name m (m₂.entered name m.includes.length)

theorem Loads.moves (h : m.Loads disk name m') : Moves disk m (m'.clash? name).toList m' := by
  obtain ⟨hnotes, hreads, hknown, hfiles⟩ := h
  have hfound := hnotes.noted
  rw [← hreads.located] at hfound
  exact (hnotes.moves.trans hreads.moves).trans (.single (.enter hfound hknown hfiles))

end Manager

/-! ## Reading files -/

theorem Manager.Rejects.refuses {m m' : Manager} {e : PackageError} (h : m.Rejects e m') : m.Refuses e m' := by
  cases h with
  | unread => exact .unread m.reads rfl
  | faulty => exact .unread (m.reads + 1) rfl
  | misplaced hmisfits =>
    cases hmisfits
    exact .reported (m.reads + 1) rfl rfl

theorem Manager.Gets.reads {disk : Disk} {m m' : Manager} (h : m.Gets disk path f m') : Reads m m' := by
  cases h with
  | known => exact .refl
  | new hnew hpath => exact .single (.file _ (hpath ▸ hnew))

namespace Managed

open Manager

variable {β : Type} {disk : Disk} {m : Manager} {path : Path} {name : String} {location : Location}

theorem reads_parseFile {spelled : String} :
    Ends (parseFile disk spelled) m (fun f m' => Reads m m' ∧ m'.Has f) m.Refuses := by
  refine ends_parseFile.mono ?_ fun _ _ h => h.refuses
  rintro f m' ⟨path, -, hgets⟩
  exact ⟨hgets.reads, path, hgets.find?⟩

theorem reads_parseFound :
    Ends (parseFound disk path) m (fun f m' => Reads m m' ∧ m'.Knows disk path ∧ m'.Has f) m.Refuses := by
  refine ends_parseFound.mono ?_ fun _ _ h => h.refuses
  rintro f m' ⟨key, hkey, hgets⟩
  exact ⟨hgets.reads, ⟨key, hkey, by rw [hgets.find?]; rfl⟩, key, hgets.find?⟩

/-- Some files come in, and the next one does not. -/
def ReadsUntil (m : Manager) (e : PackageError) (m' : Manager) : Prop := ∃ m₁, Reads m m₁ ∧ m₁.Refuses e m'

theorem ends_forM_parseFound {paths : List Path} :
    Ends (paths.forM fun path => discard (parseFound disk path)) m
      (fun _ m' => Reads m m' ∧ ∀ path ∈ paths, m'.Knows disk path) (ReadsUntil m) := by
  induction paths generalizing m with
  | nil => exact .pure ⟨.refl, nofun⟩
  | cons path paths ih =>
    have hfirst : Ends (discard (parseFound disk path)) m (fun _ m' => Reads m m' ∧ m'.Knows disk path)
        (ReadsUntil m) :=
      (reads_parseFound.map (g := fun _ => ()) fun _ _ h => ⟨h.1, h.2.1⟩).mono (fun _ _ h => h)
        fun _ _ h => ⟨m, .refl, h⟩
    rw [List.forM]
    refine .bind hfirst ?_
    rintro _ m₁ ⟨hreads, hpath⟩
    refine (ih (m := m₁)).mono ?_ ?_
    · rintro _ m₂ ⟨hreads', hpaths⟩
      exact ⟨hreads.trans hreads', List.forall_mem_cons.mpr ⟨hreads'.knows hpath, hpaths⟩⟩
    · rintro e m₂ ⟨m₃, hreads', hrefuses⟩
      exact ⟨m₃, hreads.trans hreads', hrefuses⟩

theorem ends_parseDirectory {spelled : String} :
    Ends (parseDirectory disk spelled) m (fun files m' => Reads m m' ∧ ∀ f ∈ files, m'.Has f) (ReadsUntil m) := by
  unfold parseDirectory
  generalize disk.sources spelled = paths
  induction paths generalizing m with
  | nil =>
    rw [List.mapM_nil]
    exact .pure ⟨.refl, nofun⟩
  | cons path paths ih =>
    have hfirst : Ends (parseFound disk path) m (fun f m' => Reads m m' ∧ m'.Has f) (ReadsUntil m) :=
      reads_parseFound.mono (fun _ _ h => ⟨h.1, h.2.2⟩) fun _ _ h => ⟨m, .refl, h⟩
    rw [List.mapM_cons]
    refine .bind hfirst ?_
    rintro f m₁ ⟨hreads, hf⟩
    refine Ends.map (ih.mono (fun _ _ h => h) ?_) ?_
    · rintro e m₂ ⟨m₃, hreads', hrefuses⟩
      exact ⟨m₃, hreads.trans hreads', hrefuses⟩
    · rintro files m' ⟨hreads', hfiles⟩
      exact ⟨hreads.trans hreads', List.forall_mem_cons.mpr ⟨hreads'.has hf, hfiles⟩⟩

theorem ReadsUntil.moves {e : PackageError} {m' : Manager} (h : ReadsUntil m e m') : Moves disk m [e] m' := by
  obtain ⟨m₁, hreads, hrefuses⟩ := h
  exact hreads.moves.trans (.single (o := some e) (.refuse hrefuses))

/-! ## Loading packages -/

theorem ends_locatedFiles :
    Ends (locatedFiles disk name) m (fun paths m' => m.Notes disk name m' paths) fun _ _ => False := by
  have hsearch (hnew : ∀ paths, m.located.find? name ≠ some (m.includes.length, paths)) :
      Ends (locatedFiles.search disk name m m.includes.length) m (fun paths m' => m.Notes disk name m' paths)
        fun _ _ => False := by
    refine .of_ok rfl ⟨.single (o := none) (.locate hnew), rfl, Table.find?_insert_self, ?_⟩
    intro other found hfound
    rw [Table.find?_insert_of_ne, hfound]
    rintro rfl
    exact hnew found hfound
  unfold locatedFiles
  refine .get_bind ?_
  split
  · next count paths hfound =>
    dsimp only
    split
    · next hcount => exact .pure ⟨.done m, rfl, hcount ▸ hfound, fun _ _ h => h⟩
    · next hcount =>
      refine hsearch fun others hothers => hcount ?_
      cases hfound.symm.trans hothers
      rfl
  · next hnone => exact hsearch fun _ hothers => by simp [hnone] at hothers

/-- The last thing that loading does: a package with a name that is exported twice is refused. -/
theorem ends_refuseClash {Q : Unit → Manager → Prop} {E : PackageError → Manager → Prop}
    (hnone : m.clash? name = none → Q () m) (hsome : ∀ e, m.clash? name = some e → E e m) :
    Ends (do
      match ((← get).packages.find? name).map (·.duplicates) with
      | some (count + 1) => throw (PackageError.failed name (count + 1))
      | _ => pure () : Managed Unit) m Q E := by
  refine .get_bind ?_
  unfold clash? at hnone hsome
  split
  · next count hcount => exact .throw (hsome _ (by rw [hcount]))
  · next hcount =>
    refine .pure (hnone ?_)
    split
    · next count heq => exact absurd heq (hcount count)
    · rfl

theorem ends_readPackage :
    Ends (readPackage disk name location) m (fun _ m' => m.Loads disk name m') fun e m' => Moves disk m [e] m' := by
  unfold readPackage
  refine .get_bind ?_
  refine .bind (ends_locatedFiles.mono (fun _ _ h => h) fun _ _ h => h.elim) ?_
  intro paths m₁ hnotes
  refine .bind (ends_forM_parseFound.mono (fun _ _ h => h) fun _ _ h => hnotes.moves.trans h.moves) ?_
  rintro _ m₂ ⟨hreads, hknown⟩
  refine .get_bind ?_
  dsimp only
  split
  · have hrefuses : m₂.Refuses (.notFound name) (m₂.report ((Problem.packageNotFound name).diagnostic location)) :=
      .reported m₂.reads rfl rfl
    refine .modify_bind (.bind (.throw (Q := fun _ _ => False) ?_) fun _ _ h => h.elim)
    exact (hnotes.moves.trans hreads.moves).trans (.single (o := some _) (.refuse hrefuses))
  · next hfiles => exact .of_ok rfl (.intro hnotes hreads hknown (by simpa using hfiles))

/-- A package that is loaded is left as it is, and one that is not is loaded. Either has no name twice. -/
theorem ends_loadPackage :
    Ends (loadPackage disk name location) m
      (fun _ m' => m'.clash? name = none ∧
        (m.loaded name = true ∧ m' = m ∨ m.loaded name = false ∧ m.Loads disk name m'))
      fun e m' => Moves disk m [e] m' ∧ (m.loaded name = true → m.clash? name = some e) := by
  unfold loadPackage isLoaded
  refine .bind (Q := fun loaded m' => m' = m ∧ loaded = m.loaded name) (.get_bind (.pure ⟨rfl, rfl⟩)) ?_
  rintro loaded m ⟨rfl, rfl⟩
  cases hloaded : m.loaded name with
  | true =>
    refine ends_refuseClash (fun hnone => ⟨hnone, .inl ⟨rfl, rfl⟩⟩) fun e he => ⟨?_, fun _ => he⟩
    rw [← Option.toList_some, ← he]
    exact .single (.clash name)
  | false =>
    refine .bind (ends_readPackage.mono (fun _ _ h => h) fun _ _ h => ⟨h, nofun⟩) ?_
    intro _ m' hloads
    refine ends_refuseClash (fun hnone => ⟨hnone, .inr ⟨rfl, hloads⟩⟩) fun e he => ⟨?_, nofun⟩
    rw [← Option.toList_some, ← he]
    exact hloads.moves

/-- An operation makes moves without errors, up to the one that it may end in. -/
abbrev MovesBy (disk : Disk) (op : Managed β) (m : Manager) : Prop :=
  Ends op m (fun _ m' => Moves disk m [] m') fun e m' => Moves disk m [e] m'

protected theorem MovesBy.bind {op : Managed β} {f : β → Managed γ} (hop : MovesBy disk op m)
    (hf : ∀ b m', MovesBy disk (f b) m') : MovesBy disk (op >>= f) m :=
  Ends.bind hop fun b m' h => (hf b m').mono (fun _ _ h' => h.trans h') fun _ _ h' => h.trans h'

theorem moves_loadPackage : MovesBy disk (loadPackage disk name location) m := by
  refine ends_loadPackage.mono ?_ fun _ _ h => h.1
  rintro _ m' ⟨hnone, ⟨-, rfl⟩ | ⟨-, hloads⟩⟩
  · exact .done m'
  · have hmoves := hloads.moves
    rwa [hnone] at hmoves

theorem moves_parse {input : String} : MovesBy disk (parse disk input) m := by
  unfold parse
  split
  · exact (reads_parseFile.map (g := fun file => [file]) fun _ _ h => h.1.moves).mono (fun _ _ h => h)
      fun _ _ h => .single (o := some _) (.refuse h)
  · split
    · exact ends_parseDirectory.mono (fun _ _ h => h.1.moves) fun _ _ h => h.moves
    · exact .bind moves_loadPackage fun _ m' => .get_bind (.pure (.done m'))

/-! ## Resolving references -/

theorem lookups_moves (disk : Disk) : Lookups disk (fun _ _ => True) fun _ op m => MovesBy disk op m where
  pure _ m := .pure (.done m)
  unresolved _ m hd := .of_error rfl (.single (o := some _) (.refuse (.reported m.reads rfl hd)))
  map _ hop := hop.map fun _ _ h => h
  load _ _ hrest := .bind moves_loadPackage fun _ m' => hrest m' trivial fun _ _ => trivial
  find _ _ _ hrest := .get_bind (hrest _ fun _ _ => trivial)

theorem moves_resolveReference {file : SourceFile} {package : String} {node : Node Mark} :
    MovesBy disk (resolveReference disk file package node) m :=
  .bind ((lookups_moves disk).resolveWithin aliasLimit file package node m trivial) fun _ _ =>
    .modify_bind (.pure (.single (o := none) (.keep _ _ _)))

end Managed
end QiIdl
