import QiIdl.Proofs.Cpp.Supported
import QiIdl.Proofs.Package.Complete

/-!
# Compiling

What the compiler does before it makes output leads in steps from a manager that knows nothing, so all that steps keep
holds of the one it ends with. The files that output is made for are known to it, and each is a file of one of the
packages that were resolved (`isResolved_of_loadAll`). So no output meets a reference without an answer.
-/

namespace QiIdl

open Manager Managed

variable {disk : Disk} {backend : Backend} {includes inputs : List String} {files : List SourceFile} {m m' : Manager}
  {asked : SourceFile → Node Mark → Prop}

/-! ## The files of inputs -/

/-- The files of a coherent manager are those of its packages. -/
theorem Manager.Coherent.has_of_mem {name : String} {f : SourceFile} (hm : m.Coherent) (hf : f ∈ m.packageFiles name) :
    m.Has f := by
  obtain ⟨p, hp, hf⟩ := mem_packageFiles.mp hf
  exact ⟨f.path, (hm.find?_of_mem hp hf).2⟩

theorem Manager.Coherent.mem_packageFiles {f : SourceFile} (hm : m.Coherent) (hf : m.Has f) :
    f ∈ m.packageFiles f.package := by
  obtain ⟨path, hpath⟩ := hf
  have hin : m.fileIn f.package path = some f := (hm.partition _ _ _).mpr ⟨hpath, rfl⟩
  obtain ⟨p, hp, hfile⟩ := fileIn_eq_some.mp hin
  have hvalue := (hm.sorted_packageFiles _ p hp).mem_values_iff.mpr ⟨path, hfile⟩
  exact Manager.mem_packageFiles.mpr ⟨p, hp, hvalue⟩

theorem ends_parse {input : String} :
    Ends (parse disk input) m (fun parsed m' => m'.Coherent → ∀ f ∈ parsed, m'.Has f) fun _ _ => True := by
  unfold parse
  split
  · have hfile : Ends (parseFile disk input) m (fun f m' => m'.Has f) fun _ _ => True :=
      reads_parseFile.mono (fun _ _ h => h.2) fun _ _ _ => trivial
    refine hfile.map (g := fun f => [f]) ?_
    intro f m' hf _
    exact List.forall_mem_singleton.mpr hf
  · split
    · exact ends_parseDirectory.mono (fun _ _ h _ => h.2) fun _ _ _ => trivial
    · refine .bind (moves_loadPackage.mono (fun _ _ h => h) fun _ _ _ => trivial) ?_
      intro _ m' _
      -- what a package holds is known only because the manager is coherent: the answer is read off the package
      exact .get_bind (.pure fun hm f hf => hm.has_of_mem hf)

/-- A file is taken from those there were or from those that come. -/
theorem mem_of_mem_join {known parsed : List SourceFile} {f : SourceFile}
    (h : f ∈ parsed.foldl (fun known f => if known.any (·.path == f.path) then known else known ++ [f]) known) :
    f ∈ known ∨ f ∈ parsed := by
  induction parsed generalizing known with
  | nil => exact .inl h
  | cons g parsed ih =>
    rcases ih h with hknown | hparsed
    · dsimp only at hknown
      split at hknown
      · exact .inl hknown
      · rcases List.mem_append.mp hknown with hknown | hg
        · exact .inl hknown
        · exact .inr (List.mem_cons.mpr (.inl (List.mem_singleton.mp hg)))
    · exact .inr (List.mem_cons_of_mem _ hparsed)

theorem steps_includes (disk : Disk) (m : Manager) (includes : List String) :
    Steps asked m (includes.foldl (fun m i => m.addInclude (.ofText disk i)) m) := by
  induction includes generalizing m with
  | nil => exact .refl
  | cons i includes ih => exact .head (.addInclude _) (ih _)

/-- All files of the inputs are known in the end. -/
theorem steps_loadInputs {known : List SourceFile} (hdisk : disk.root.WellNamed) (hm : Steps asked empty m)
    (hknown : ∀ f ∈ known, m.Has f) (h : loadInputs disk inputs known m = .ok files m') :
    Steps asked empty m' ∧ ∀ f ∈ files, m'.Has f := by
  induction inputs generalizing m known with
  | nil =>
    cases h
    exact ⟨hm, hknown⟩
  | cons input inputs ih =>
    unfold loadInputs at h
    split at h
    · cases h
    · cases h
    · next parsed m₁ _ hparse =>
      have hsteps : Steps asked m m₁ := ((runs_parse hdisk).ok _ _ hparse).1
      have hm₁ : Steps asked empty m₁ := hm.trans hsteps
      refine ih hm₁ ?_ h
      intro f hf
      rcases mem_of_mem_join hf with hf | hf
      · obtain ⟨path, hpath⟩ := hknown f hf
        exact ⟨path, hsteps.find?_files hpath⟩
      · exact ends_parse.ok _ _ hparse (hm₁.coherent coherent_empty) f hf

/-! ## Answers for the files -/

theorem resolveInputs_eq_ok {packages : List String} (h : resolveInputs disk packages m = .ok () m') :
    packages.forM (fun name => analyse disk (some name)) m = .ok () m' := by
  unfold resolveInputs at h
  split at h
  · next hrun =>
    cases h
    exact hrun
  · cases h

/-- Where output needs answers, every reference of the files it is made for has one. -/
theorem isResolved_of_loadAll (hdisk : disk.root.WellNamed) (hneeds : backend.needsResolution = true)
    (h : loadAll disk backend includes inputs .empty = .ok files m) : ∀ f ∈ files, m.IsResolved f := by
  obtain ⟨_, m₁, hincludes, hrest⟩ := bind_eq_ok.mp h
  obtain ⟨loaded, m₂, hinputs, hresolve⟩ := bind_eq_ok.mp hrest
  cases hincludes
  rw [if_pos hneeds] at hresolve
  obtain ⟨_, m₃, hresolved, hfiles⟩ := bind_eq_ok.mp hresolve
  cases hfiles
  have hstart : Steps (fun _ _ => True) empty _ := steps_includes disk empty includes
  obtain ⟨hsteps, hknown⟩ := steps_loadInputs hdisk hstart (List.forall_mem_nil _) hinputs
  obtain ⟨-, hall⟩ := isResolved_of_forM hdisk (hsteps.named named_empty) (resolveInputs_eq_ok hresolved)
  intro f hf
  -- the package of the file is among those that are resolved, and the file is in it
  have hpackage : f.package ∈ (Table.ofEntries (files.map fun f => (f.package, ()))).keys := by
    rw [Table.mem_keys_ofEntries, List.map_map]
    exact List.mem_map_of_mem hf
  have hmem := (hsteps.coherent coherent_empty).mem_packageFiles (hknown f hf)
  exact hall f.package hpackage f hmem

/-! ## Failures -/

theorem loadInputs_ne_generation {known : List SourceFile} {e : GenError} :
    loadInputs disk inputs known m ≠ .error (.generation e) m' := by
  intro h
  induction inputs generalizing m known with
  | nil => cases h
  | cons input inputs ih =>
    unfold loadInputs at h
    split at h
    · cases h
    · cases h
    · exact ih h

/-- Before output is made, nothing fails as output does. -/
theorem loadAll_ne_generation {e : GenError} :
    loadAll disk backend includes inputs m ≠ .error (.generation e) m' := by
  intro h
  rcases bind_eq_error.mp h with hincludes | ⟨_, m₁, -, hrest⟩
  · cases hincludes
  rcases bind_eq_error.mp hrest with hinputs | ⟨loaded, m₂, -, hresolve⟩
  · exact loadInputs_ne_generation hinputs
  split at hresolve
  · rcases bind_eq_error.mp hresolve with hresolve | ⟨_, m₃, -, hpure⟩
    · unfold resolveInputs at hresolve
      split at hresolve
      · cases hresolve
      · cases hresolve
    · cases hpure
  · cases hresolve

/-- When output is made, every reference it meets has an answer: it fails only at a construct that it cannot express,
for each of the files by itself and for the compiler as a whole. -/
theorem generation_fails_only_unsupported (hdisk : disk.root.WellNamed) :
    (∀ files m, loadAll disk backend includes inputs .empty = .ok files m → ∀ f ∈ files, ∀ width reports e reports',
      generate backend m f width reports = .error e reports' →
        ∃ construct location, e = .unsupported backend construct location) ∧
    ∀ e, (compile disk backend includes inputs).result = .error (.generation e) →
      ∃ construct location, e = .unsupported backend construct location := by
  have hfile (files : List SourceFile) (m : Manager)
      (hload : loadAll disk backend includes inputs .empty = .ok files m) (f : SourceFile) (hf : f ∈ files)
      (width : Nat) : Generate.FailsIn (GenError.IsUnsupported backend) (generate backend m f width) :=
    generate_failsIn_unsupported width fun hneeds => isResolved_of_loadAll hdisk hneeds hload f hf
  constructor
  · intro files m hload f hf width
    exact hfile files m hload f hf width
  · intro e he
    unfold compile at he
    split at he
    · next hload =>
      cases he
      exact absurd hload loadAll_ne_generation
    · next files m hload =>
      have hall : Generate.FailsIn (GenError.IsUnsupported backend) (files.mapM (generate backend m · 2)) :=
        .mapM fun f hf => hfile files m hload f hf 2
      split at he
      · next hgenerate =>
        cases he
        exact hall _ _ _ hgenerate
      · cases he

/-- Whether loading went well and output could not be made. -/
def Outcome.lacksOutput (o : Outcome) : Bool :=
  match o.result with
  | .error (.generation _) => true
  | _ => false

theorem Outcome.exists_of_lacksOutput {o : Outcome} (h : o.lacksOutput = true) :
    ∃ e, o.result = .error (.generation e) := by
  unfold lacksOutput at h
  split at h
  · next e he => exact ⟨e, he⟩
  · cases h

/-- A disk where an interface names a type of another package, and a tuple of three types behind it. -/
def Disk.chart : Disk :=
  ⟨.directory [("lib", .directory [
    ("a", .directory [("x.qi", .file (some "package a\nstruct Point\nend\n"))]),
    ("b", .directory [("y.qi", .file (some
      "package b\nfrom a import *\ninterface Chart\n  fn draw(Point, (int, int, int))\nend\n"))])])], []⟩

theorem generation_fails_only_unsupported_chart :
    Disk.chart.root.WellNamed ∧
      ∃ e, (compile .chart .cppInterface ["/lib"] ["b"]).result = .error (.generation e) ∧
        ∃ construct location, e = .unsupported .cppInterface construct location := by
  have hdisk : Disk.chart.root.WellNamed := by
    simp [Disk.chart]
  have hlacks : (compile .chart .cppInterface ["/lib"] ["b"]).lacksOutput = true := by decide +kernel
  obtain ⟨e, he⟩ := Outcome.exists_of_lacksOutput hlacks
  exact ⟨hdisk, e, he, (generation_fails_only_unsupported hdisk).2 e he⟩

end QiIdl
