import QiIdl.Proofs.Package.Causes
import QiIdl.Proofs.Package.Resolution

/-!
# No reference is left out

A package that resolves without an error has an answer for every reference of every file that it had to begin with,
and of those that came in meanwhile (`isResolved_of_resolvePackage`). An answer may be exchanged for another later on
but does not go away, so several packages can be resolved one after the other (`isResolved_of_forM`).
-/

namespace QiIdl

open Managed

namespace Manager

variable {disk : Disk} {m m' : Manager} {f : SourceFile} {path : Path} {id : Nat}

/-- Every reference of a file has an answer. -/
def IsResolved (m : Manager) (f : SourceFile) : Prop :=
  ∀ node ∈ f.ast.customTypes, (m.resolution? f.path node.tag.id).isSome = true

theorem Move.isSome_resolution? {o : Option PackageError} (h : Move disk m o m')
    (hsome : (m.resolution? path id).isSome = true) : (m'.resolution? path id).isSome = true := by
  rcases h.resolutions_eq with hsame | ⟨other, number, r, rfl⟩
  · rw [resolution?, hsame]
    exact hsome
  · rw [resolution?_keep]
    split
    · rfl
    · exact hsome

theorem Moves.isSome_resolution? {errors : List PackageError} (h : Moves disk m errors m')
    (hsome : (m.resolution? path id).isSome = true) : (m'.resolution? path id).isSome = true := by
  induction h with
  | done m => exact hsome
  | step hmove _ ih => exact ih (hmove.isSome_resolution? hsome)

/-- Where no reference fails, each of them has an answer. -/
theorem isSome_of_failures {package : String} {refs : List (SourceFile × Node Mark)}
    (h : failures disk package refs m = .ok [] m') :
    ∀ ref ∈ refs, (m'.resolution? ref.1.path ref.2.tag.id).isSome = true := by
  induction refs generalizing m with
  | nil => exact nofun
  | cons ref refs ih =>
    obtain ⟨r, m₁, hfirst, hrest⟩ := failures_cons_eq_nil.mp h
    obtain ⟨m₀, -, rfl⟩ := resolveReference_eq_ok.mp hfirst
    intro other hother
    rcases List.mem_cons.mp hother with rfl | hother
    · -- the answer is kept first, and the other references do not take it away
      have hmoves := moves_failures.ok _ _ hrest
      apply hmoves.isSome_resolution?
      rw [resolution?_keep, if_pos ⟨rfl, rfl⟩]
      rfl
    · exact ih hrest other hother

theorem isResolved_of_resolvePackage {name : String} (hdisk : disk.root.WellNamed)
    (h : resolvePackage disk name m = .ok () m') : ∀ f ∈ m.packageFiles name, m'.IsResolved f := by
  obtain ⟨refs, m₁, hprepare, hfailures⟩ := resolvePackage_eq_ok.mp h
  have hruns : Runs (fun _ _ => True) (prepare disk name) m _ := runs_prepare hdisk
  obtain ⟨hsteps, rfl⟩ := hruns.ok _ _ hprepare
  intro f hf node hnode
  -- files only come in while the package is prepared, so this one is still there when its references are collected
  have href : (f, node) ∈ references (m₁.packageFiles name) :=
    List.mem_flatMap.mpr ⟨f, hsteps.mem_packageFiles hf, List.mem_map_of_mem hnode⟩
  exact isSome_of_failures hfailures (f, node) href

/-- Where some packages are resolved one after the other, every file that one of them had to begin with has all its
answers in the end. -/
theorem isResolved_of_forM {names : List String} (hdisk : disk.root.WellNamed) (hm : m.Named)
    (h : names.forM (fun name => analyse disk (some name)) m = .ok () m') :
    Moves disk m [] m' ∧ ∀ name ∈ names, ∀ f ∈ m.packageFiles name, m'.IsResolved f := by
  induction names generalizing m with
  | nil =>
    cases h
    exact ⟨.done _, nofun⟩
  | cons name names ih =>
    obtain ⟨_, m₁, hfirst, hrest⟩ := bind_eq_ok.mp h
    have hruns : Runs (fun _ _ => True) (resolvePackage disk name) m _ := runs_resolvePackage hdisk hm
    have hsteps := (hruns.ok _ _ hfirst).1
    have hmoves := moves_errorsIn.ok _ _ (ends_resolvePackage.ok () m₁ hfirst)
    obtain ⟨hmoves', hothers⟩ := ih (hsteps.named hm) hrest
    refine ⟨hmoves.trans hmoves', ?_⟩
    intro other hother f hf
    rcases List.mem_cons.mp hother with rfl | hother
    · intro node hnode
      -- resolving the other packages does not take an answer away
      exact hmoves'.isSome_resolution? (isResolved_of_resolvePackage hdisk hfirst f hf node hnode)
    · exact hothers other hother f (hsteps.mem_packageFiles hf)

end Manager
end QiIdl
