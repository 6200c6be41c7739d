import QiIdl.Proofs.Package.Causes
import QiIdl.Proofs.Package.Coherent

/-!
# Which errors are reported

An error that a manager ends in is about reading a file (`PackageError.isRead`), or it is one that the manager
reports before it ends in it. A package that exports a name twice never loads, and is an error each time; its report
was made when the second export was registered, and is still there (`Flagged`).

An operation that goes on after errors ends in their number. That number is no error about reading, but the errors
that were counted can all be: then it is not explained by any report.
-/

namespace QiIdl

open Managed

namespace Manager

variable {disk : Disk} {m m' : Manager} {o : Option PackageError} {errors : List PackageError}

/-- Wherever a name is exported twice, there is an error among the reports. -/
def Flagged (m : Manager) : Prop :=
  ∀ name p, m.packages.find? name = some p → 0 < p.duplicates → m.hasError = true

theorem flagged_empty : empty.Flagged := nofun

/-- Flags are about packages and reports. -/
theorem Flagged.congr (hm : m.Flagged) (hpackages : m'.packages = m.packages) (herror : m'.hasError = m.hasError) :
    m'.Flagged := by
  intro name p hp
  rw [hpackages] at hp
  rw [herror]
  exact hm name p hp

theorem clash?_eq_some {name : String} {e : PackageError} (h : m.clash? name = some e) :
    ∃ p, m.packages.find? name = some p ∧ 0 < p.duplicates ∧ e = .failed name p.duplicates := by
  unfold clash? at h
  split at h
  · next count hcount =>
    obtain ⟨p, hp, hdup⟩ := Option.map_eq_some_iff.mp hcount
    exact ⟨p, hp, by rw [hdup]; exact Nat.succ_pos _, by rw [hdup]; exact (Option.some.inj h).symm⟩
  · cases h

theorem clash?_of_pos {name : String} {p : Package} (hp : m.packages.find? name = some p) (h : 0 < p.duplicates) :
    m.clash? name = some (.failed name p.duplicates) := by
  obtain ⟨count, hcount⟩ := Nat.exists_eq_succ_of_ne_zero (Nat.ne_of_gt h)
  simp [clash?, hp, hcount]

theorem hasError_report {d : Diagnostic} (hd : d.isError = true) (m : Manager) : (m.report d).hasError = true := by
  simp [report, hasError, hd]

/-! ## One move -/

/-- A package that is entered is flagged, and brings a report exactly if it comes to export a name twice. -/
theorem Flagged.entered {name : String} {p : Package} (hm : m.Flagged) (hp : m.packages.find? name = some p)
    (count : Nat) :
    (m.entered name count).Flagged ∧
      ((m.entered name count).hasError = true ↔ m.hasError = true ∨ 0 < (p.enter count).duplicates) := by
  obtain ⟨hcount, hreports⟩ := p.tallies_registerFiles p.files.values
  have hdup : (p.enter count).duplicates = p.duplicates + (p.registerFiles p.files.values).2.length := hcount
  have herror : (m.entered name count).hasError = true ↔
      m.hasError = true ∨ (p.registerFiles p.files.values).2 ≠ [] := by
    rw [entered_eq hp]
    simp only [hasError, List.any_append, Bool.or_eq_true, List.any_eq_true]
    refine or_congr_right ⟨fun ⟨d, hd, _⟩ => List.ne_nil_of_mem hd, fun h => ?_⟩
    obtain ⟨d, hd⟩ := List.exists_mem_of_ne_nil _ h
    exact ⟨d, hd, hreports d hd⟩
  have hiff : (m.entered name count).hasError = true ↔ m.hasError = true ∨ 0 < (p.enter count).duplicates := by
    rw [herror, hdup, Nat.add_pos_iff_pos_or_pos, List.length_pos_iff]
    -- names that were taken before were reported before
    exact ⟨fun h => h.imp_right .inr, fun h => h.elim .inl fun h => h.imp_left (hm name p hp)⟩
  refine ⟨?_, hiff⟩
  intro other q hq hpos
  rw [entered_eq hp, Table.find?_insert] at hq
  split at hq
  · cases hq
    exact hiff.mpr (.inr hpos)
  · exact hiff.mpr (.inl (hm other q hq hpos))

theorem Flagged.addFile (hm : m.Flagged) (f : SourceFile) : (m.addFile f).Flagged := by
  intro name p hp
  rw [addFile_eq, Table.find?_insert] at hp
  split at hp
  · cases hp
    rw [Package.addFile_duplicates]
    exact homeOf_of_forall (P := fun p => 0 < p.duplicates → m.hasError = true) f (hm f.package) nofun
  · exact hm name p hp

/-- After a move there is an error among the reports if there was one, or if the move ends in an error that is not
about reading. -/
theorem Move.flagged (h : Move disk m o m') (hm : m.Flagged) :
    m'.Flagged ∧ (m'.hasError = true ↔ m.hasError = true ∨ ∃ e ∈ o, e.isRead = false) := by
  cases h with
  | addInclude i =>
    have herror : (m.addInclude i).hasError = m.hasError := by simp [hasError]
    exact ⟨hm.congr (addInclude_packages i) herror, by simp [herror]⟩
  | read hread =>
    obtain ⟨root, -⟩ := hread
    have herror : ({ m with reads := m.reads + 1 }.addInclude (.known root)).hasError = m.hasError := by
      simp [hasError]
    have hflagged : ({ m with reads := m.reads + 1 }.addInclude (.known root)).Flagged := hm.congr (by simp) herror
    refine ⟨hflagged.addFile _, ?_⟩
    rw [← herror]
    simp [hasError, Manager.addFile]
  | refuse hrefuses =>
    cases hrefuses with
    | unread reads he => exact ⟨hm.congr rfl rfl, by simp [hasError, he]⟩
    | reported reads he hd =>
      have herror := hasError_report hd { m with reads := reads }
      exact ⟨fun _ _ _ _ => herror, by simp [herror, he]⟩
  | locate _ => exact ⟨hm.congr rfl rfl, by simp [hasError]⟩
  | @enter name count paths _ _ hfiles =>
    obtain ⟨p, hp, -⟩ := exists_package hfiles
    obtain ⟨hflagged, herror⟩ := hm.entered hp count
    refine ⟨hflagged, herror.trans (or_congr_right ?_)⟩
    have hfound : (m.entered name count).packages.find? name = some (p.enter count) := by
      rw [entered_eq hp]
      exact Table.find?_insert_self
    constructor
    · exact fun hpos => ⟨_, clash?_of_pos hfound hpos, rfl⟩
    · rintro ⟨e, he, -⟩
      obtain ⟨q, hq, hpos, -⟩ := clash?_eq_some he
      cases hfound.symm.trans hq
      exact hpos
  | clash name =>
    refine ⟨hm, ⟨.inl, fun h => h.elim id ?_⟩⟩
    rintro ⟨e, he, -⟩
    obtain ⟨p, hp, hpos, -⟩ := clash?_eq_some he
    exact hm name p hp hpos
  | keep path id r => exact ⟨hm.congr rfl rfl, by simp [hasError, Manager.keep]⟩

/-! ## Runs -/

theorem Moves.flagged (h : Moves disk m errors m') (hm : m.Flagged) :
    m'.Flagged ∧ (m'.hasError = true ↔ m.hasError = true ∨ ∃ e ∈ errors, e.isRead = false) := by
  induction h with
  | done m => exact ⟨hm, by simp⟩
  | @step m m₁ m' o errors hmove _ ih =>
    obtain ⟨hflagged, hfirst⟩ := hmove.flagged hm
    obtain ⟨hflagged', hrest⟩ := ih hflagged
    refine ⟨hflagged', ?_⟩
    rw [hrest, hfirst]
    simp only [List.mem_append, Option.mem_toList, Option.mem_def, or_and_right, exists_or, or_assoc]

theorem Leads.flagged {allowed : Manager → Operation → Prop} (h : Leads allowed empty m) : m.Flagged := by
  induction h with
  | refl => exact flagged_empty
  | step disk op _ _ _ ih =>
    obtain ⟨errors, hmoves⟩ := op.moves_after
    exact (hmoves.flagged ih).1

/-- Where an operation fails, there is an error among the reports exactly if there was one before or an error was
met on the way that is not about reading a file. So the error itself is explained by a report, unless it is about
reading, or it is the number of errors in a package and they are all about reading. -/
theorem failure_reported_unless_read {allowed : Manager → Operation → Prop} {op : Operation} {e : PackageError}
    (h : Leads allowed empty m) (hrun : op.run disk m = .error e m') :
    ∃ causes, op.causes disk m = .ok causes m' ∧ e.Accounts causes ∧ (op.goesOn = false → causes = [e]) ∧
      (m'.hasError = true ↔ m.hasError = true ∨ ∃ cause ∈ causes, cause.isRead = false) ∧
      (e.isRead = false → m'.hasError = true ∨
        op.goesOn = true ∧ (∃ package count, e = .failed package count) ∧ ∀ cause ∈ causes, cause.isRead = true) := by
  obtain ⟨causes, hcauses, haccounts, hone⟩ := op.ends_run.error e m' hrun
  obtain ⟨-, hiff⟩ := (op.moves_causes.ok causes m' hcauses).flagged h.flagged
  refine ⟨causes, hcauses, haccounts, hone, hiff, fun he => ?_⟩
  by_cases hcause : ∃ cause ∈ causes, cause.isRead = false
  · exact .inl (hiff.mpr (.inr hcause))
  · have hread : ∀ cause ∈ causes, cause.isRead = true := by simpa using hcause
    -- the error itself is not about reading, so it is none of those that were met
    have hother : e ∉ causes := fun hmem => by simp [hread e hmem] at he
    obtain ⟨own, hpart, -, rfl | ⟨package, heq⟩⟩ := haccounts
    · exact absurd (hpart.subset List.mem_cons_self) hother
    · refine .inr ⟨?_, ⟨package, _, heq⟩, hread⟩
      cases hgoes : op.goesOn with
      | true => rfl
      | false =>
        rw [hone hgoes] at hother
        exact absurd List.mem_cons_self hother

end Manager

/-- A disk with two packages: one uses a type of the other, which cannot be read. -/
def Disk.unreadable : Disk :=
  ⟨.directory [
    ("a", .directory [("x.qi", .file (some "package a\nstruct S\n  f b.T\nend\n"))]),
    ("b", .directory [("y.qi", .file (some "package b\nstruct\n"))])], []⟩

theorem Disk.wellNamed_unreadable : Disk.unreadable.root.WellNamed := by
  simp [Disk.unreadable]

/-- A package fails to resolve, and nothing is reported. -/
theorem Manager.failure_reported_unless_read_unreadable :
    let m := (Operation.addInclude "/").after .unreadable .empty
    Leads (fun _ _ => True) .empty m ∧
      ∃ e m' causes, (Operation.resolvePackage "a").run .unreadable m = .error e m' ∧ m'.diagnostics = [] ∧
        e.isRead = false ∧ (Operation.resolvePackage "a").causes .unreadable m = .ok causes m' ∧
        e.Accounts causes ∧ ∀ cause ∈ causes, cause.isRead = true := by
  intro m
  have hleads : Leads (fun _ _ => True) .empty m := .step _ _ .refl Disk.wellNamed_unreadable trivial
  have hcheck : failsWith ((Operation.resolvePackage "a").run .unreadable) m
      (fun e m' => !e.isRead && m'.diagnostics.isEmpty) = true := by decide +kernel
  obtain ⟨e, m', hrun, htest⟩ := exists_of_failsWith hcheck
  simp only [Bool.and_eq_true, Bool.not_eq_true', List.isEmpty_iff] at htest
  obtain ⟨causes, hcauses, haccounts, -, -, hread⟩ := failure_reported_unless_read hleads hrun
  refine ⟨hleads, e, m', causes, hrun, htest.2, htest.1, hcauses, haccounts, ?_⟩
  rcases hread htest.1 with herror | ⟨-, -, hread⟩
  · simp [hasError, htest.2] at herror
  · exact hread

end QiIdl
