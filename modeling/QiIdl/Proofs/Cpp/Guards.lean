import QiIdl.Proofs.Cpp.Supported
import QiIdl.Proofs.Cpp.Unbroken

/-!
# Include guards

A guard is the package and the name of a file in capitals, with an underscore for all that is no ASCII letter or digit.
So two files have the same guard just if they are spelled alike, up to case and such characters (`guards_eq_iff`). Files
that are spelled with small ASCII letters and digits are told apart; the file `b_c` of the package `a` and the file `c` of
`a.b` are not.

The guard is around everything in a header: what is spelled alike cannot be included together.
-/

namespace QiIdl

open Text

namespace Cpp

variable {a b : Char}

/-! ## Characters -/

theorem toNat_toUpper (c : Char) :
    c.toUpper.toNat = if 97 ≤ c.toNat ∧ c.toNat ≤ 122 then c.toNat - 32 else c.toNat := by
  unfold Char.toUpper
  simp only [UInt32.le_iff_toNat_le]
  split
  · next h =>
    have hsmall : 97 ≤ c.val.toNat ∧ c.val.toNat ≤ 122 := h
    have hshift : ('A'.val - 'a'.val).toNat = 2 ^ 32 - 32 := by decide
    show (c.val + ('A'.val - 'a'.val)).toNat = if 97 ≤ c.val.toNat ∧ c.val.toNat ≤ 122 then c.val.toNat - 32 else _
    rw [if_pos hsmall, UInt32.toNat_add, hshift]
    omega
  · next h => exact (if_neg h).symm

theorem isAlphanum_iff {c : Char} : c.isAlphanum = true ↔
    48 ≤ c.toNat ∧ c.toNat ≤ 57 ∨ 65 ≤ c.toNat ∧ c.toNat ≤ 90 ∨ 97 ≤ c.toNat ∧ c.toNat ≤ 122 := by
  unfold Char.isAlphanum Char.isAlpha Char.isUpper Char.isLower Char.isDigit
  simp only [UInt32.le_iff_toNat_le, Bool.or_eq_true, Bool.and_eq_true, decide_eq_true_eq]
  show (65 ≤ c.toNat ∧ c.toNat ≤ 90 ∨ 97 ≤ c.toNat ∧ c.toNat ≤ 122) ∨ 48 ≤ c.toNat ∧ c.toNat ≤ 57 ↔ _
  omega

theorem isAlphanum_toUpper (c : Char) : c.toUpper.isAlphanum = c.isAlphanum := by
  rw [Bool.eq_iff_iff, isAlphanum_iff, isAlphanum_iff, toNat_toUpper]
  split <;> omega

/-- A small ASCII letter or a digit. -/
def isSmall (c : Char) : Bool := c.isLower || c.isDigit

theorem isSmall_iff {c : Char} : isSmall c = true ↔
    97 ≤ c.toNat ∧ c.toNat ≤ 122 ∨ 48 ≤ c.toNat ∧ c.toNat ≤ 57 := by
  unfold isSmall Char.isLower Char.isDigit
  simp only [UInt32.le_iff_toNat_le, Bool.or_eq_true, Bool.and_eq_true, decide_eq_true_eq]
  rfl

/-- The characters are the same letter in some case, or the same digit, or both are neither. -/
def Alike (a b : Char) : Prop := a.toUpper = b.toUpper ∨ a.isAlphanum = false ∧ b.isAlphanum = false

instance (a b : Char) : Decidable (Alike a b) :=
  inferInstanceAs (Decidable (a.toUpper = b.toUpper ∨ a.isAlphanum = false ∧ b.isAlphanum = false))

theorem Alike.isAlphanum_eq (h : Alike a b) : a.isAlphanum = b.isAlphanum := by
  rcases h with hupper | ⟨ha, hb⟩
  · rw [← isAlphanum_toUpper a, hupper, isAlphanum_toUpper]
  · rw [ha, hb]

theorem Alike.eq (h : Alike a b) (ha : isSmall a = true) (hb : isSmall b = true) : a = b := by
  rw [isSmall_iff] at ha hb
  rcases h with hupper | ⟨hother, -⟩
  · have hcodes := congrArg Char.toNat hupper
    rw [toNat_toUpper, toNat_toUpper] at hcodes
    apply Char.toNat_inj.mp
    split at hcodes <;> split at hcodes <;> omega
  · have hletter : a.isAlphanum = true := isAlphanum_iff.mpr (by omega)
    rw [hother] at hletter
    cases hletter

theorem guardChar_eq_iff : guardChar a = guardChar b ↔ Alike a b := by
  have hother {c : Char} (hc : c.isAlphanum = true) : c.toUpper ≠ '_' := by
    intro heq
    rw [← isAlphanum_toUpper, heq] at hc
    cases hc
  constructor
  · intro h
    unfold guardChar at h
    split at h <;> split at h
    · exact .inl h
    · exact absurd h (hother ‹_›)
    · exact absurd h.symm (hother ‹_›)
    · exact .inr ⟨Bool.eq_false_of_not_eq_true ‹_›, Bool.eq_false_of_not_eq_true ‹_›⟩
  · intro h
    rw [guardChar, guardChar, h.isAlphanum_eq]
    split
    · next hb => exact h.resolve_right fun hneither => by simp [hneither.2] at hb
    · rfl

theorem append_append_inj (front back : String) {a b : String} : front ++ a ++ back = front ++ b ++ back ↔ a = b := by
  simp only [← String.toList_inj, String.toList_append, List.append_cancel_right_eq, List.append_cancel_left_eq]

theorem map_guardChar_eq_iff {cs cs' : List Char} : cs.map guardChar = cs'.map guardChar ↔ List.Forall₂ Alike cs cs' := by
  rw [← List.forall₂_eq_eq_eq, List.forall₂_map_left_iff, List.forall₂_map_right_iff]
  simp only [guardChar_eq_iff]

theorem guardBase_eq_iff {package package' stem stem' : String} : guardBase package stem = guardBase package' stem' ↔
    List.Forall₂ Alike (package ++ "_" ++ stem).toList (package' ++ "_" ++ stem').toList := by
  rw [guardBase, guardBase, String.ofList_inj, map_guardChar_eq_iff]

/-- Texts of small letters, digits and dots that are alike are the same. -/
theorem eq_of_forall₂_alike {cs cs' : List Char} (h : List.Forall₂ Alike cs cs')
    (hcs : ∀ c ∈ cs, c = '.' ∨ isSmall c = true) (hcs' : ∀ c ∈ cs', c = '.' ∨ isSmall c = true) : cs = cs' := by
  have hdot {c : Char} (hc : isSmall c = true) : c.isAlphanum ≠ '.'.isAlphanum := by
    rw [isAlphanum_iff.mpr (by have := isSmall_iff.mp hc; omega)]
    decide
  induction h with
  | nil => rfl
  | @cons c c' cs cs' hfirst _ ih =>
    obtain ⟨hc, hcs⟩ := List.forall_mem_cons.mp hcs
    obtain ⟨hc', hcs'⟩ := List.forall_mem_cons.mp hcs'
    have heq : c = c' := by
      rcases hc with rfl | hc <;> rcases hc' with rfl | hc'
      · rfl
      · exact absurd hfirst.isAlphanum_eq.symm (hdot hc')
      · exact absurd hfirst.isAlphanum_eq (hdot hc)
      · exact hfirst.eq hc hc'
    rw [heq, ih hcs hcs']

/-- A guard can be cut behind a package, if there is no underscore in it from there on. -/
theorem alike_of_alike_append {front front' back back' : List Char} (hback : ∀ c ∈ back, isSmall c = true)
    (hback' : ∀ c ∈ back', isSmall c = true) (h : List.Forall₂ Alike (front ++ '_' :: back) (front' ++ '_' :: back')) :
    List.Forall₂ Alike front front' ∧ List.Forall₂ Alike back back' := by
  have hletters {cs : List Char} (hcs : ∀ c ∈ cs, isSmall c = true) : '_' ∉ cs.map guardChar := by
    rw [List.mem_map]
    rintro ⟨c, hc, heq⟩
    have hsmall := isSmall_iff.mp (hcs c hc)
    have halike : Alike c '_' := guardChar_eq_iff.mp heq
    have hletter := halike.isAlphanum_eq
    rw [isAlphanum_iff.mpr (by omega)] at hletter
    cases hletter
  have hpieces (front : List Char) {back : List Char} (hback : ∀ c ∈ back, isSmall c = true) :
      pieces '_' ((front ++ '_' :: back).map guardChar) = pieces '_' (front.map guardChar) ++ [back.map guardChar] := by
    rw [List.map_append, List.map_cons, ← pieces_of_not_mem (hletters hback)]
    exact pieces_append_cons ..
  have hboth := congrArg (pieces '_') (map_guardChar_eq_iff.mpr h)
  rw [hpieces front hback, hpieces front' hback'] at hboth
  obtain ⟨hfront, hlast⟩ := List.append_inj' hboth rfl
  have hjoined := congrArg (['_'].intercalate ·) hfront
  simp only [intercalate_pieces] at hjoined
  exact ⟨map_guardChar_eq_iff.mp hjoined, map_guardChar_eq_iff.mp (List.cons.inj hlast).1⟩

/-- No text gets more than one line in a guard. -/
theorem unbroken_guardBase (package stem : String) : Unbroken (guardBase package stem) := by
  apply unbroken_ofList
  rw [List.mem_map]
  rintro ⟨c, -, heq⟩
  unfold guardChar at heq
  split at heq
  · next hc =>
    rw [← isAlphanum_toUpper, heq] at hc
    cases hc
  · cases heq

end Cpp

/-! ## Files -/

namespace SourceFile

variable {f g : SourceFile}

/-- The package and the name of one file are spelled like those of another, up to case and to characters that are
neither letters nor digits. -/
def Alike (f g : SourceFile) : Prop :=
  List.Forall₂ Cpp.Alike (f.package ++ "_" ++ f.stem).toList (g.package ++ "_" ++ g.stem).toList

instance (f g : SourceFile) : Decidable (f.Alike g) :=
  inferInstanceAs (Decidable (List.Forall₂ Cpp.Alike _ _))

/-- The package and the name of a file are spelled with small ASCII letters and digits, with dots in the package. -/
def Small (f : SourceFile) : Prop :=
  (∀ c ∈ f.package.toList, c = '.' ∨ Cpp.isSmall c = true) ∧ ∀ c ∈ f.stem.toList, Cpp.isSmall c = true

instance (f : SourceFile) : Decidable f.Small :=
  decidable_of_iff ((f.package.toList.all fun c => c == '.' || Cpp.isSmall c) && f.stem.toList.all Cpp.isSmall)
    (by simp [Small])

theorem headerGuard_eq_iff : f.headerGuard = g.headerGuard ↔ f.Alike g :=
  (Cpp.append_append_inj _ _).trans Cpp.guardBase_eq_iff

theorem mockGuard_eq_iff : f.mockGuard = g.mockGuard ↔ f.Alike g :=
  (Cpp.append_append_inj _ _).trans Cpp.guardBase_eq_iff

/-- The guard of a file that is spelled in small letters and digits ends in its name, behind the last underscore. -/
theorem Small.alike_iff (hf : f.Small) (hg : g.Small) : f.Alike g ↔ f.package = g.package ∧ f.stem = g.stem := by
  constructor
  · intro h
    have hlists (package stem : String) : (package ++ "_" ++ stem).toList = package.toList ++ '_' :: stem.toList := by
      simp
    rw [Alike, hlists, hlists] at h
    obtain ⟨hpackage, hstem⟩ := Cpp.alike_of_alike_append hf.2 hg.2 h
    have hsmall {g : SourceFile} (hg : g.Small) : ∀ c ∈ g.stem.toList, c = '.' ∨ Cpp.isSmall c = true :=
      fun c hc => .inr (hg.2 c hc)
    exact ⟨String.toList_inj.mp (Cpp.eq_of_forall₂_alike hpackage hf.1 hg.1),
      String.toList_inj.mp (Cpp.eq_of_forall₂_alike hstem (hsmall hf) (hsmall hg))⟩
  · rintro ⟨hpackage, hstem⟩
    rw [Alike, hpackage, hstem]
    exact List.forall₂_same.mpr fun _ _ => .inl rfl

end SourceFile

/-- Everything in the output but the lines at its start stands within a guard. -/
def Guarded (start : List String) (guard output : String) : Prop :=
  ∃ body, physicalLines output = start ++ [s!"#ifndef {guard}", s!"#define {guard}"] ++ body ++
    [s!"#endif // {guard}", ""]

theorem guarded_render {start : List String} {guard : String} {body : List Step} (hstart : ∀ line ∈ start, Unbroken line)
    (hguard : Unbroken guard) (hbody : Step.AllWhole body) (width : Nat) :
    Guarded start guard (Step.render width (Cpp.guarded start guard body)) := by
  have hopening : ∀ line ∈ start ++ [s!"#ifndef {guard}", s!"#define {guard}"], Unbroken line := by
    refine List.forall_mem_append.mpr ⟨hstart, ?_⟩
    simp only [List.forall_mem_cons, unbroken_append, toString, hguard, and_true]
    and_intros
    all_goals first | exact List.forall_mem_nil _ | exact unbroken_ofList (by decide)
  have hclosing : Unbroken s!"#endif // {guard}" := (unbroken_ofList (by decide)).append hguard
  refine ⟨Step.lines width body, ?_⟩
  rw [Step.physicalLines_render (Cpp.allWhole_guarded.mpr hbody), Cpp.guarded, Step.lines_append, Step.lines_append,
    Step.lines_writeLine hopening, Step.lines_singleton, physicalLines_of_unbroken hclosing, List.append_assoc]
  rfl

namespace Cpp.Scope

variable {c : Scope} {steps : List Step}

theorem guarded_header (h : c.header = .ok steps) (width : Nat) :
    Guarded headerStart c.file.headerGuard (Step.render width steps) := by
  obtain ⟨items, -, hwhole, rfl⟩ := header_eq_ok h
  have hguard : Unbroken c.file.headerGuard :=
    ((unbroken_ofList (by decide)).append (unbroken_guardBase _ _)).append (unbroken_ofList (by decide))
  exact guarded_render (by decide) hguard hwhole width

theorem guarded_mockFile (h : c.mockFile = .ok steps) (width : Nat) :
    Guarded mockStart c.file.mockGuard (Step.render width steps) := by
  obtain ⟨body, hbody, rfl⟩ := mockFile_eq_ok h
  have hguard : Unbroken c.file.mockGuard :=
    ((unbroken_ofList (by decide)).append (unbroken_guardBase _ _)).append (unbroken_ofList (by decide))
  exact guarded_render (by decide) hguard hbody width

end Cpp.Scope

/-- Two files have the same guards, for headers and for mocks, just if they are spelled alike; files that are spelled with
small ASCII letters and digits are then of the same package and name. Everything in a header or a mock, a comment and a
pragma at its start apart, stands within its guard. -/
theorem guards_eq_iff (f g : SourceFile) :
    (f.headerGuard = g.headerGuard ↔ f.Alike g) ∧ (f.mockGuard = g.mockGuard ↔ f.Alike g) ∧
      (f.Small → g.Small → (f.Alike g ↔ f.package = g.package ∧ f.stem = g.stem)) ∧
      ∀ m width output reports reports',
        (generate .cppInterface m f width reports = .ok output reports' →
          Guarded Cpp.Scope.headerStart f.headerGuard output) ∧
        (generate .cppGmock m f width reports = .ok output reports' →
          Guarded Cpp.Scope.mockStart f.mockGuard output) := by
  refine ⟨SourceFile.headerGuard_eq_iff, SourceFile.mockGuard_eq_iff, SourceFile.Small.alike_iff, ?_⟩
  intro m width output reports reports'
  constructor
  · intro h
    obtain ⟨steps, hsteps, rfl⟩ := Generate.render_eq_ok.mp h
    exact Cpp.Scope.guarded_header (Generate.ofExcept_eq_ok.mp hsteps).1 width
  · intro h
    obtain ⟨steps, hsteps, rfl⟩ := Generate.render_eq_ok.mp h
    exact Cpp.Scope.guarded_mockFile (Generate.ofExcept_eq_ok.mp hsteps).1 width

/-- A disk with files whose packages and names are spelled alike, and a third file. -/
def Disk.alike : Disk :=
  ⟨.directory [("a", .directory [("b", .directory [("c.qi", .file (some "package a.b\n"))]),
    ("b_c.qi", .file (some "package a\n")), ("c.qi", .file (some "package a\n"))])], []⟩

theorem Disk.wellNamed_alike : Disk.alike.root.WellNamed := by
  simp [Disk.alike]

/-- Files of different packages and names that have the same guards can be read together. The guards of a third are
others. -/
theorem guards_eq_iff_together :
    ∃ m f g other, Manager.Leads (fun _ _ => True) .empty m ∧ m.files.find? (["a", "b", "c.qi"] : Path) = some f ∧
      m.files.find? (["a", "b_c.qi"] : Path) = some g ∧ m.files.find? (["a", "c.qi"] : Path) = some other ∧
      (f.package ≠ g.package ∧ f.stem ≠ g.stem ∧ f.headerGuard = g.headerGuard ∧ f.mockGuard = g.mockGuard) ∧
      (f.package ≠ other.package ∧ f.headerGuard ≠ other.headerGuard ∧ f.mockGuard ≠ other.mockGuard) ∧
      ∃ output reports, generate .cppInterface m f 2 [] = .ok output reports ∧
        Guarded Cpp.Scope.headerStart f.headerGuard output := by
  have hcheck : ((((Operation.parseDirectory "/").after .alike .empty).files.find? (["a", "b", "c.qi"] : Path)).any fun f =>
      (((Operation.parseDirectory "/").after .alike .empty).files.find? (["a", "b_c.qi"] : Path)).any fun g =>
        (((Operation.parseDirectory "/").after .alike .empty).files.find? (["a", "c.qi"] : Path)).any fun other =>
          decide (f.package ≠ g.package ∧ f.stem ≠ g.stem ∧ f.Alike g ∧ f.package ≠ other.package ∧ f.Small ∧
            other.Small) &&
          decide ((generate .cppInterface ((Operation.parseDirectory "/").after .alike .empty) f 2).Succeeds [])) =
        true := by decide +kernel
  obtain ⟨f, hf, hrest⟩ := (Option.any_eq_true _ _).mp hcheck
  obtain ⟨g, hg, hlast⟩ := (Option.any_eq_true _ _).mp hrest
  obtain ⟨other, hother, htest⟩ := (Option.any_eq_true _ _).mp hlast
  simp only [Bool.and_eq_true, decide_eq_true_eq] at htest
  obtain ⟨⟨hpackage, hstem, halike, hapart, hsmall, hsmall'⟩, output, reports, houtput⟩ := htest
  obtain ⟨hheader, hmock, -, hguarded⟩ := guards_eq_iff f g
  obtain ⟨hheader', hmock', htold, -⟩ := guards_eq_iff f other
  have hunlike : ¬f.Alike other := fun h => hapart ((htold hsmall hsmall').mp h).1
  exact ⟨_, f, g, other, .step _ _ .refl Disk.wellNamed_alike trivial, hf, hg, hother,
    ⟨hpackage, hstem, hheader.mpr halike, hmock.mpr halike⟩, ⟨hapart, hheader'.not.mpr hunlike, hmock'.not.mpr hunlike⟩,
    output, reports, houtput, (hguarded _ _ _ _ _).1 houtput⟩

end QiIdl
