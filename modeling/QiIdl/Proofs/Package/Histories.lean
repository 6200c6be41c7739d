import QiIdl.Proofs.Package.Atomic
import QiIdl.Proofs.Package.Ledger

/-!
# Packages do not tell their history

Which of two files that export one name wins depends on which of them was registered first, and so on everything that
was done before: on the order of loading, on failures, on include directories that were added meanwhile. The names that
are exported and the number of exports that were refused do not. Both can be read off what stands at the top of the
registered files, in whatever order (`Package.Enters`), and a registered file is determined by its path and its text
(`Coherent.eq_of_registered`), since the rest of it was read from there. If nothing was refused, there was nothing to
win, and the exports are the same altogether.
-/

namespace QiIdl

namespace Package

variable {p q : Package} {roots : List (SourceFile × Node Mark)} {name : String}

/-- The paths of the registered files, each with the text of its file. -/
def registeredTexts (p : Package) : List (Path × String) := p.registeredFiles.map fun f => (f.path, f.source)

theorem mem_registeredTexts {path : Path} {source : String} :
    (path, source) ∈ p.registeredTexts ↔ ∃ f ∈ p.registeredFiles, f.path = path ∧ f.source = source := by
  simp [registeredTexts]

/-! ## Ledgers of the same nodes -/

theorem Enters.mem_keys_exports (h : p.Enters roots) : name ∈ p.exports.keys ↔ name ∈ exportedNames roots := by
  rw [← Classical.not_not (a := name ∈ p.exports.keys), ← Table.find?_eq_none_iff, ← ne_eq,
    ← Option.isSome_iff_ne_none]
  refine ⟨fun hname => ?_, h.exported name⟩
  obtain ⟨e, he⟩ := Option.isSome_iff_exists.mp hname
  obtain ⟨-, hroot, hexported⟩ := h.exports name e he
  exact List.mem_filterMap.mpr ⟨_, hroot, hexported⟩

theorem Enters.duplicates_eq (h : p.Enters roots) (h' : q.Enters roots) : p.duplicates = q.duplicates :=
  Nat.add_right_cancel (h.duplicates.trans h'.duplicates.symm)

theorem Enters.nodup_exportedNames (h : p.Enters roots) (hnone : p.duplicates = 0) : (exportedNames roots).Nodup := by
  have hlength : (exportedNames roots).dedup.length = (exportedNames roots).length := by
    rw [← h.duplicates, hnone, Nat.zero_add]
  exact List.dedup_eq_self.mp ((List.dedup_sublist _).eq_of_length hlength)

/-- No two of some things are given the same value, if no value comes out twice. -/
theorem eq_of_nodup_filterMap {β γ : Type} {f : β → Option γ} {xs : List β} {a b : β} {c : γ}
    (hnodup : (xs.filterMap f).Nodup) (ha : a ∈ xs) (hb : b ∈ xs) (hfa : f a = some c) (hfb : f b = some c) :
    a = b := by
  induction xs with
  | nil => cases ha
  | cons x xs ih =>
    -- whatever stands behind the first one is given a value of its own
    have hlater : ∀ y ∈ xs, f x = some c → f y ≠ some c := by
      intro y hy hx hfy
      rw [List.filterMap_cons_some hx] at hnodup
      exact (List.nodup_cons.mp hnodup).1 (List.mem_filterMap.mpr ⟨y, hy, hfy⟩)
    have hrest : (xs.filterMap f).Nodup := hnodup.sublist ((List.sublist_cons_self x xs).filterMap f)
    rcases List.mem_cons.mp ha with rfl | hamem <;> rcases List.mem_cons.mp hb with rfl | hbmem
    · rfl
    · exact absurd hfb (hlater b hbmem hfa)
    · exact absurd hfa (hlater a hamem hfb)
    · exact ih hrest hamem hbmem

/-- Where no export is refused, an export is the only node of its name. -/
theorem Enters.find?_exports_eq (h : p.Enters roots) (h' : q.Enters roots) (hnone : p.duplicates = 0) (name : String) :
    p.exports.find? name = q.exports.find? name := by
  have hkeys : name ∈ p.exports.keys ↔ name ∈ q.exports.keys := h.mem_keys_exports.trans h'.mem_keys_exports.symm
  cases he : p.exports.find? name with
  | none => exact (Table.find?_eq_none_iff.mpr (mt hkeys.mpr (Table.find?_eq_none_iff.mp he))).symm
  | some e =>
    cases he' : q.exports.find? name with
    | none =>
      have hmem : name ∈ p.exports.keys := List.mem_map_of_mem (Table.mem_of_find? he)
      exact absurd (hkeys.mp hmem) (Table.find?_eq_none_iff.mp he')
    | some e' =>
      obtain ⟨hname, hroot, hexported⟩ := h.exports name e he
      obtain ⟨hname', hroot', hexported'⟩ := h'.exports name e' he'
      have hsame := eq_of_nodup_filterMap (h.nodup_exportedNames hnone) hroot hroot' hexported hexported'
      cases e
      cases e'
      cases hname
      cases hname'
      cases hsame
      rfl

end Package

namespace Manager

open Package

variable {m m' : Manager} {name : String}

/-! ## Registered files -/

/-- A file that is registered with a package declares it and was read from its path. -/
theorem Coherent.of_registered {f : SourceFile} (hm : m.Coherent) (hf : f ∈ (m.packageNamed name).registeredFiles) :
    f.package = name ∧ parseSource f.source f.path.text = .ok f.ast := by
  have hmem : f ∈ (m.packageNamed name).files.values := List.mem_of_mem_filter hf
  unfold packageNamed at hmem
  cases hp : m.packages.find? name with
  | none =>
    rw [hp] at hmem
    cases hmem
  | some p =>
    rw [hp] at hmem
    obtain ⟨hin, hknown⟩ := hm.find?_of_mem hp hmem
    obtain ⟨root, hplaced, -⟩ := hm.placed _ f hknown
    exact ⟨((hm.partition name f.path f).mp (fileIn_eq_some.mpr ⟨p, hp, hin⟩)).2, hplaced.parsed⟩

/-- Files that two managers have registered with one package are the same if their paths and texts are. -/
theorem Coherent.eq_of_registered {f g : SourceFile} (hm : m.Coherent) (hm' : m'.Coherent)
    (hf : f ∈ (m.packageNamed name).registeredFiles) (hg : g ∈ (m'.packageNamed name).registeredFiles)
    (hpath : f.path = g.path) (hsource : f.source = g.source) : f = g := by
  obtain ⟨hpackage, hparsed⟩ := hm.of_registered hf
  obtain ⟨hpackage', hparsed'⟩ := hm'.of_registered hg
  rw [hpath, hsource, hparsed'] at hparsed
  cases f
  cases g
  cases hpath
  cases hsource
  cases hparsed
  cases hpackage
  cases hpackage'
  rfl

theorem Coherent.nodup_registeredFiles (hm : m.Coherent) (name : String) :
    (m.packageNamed name).registeredFiles.Nodup := by
  refine List.Nodup.filter _ ?_
  unfold packageNamed
  cases hp : m.packages.find? name with
  | none => exact .nil
  | some p => exact .of_map _ (hm.nodup_paths hp)

theorem Balanced.enters_packageNamed (hm : m.Balanced) (name : String) :
    (m.packageNamed name).Enters (rootsOf (m.packageNamed name).registeredFiles) := by
  unfold packageNamed
  cases hp : m.packages.find? name with
  | none => exact enters_empty name
  | some p => exact hm.entered name p hp

/-- Packages that have registered the same texts have registered the same files. -/
theorem Coherent.registeredFiles_perm (hm : m.Coherent) (hm' : m'.Coherent)
    (hsame : ∀ text, text ∈ (m.packageNamed name).registeredTexts ↔ text ∈ (m'.packageNamed name).registeredTexts) :
    (m.packageNamed name).registeredFiles.Perm (m'.packageNamed name).registeredFiles := by
  refine (List.perm_ext_iff_of_nodup (hm.nodup_registeredFiles name) (hm'.nodup_registeredFiles name)).mpr fun f => ?_
  constructor
  · intro hf
    obtain ⟨g, hg, hpath, hsource⟩ :=
      mem_registeredTexts.mp ((hsame (f.path, f.source)).mp (mem_registeredTexts.mpr ⟨f, hf, rfl, rfl⟩))
    rwa [hm.eq_of_registered hm' hf hg hpath.symm hsource.symm]
  · intro hf
    obtain ⟨g, hg, hpath, hsource⟩ :=
      mem_registeredTexts.mp ((hsame (f.path, f.source)).mpr (mem_registeredTexts.mpr ⟨f, hf, rfl, rfl⟩))
    rwa [← hm.eq_of_registered hm' hg hf hpath hsource]

/-! ## Histories -/

/-- Take any two histories of operations, each on disks of its own, after which a package has registered the same paths
with the same texts. The same names are exported then and as many exports were refused; and if none was, each name is
the name of the same node in the same file. -/
theorem exports_of_same_registered {allowed allowed' : Manager → Operation → Prop} (h : Leads allowed empty m)
    (h' : Leads allowed' empty m') (name : String)
    (hsame : ∀ text, text ∈ (m.packageNamed name).registeredTexts ↔ text ∈ (m'.packageNamed name).registeredTexts) :
    (∀ exported, exported ∈ (m.packageNamed name).exports.keys ↔ exported ∈ (m'.packageNamed name).exports.keys) ∧
      (m.packageNamed name).duplicates = (m'.packageNamed name).duplicates ∧
      ((m.packageNamed name).duplicates = 0 → ∀ exported,
        (m.packageNamed name).exports.find? exported = (m'.packageNamed name).exports.find? exported) := by
  have hsteps := h.steps named_empty
  have hsteps' := h'.steps named_empty
  have hfiles := (hsteps.coherent coherent_empty).registeredFiles_perm (hsteps'.coherent coherent_empty) hsame
  -- both ledgers are those of the nodes at the top of the same files
  have henters := ((hsteps.balanced coherent_empty balanced_empty).enters_packageNamed name).perm (rootsOf_perm hfiles)
  have henters' := (hsteps'.balanced coherent_empty balanced_empty).enters_packageNamed name
  exact ⟨fun _ => henters.mem_keys_exports.trans henters'.mem_keys_exports.symm, henters.duplicates_eq henters',
    henters.find?_exports_eq henters'⟩

end Manager

/-- A disk with a package in two places, which exports a name in both of them. -/
def Disk.twoPlaces : Disk :=
  ⟨.directory [
    ("one", .directory [("a", .directory [("x.qi", .file (some "package a\nstruct S\nend\nstruct T\nend\n"))])]),
    ("two", .directory [("a", .directory [("y.qi", .file (some "package a\nenum S\nend\nconst C = 1\n"))])])], []⟩

/-- The manager after the package in one place is loaded and then the one in the other place. -/
def Manager.ofPlaces (first second : String) : Manager :=
  (Operation.parsePackage "a").after .twoPlaces <| (Operation.addInclude second).after .twoPlaces <|
    (Operation.parsePackage "a").after .twoPlaces <| (Operation.addInclude first).after .twoPlaces .empty

/-- Where the places are loaded in another order, the name that both export means something else, but the names are the
same and one export is refused either way. -/
theorem Manager.exports_of_same_registered_twoPlaces :
    let m := ofPlaces "/one" "/two"
    let m' := ofPlaces "/two" "/one"
    Leads (fun _ _ => True) empty m ∧ Leads (fun _ _ => True) empty m' ∧
      (m.packageNamed "a").registeredTexts = (m'.packageNamed "a").registeredTexts ∧
      (m.findExport "a" "S").map (·.file.path) = some (["one", "a", "x.qi"] : Path) ∧
      (m'.findExport "a" "S").map (·.file.path) = some (["two", "a", "y.qi"] : Path) ∧
      (∀ exported, exported ∈ (m.packageNamed "a").exports.keys ↔ exported ∈ (m'.packageNamed "a").exports.keys) ∧
      (m.packageNamed "a").duplicates = 1 ∧ (m.packageNamed "a").duplicates = (m'.packageNamed "a").duplicates := by
  intro m m'
  have hdisk : Disk.twoPlaces.root.WellNamed := by
    simp [Disk.twoPlaces]
  have hleads (first second : String) : Leads (fun _ _ => True) empty (ofPlaces first second) :=
    .step _ _ (.step _ _ (.step _ _ (.step _ _ .refl hdisk trivial) hdisk trivial) hdisk trivial) hdisk trivial
  have hcheck : (m.packageNamed "a").registeredTexts = (m'.packageNamed "a").registeredTexts ∧
      (m.findExport "a" "S").map (·.file.path) = some (["one", "a", "x.qi"] : Path) ∧
      (m'.findExport "a" "S").map (·.file.path) = some (["two", "a", "y.qi"] : Path) ∧
      (m.packageNamed "a").duplicates = 1 := by decide +kernel
  obtain ⟨htexts, hfirst, hsecond, hcount⟩ := hcheck
  obtain ⟨hnames, hduplicates, -⟩ :=
    exports_of_same_registered (hleads "/one" "/two") (hleads "/two" "/one") "a" (by simp [m, m', htexts])
  exact ⟨hleads _ _, hleads _ _, htexts, hfirst, hsecond, hnames, hcount, hduplicates⟩

end QiIdl
