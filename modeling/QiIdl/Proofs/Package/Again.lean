import QiIdl.Proofs.Package.Caches
import QiIdl.Proofs.Package.Ledger
import QiIdl.Proofs.Package.Resolution

/-!
# Resolving again

Resolving a package loads packages as they are asked for. If an include directory is added meanwhile, packages that
were loaded before have to be located again; and if a file comes in late, in a package that was loaded before, it is
not registered yet. In a `Quiet` run neither happens, so what is loaded once stays as it is (`Extends`). What an
operation looked up on the way is then what it would find in the end: it can be run again there, and it gives the
same result and changes nothing (`Repeats`).

For the answers that are kept there is one thing more to show: that the answer to a reference is not overwritten by
the answer to another. Two references of one number in one file are one reference.
-/

namespace QiIdl

open Managed

variable {location : Location}

namespace Manager

variable {disk : Disk} {m m₁ m' : Manager} {name : String}

/-! ## Quiet runs -/

/-- No include directory was added, and each file that came in is at one of the paths that are noted for its package,
if there is a note for the include directories there are. -/
structure Quiet (m m' : Manager) : Prop where
  includes : m'.includes = m.includes
  located : ∀ path f paths, m'.files.find? path = some f → m.files.find? path = none →
    m'.located.find? f.package = some (m'.includes.length, paths) → path ∈ paths

/-- One manager knows what another knows, and maybe more. As long as no include directory is added, the notes stay;
and if all came in quietly, a package that was loaded is as it was. -/
structure Extends (m m' : Manager) : Prop where
  includes : m.includes <:+ m'.includes
  files : ∀ path f, m.files.find? path = some f → m'.files.find? path = some f
  located : m'.includes = m.includes → ∀ name paths, m.located.find? name = some (m.includes.length, paths) →
    m'.located.find? name = some (m.includes.length, paths)
  packages : Quiet m m' → ∀ name, m.loaded name = true → m'.packages.find? name = m.packages.find? name

theorem Extends.refl (m : Manager) : Extends m m :=
  ⟨List.suffix_rfl, fun _ _ h => h, fun _ _ _ h => h, fun _ _ _ => rfl⟩

theorem Extends.includes_eq (hfirst : Extends m m₁) (hlast : Extends m₁ m') (h : m'.includes = m.includes) :
    m₁.includes = m.includes := by
  refine (hfirst.includes.eq_of_length_le ?_).symm
  rw [← h]
  exact hlast.includes.length_le

/-- A run is quiet before and after each manager on the way. -/
theorem Quiet.split (h : Quiet m m') (hfirst : Extends m m₁) (hlast : Extends m₁ m') :
    Quiet m m₁ ∧ Quiet m₁ m' := by
  have hincludes := hfirst.includes_eq hlast h.includes
  have hincludes' : m'.includes = m₁.includes := h.includes.trans hincludes.symm
  refine ⟨⟨hincludes, ?_⟩, ⟨hincludes', ?_⟩⟩
  · intro path f paths hf hnew hnoted
    refine h.located path f paths (hlast.files path f hf) hnew ?_
    rw [hincludes']
    exact hlast.located hincludes' _ _ hnoted
  · intro path f paths hf hnew hnoted
    refine h.located path f paths hf ?_ hnoted
    cases hold : m.files.find? path with
    | none => rfl
    | some g =>
      rw [hfirst.files path g hold] at hnew
      cases hnew

theorem Extends.loaded (h : Extends m m') (hquiet : Quiet m m') (hloaded : m.loaded name = true) :
    m'.loaded name = true := by
  unfold Manager.loaded
  rw [h.packages hquiet name hloaded, hquiet.includes]
  exact hloaded

theorem Extends.trans (h : Extends m m₁) (h' : Extends m₁ m') : Extends m m' where
  includes := h.includes.trans h'.includes
  files path f hf := h'.files path f (h.files path f hf)
  located hincludes name paths hnoted := by
    have hfirst := h.includes_eq h' hincludes
    have hmiddle := h.located hfirst name paths hnoted
    rw [← hfirst] at hmiddle ⊢
    exact h'.located (hincludes.trans hfirst.symm) name paths hmiddle
  packages hquiet name hloaded := by
    obtain ⟨hfirst, hlast⟩ := hquiet.split h h'
    rw [h'.packages hlast name (h.loaded hfirst hloaded), h.packages hfirst name hloaded]

theorem extends_keep (m : Manager) (path : Path) (id : Nat) (r : Resolution) : Extends m (m.keep path id r) :=
  ⟨List.suffix_rfl, fun _ _ h => h, fun _ _ _ h => h, fun _ _ _ => rfl⟩

/-! ## Loading -/

/-- A file that comes in quietly is not one of a package that is loaded, since all paths that are noted for such a
package are known. -/
theorem Read.extends (hm : m.Noted) (h : Read m m') : Extends m m' := by
  have hlocated : m'.located = m.located := Reads.located (.single h)
  refine ⟨h.includes, fun _ _ hf => h.find?_files hf, fun _ _ _ hnoted => hlocated ▸ hnoted, ?_⟩
  intro hquiet name hloaded
  obtain ⟨p, hp, hisLoaded⟩ := loaded_iff.mp hloaded
  obtain ⟨-, paths, hnoted, hknown⟩ := hm.of_isLoaded (fun _ _ h => h.1) hp hisLoaded
  obtain @⟨f, root, hnew⟩ := h
  have hne : name ≠ f.package := by
    rintro rfl
    have hpath : f.path ∈ paths := by
      refine hquiet.located f.path f paths Table.find?_insert_self hnew ?_
      rw [hquiet.includes, hlocated]
      exact hnoted
    have hsome := hknown f.path hpath
    simp [hnew] at hsome
  rw [addFile_eq, Table.find?_insert_of_ne hne, addInclude_packages]

theorem Reads.extends (hdisk : disk.root.WellNamed) (hm : m.Noted) (h : Reads m m') : Extends m m' := by
  have hboth : m'.Noted ∧ Extends m m' := by
    induction h with
    | refl => exact ⟨hm, .refl m⟩
    | tail _ hread ih =>
      obtain ⟨hnoted, hextends⟩ := ih
      exact ⟨hnoted.read (reading_noted hdisk) hread, hextends.trans (hread.extends hnoted)⟩
  exact hboth.2

theorem Notes.extends {paths : List Path} (h : m.Notes disk name m' paths) : Extends m m' := by
  have hstays := h.stays
  rw [h.same] at hstays ⊢
  exact ⟨List.suffix_rfl, fun _ _ hf => hf, fun _ => hstays, fun _ _ _ => rfl⟩

theorem Loads.extends (hdisk : disk.root.WellNamed) (hm : m.Noted) (hnot : m.loaded name = false)
    (h : m.Loads disk name m') : Extends m m' ∧ m'.resolutions = m.resolutions := by
  obtain @⟨m₁, m₂, paths, hnotes, hreads, -, hfiles⟩ := h
  obtain ⟨p, hp, -⟩ := exists_package hfiles
  have hnoted : m₁.Noted := hnotes.moves.faithful (reading_noted hdisk) hm
  have hextends := hnotes.extends.trans (hreads.extends hdisk hnoted)
  rw [entered_eq hp]
  refine ⟨⟨hextends.includes, hextends.files, hextends.located, ?_⟩, ?_⟩
  · intro hquiet other hloaded
    have hne : other ≠ name := by
      rintro rfl
      simp [hnot] at hloaded
    rw [Table.find?_insert_of_ne hne]
    exact hextends.packages ⟨hquiet.includes, hquiet.located⟩ other hloaded
  · have hbefore : m₁.resolutions = m.resolutions := by rw [hnotes.same]
    exact hreads.resolutions.trans hbefore

/-- A package that was entered is loaded, if no include directory was added. -/
theorem Loads.loaded (h : m.Loads disk name m') (hm : m'.Coherent) (hincludes : m'.includes = m.includes) :
    m'.loaded name = true := by
  obtain @⟨m₁, m₂, paths, -, -, -, hfiles⟩ := h
  obtain ⟨p, hp, -⟩ := exists_package hfiles
  have hfound : (m₂.entered name m.includes.length).packages.find? name = some (p.enter m.includes.length) := by
    rw [entered_eq hp]
    exact Table.find?_insert_self
  refine loaded_iff.mpr ⟨_, hfound, Package.isLoaded_iff.mpr ⟨by rw [hincludes]; rfl, ?_⟩⟩
  intro path hpath
  rw [← hm.map_path_values hfound, Package.enter_files] at hpath
  obtain ⟨f, hf, rfl⟩ := List.mem_map.mp hpath
  exact (p.registered_registerFiles p.files.values).1 f hf

theorem loadPackage_of_loaded (hloaded : m.loaded name = true) (hclash : m.clash? name = none) :
    loadPackage disk name location m = .ok () m := by
  have hends : Ends (loadPackage disk name location) m (fun _ m' => m' = m) fun _ _ => False := by
    refine ends_loadPackage.mono ?_ ?_
    · rintro _ m' ⟨-, ⟨-, hsame⟩ | ⟨hnot, -⟩⟩
      · exact hsame
      · simp [hloaded] at hnot
    · rintro e m' ⟨-, herror⟩
      have hsome := herror hloaded
      simp [hclash] at hsome
  obtain ⟨_, m', hrun, rfl⟩ := hends.exists_ok
  exact hrun

/-! ## Managers on the way -/

/-- An export of a package stands at the top of a file of the package, under its name. -/
theorem Balanced.declared_of_findExport {package : String} {e : Export} (hbalanced : m.Balanced) (hm : m.Coherent)
    (he : m.findExport package name = some e) : m.files.find? e.file.path = some e.file ∧ e.file.package = package ∧
      e.node ∈ e.file.ast.roots ∧ e.node.exportedName? = some name := by
  obtain ⟨p, hp, hfound⟩ := findExport_eq_some.mp he
  obtain ⟨-, hroot, hexported⟩ := (hbalanced.entered package p hp).exports name e hfound
  obtain ⟨hfile, hnode⟩ := Package.mem_rootsOf.mp hroot
  obtain ⟨hin, hknown⟩ := hm.find?_of_mem hp (List.mem_of_mem_filter hfile)
  exact ⟨hknown, ((hm.partition package _ _).mp (fileIn_eq_some.mpr ⟨p, hp, hin⟩)).2, hnode, hexported⟩

/-- What holds of every manager that operations lead to, as far as it matters here. -/
structure Regular (m : Manager) : Prop where
  noted : m.Noted
  coherent : m.Coherent
  balanced : m.Balanced

theorem Leads.regular {allowed : Manager → Operation → Prop} (h : Leads allowed empty m) : Regular m := by
  have hsteps := h.steps named_empty
  exact ⟨h.noted, hsteps.coherent coherent_empty, hsteps.balanced coherent_empty balanced_empty⟩

theorem Regular.keep (hdisk : disk.root.WellNamed) (hm : Regular m) (path : Path) (id : Nat) (r : Resolution) :
    Regular (m.keep path id r) :=
  ⟨hm.noted.congr (reading_noted hdisk) rfl rfl rfl rfl, hm.coherent.congr rfl rfl rfl,
    ⟨hm.balanced.entered, hm.balanced.clashes⟩⟩

theorem Regular.package_of_findExport {package : String} {e : Export} (hm : Regular m)
    (he : m.findExport package name = some e) : e.file.package = package :=
  (hm.balanced.declared_of_findExport hm.coherent he).2.1

/-- Loading a package leads to a regular manager, in which it is loaded unless an include directory was added. -/
theorem Regular.loadPackage (hdisk : disk.root.WellNamed) (hm : Regular m)
    (hrun : loadPackage disk name location m = .ok () m') :
    Regular m' ∧ Extends m m' ∧ m'.resolutions = m.resolutions ∧ m'.clash? name = none ∧
      (m'.includes = m.includes → m'.loaded name = true) := by
  have hmoves : Moves disk m [] m' := moves_loadPackage.ok () m' hrun
  have hsteps : Steps (fun _ _ => True) m m' := ((runs_loadPackage hdisk).ok () m' hrun).1
  have hcoherent := hsteps.coherent hm.coherent
  refine ⟨⟨hmoves.faithful (reading_noted hdisk) hm.noted, hcoherent, hsteps.balanced hm.coherent hm.balanced⟩, ?_⟩
  obtain ⟨hclash, ⟨hloaded, rfl⟩ | ⟨hnot, hloads⟩⟩ := ends_loadPackage.ok () m' hrun
  · exact ⟨.refl m', rfl, hclash, fun _ => hloaded⟩
  · obtain ⟨hextends, hresolutions⟩ := hloads.extends hdisk hm.noted hnot
    exact ⟨hextends, hresolutions, hclash, hloads.loaded hcoherent⟩

end Manager

/-! ## Running again in the end -/

namespace Managed

open Manager

variable {disk : Disk} {first last m m' : Manager} {β γ : Type} {op : Managed β} {package name : String}

/-- What an operation gives on the way from one manager to another, it gives again in the end, where it changes
nothing. -/
def Repeats (first last : Manager) (β : Type) (op : Managed β) (m : Manager) : Prop :=
  Regular m → Extends first m → ∀ b m', op m = .ok b m' →
    Regular m' ∧ Extends m m' ∧ m'.resolutions = m.resolutions ∧
      (Extends m' last → op last = .ok b last)

/-- A package is loaded, if the manager is one on the way. -/
def Ready (first last m : Manager) (name : String) : Prop :=
  Regular m → Extends first m → Extends m last → m.loaded name = true

namespace Repeats

protected theorem pure (b : β) (m : Manager) : Repeats first last β (pure b) m := by
  intro hregular _ b' m' hrun
  cases hrun
  exact ⟨hregular, .refl m, rfl, fun _ => rfl⟩

protected theorem bind {f : β → Managed γ} (hop : Repeats first last β op m)
    (hf : ∀ b m', op m = .ok b m' → Repeats first last γ (f b) m') :
    Repeats first last γ (op >>= f) m := by
  intro hregular hsince c m₂ hrun
  obtain ⟨b, m₁, hrun₁, hrun₂⟩ := bind_eq_ok.mp hrun
  obtain ⟨hregular₁, hextends₁, hsame₁, hagain₁⟩ := hop hregular hsince b m₁ hrun₁
  obtain ⟨hregular₂, hextends₂, hsame₂, hagain₂⟩ := hf b m₁ hrun₁ hregular₁ (hsince.trans hextends₁) c m₂ hrun₂
  refine ⟨hregular₂, hextends₁.trans hextends₂, hsame₂.trans hsame₁, fun huntil => ?_⟩
  rw [bind_of_ok (hagain₁ (hextends₂.trans huntil))]
  exact hagain₂ huntil

/-- What an operation looks at must be the same in the end. -/
theorem get_bind {g : Manager → γ} {f : γ → Managed β}
    (hsame : Regular m → Extends first m → Extends m last → g last = g m)
    (hf : Repeats first last β (f (g m)) m) : Repeats first last β (get >>= fun s => f (g s)) m := by
  intro hregular hsince b m' hrun
  obtain ⟨hregular', hextends, hresolutions, hagain⟩ := hf hregular hsince b m' hrun
  refine ⟨hregular', hextends, hresolutions, fun huntil => ?_⟩
  rw [get_bind_eq, hsame hregular hsince (hextends.trans huntil)]
  exact hagain huntil

end Repeats

section

variable (hdisk : disk.root.WellNamed) (hquiet : Quiet first last)
include hquiet

/-- A package that is loaded on the way is the same in the end. -/
theorem Ready.find?_packages (h : Ready first last m name) (hregular : Regular m)
    (hsince : Extends first m) (huntil : Extends m last) :
    last.packages.find? name = m.packages.find? name :=
  huntil.packages (hquiet.split hsince huntil).2 name (h hregular hsince huntil)

theorem Ready.mono (h : Ready first last m name) (hregular : Regular m) (hsince : Extends first m)
    (hextends : Extends m m') : Ready first last m' name := by
  intro _ hsince' huntil
  have hboth := (hquiet.split hsince (hextends.trans huntil)).2
  exact hextends.loaded (hboth.split hextends huntil).1 (h hregular hsince (hextends.trans huntil))

include hdisk

theorem ready_of_loadPackage (hregular : Regular m) (hsince : Extends first m)
    (hrun : loadPackage disk name location m = .ok () m') : Ready first last m' name := by
  obtain ⟨-, hextends, -, -, hloaded⟩ := hregular.loadPackage hdisk hrun
  intro _ _ huntil
  have hboth := (hquiet.split hsince (hextends.trans huntil)).2
  exact hloaded (hboth.split hextends huntil).1.includes

theorem repeats_loadPackage : Repeats first last Unit (loadPackage disk name location) m := by
  intro hregular hsince _ m' hrun
  obtain ⟨hregular', hextends, hresolutions, hclash, -⟩ := hregular.loadPackage hdisk hrun
  refine ⟨hregular', hextends, hresolutions, fun huntil => ?_⟩
  have hready := ready_of_loadPackage hdisk hquiet hregular hsince hrun
  have hsame := hready.find?_packages hquiet hregular' (hsince.trans hextends) huntil
  have hloaded := hready hregular' (hsince.trans hextends) huntil
  refine loadPackage_of_loaded ?_ ?_
  · exact huntil.loaded (hquiet.split (hsince.trans hextends) huntil).2 hloaded
  · rw [clash?, hsame]
    exact hclash

/-- All that resolves references can be run again. -/
theorem lookups_repeats : Lookups disk (Ready first last) (Repeats first last) where
  pure b m := .pure b m
  unresolved d m _ := by
    intro _ _ b m' hrun
    cases hrun
  map g hop := hop.bind fun b m' _ => .pure (g b) m'
  load package location hrest := by
    intro hregular hsince
    refine Repeats.bind (repeats_loadPackage hdisk hquiet) ?_ hregular hsince
    intro _ m' hrun
    obtain ⟨-, hextends, -⟩ := hregular.loadPackage hdisk hrun
    refine hrest m' (ready_of_loadPackage hdisk hquiet hregular hsince hrun) ?_
    exact fun name hready => hready.mono hquiet hregular hsince hextends
  find package name hready hrest := by
    intro hregular
    refine Repeats.get_bind ?_ (hrest _ ?_) hregular
    · intro hregular hsince huntil
      rw [findExport, findExport, hready.find?_packages hquiet hregular hsince huntil]
    · intro e he
      rw [hregular.package_of_findExport he]
      exact hready

theorem repeats_forM_loadPackage {imported : List (String × Location)} :
    Repeats first last Unit (imported.forM fun (package, location) => loadPackage disk package location) m := by
  induction imported generalizing m with
  | nil => exact .pure () m
  | cons head imported ih =>
    rw [List.forM]
    exact (repeats_loadPackage hdisk hquiet).bind fun _ _ _ => ih

omit hdisk hquiet in
theorem prepare_of_loadPackage (h : loadPackage disk name .none m = .ok () m') : prepare disk name m = (do
    (((m'.packages.find? name).map (·.importedPackages)).getD []).forM
      fun (package, location) => loadPackage disk package location
    pure (references ((← get).packageFiles name)) : Managed (List (SourceFile × Node Mark))) m' := by
  rw [prepare, parsePackage, bind_of_ok h]
  rfl

/-- The references of a package can be collected again, and the package is loaded then. -/
theorem repeats_prepare (hregular : Regular m) (hsince : Extends first m)
    {refs : List (SourceFile × Node Mark)} (hrun : prepare disk name m = .ok refs m') :
    Regular m' ∧ Extends m m' ∧ refs = references (m'.packageFiles name) ∧
      Ready first last m' name ∧ (Extends m' last → prepare disk name last = .ok refs last) := by
  obtain ⟨_, m₁, hload, -⟩ := bind_eq_ok.mp hrun
  rw [prepare_of_loadPackage hload] at hrun
  obtain ⟨_, m₂, himports, hrefs⟩ := bind_eq_ok.mp hrun
  cases hrefs
  obtain ⟨hregular₁, hextends₁, -, hagain₁⟩ := repeats_loadPackage hdisk hquiet hregular hsince () m₁ hload
  have hsince₁ := hsince.trans hextends₁
  obtain ⟨hregular₂, hextends₂, -, hagain₂⟩ :=
    repeats_forM_loadPackage hdisk hquiet hregular₁ hsince₁ () m' himports
  have hready₁ := ready_of_loadPackage hdisk hquiet hregular hsince hload
  have hready₂ := hready₁.mono hquiet hregular₁ hsince₁ hextends₂
  refine ⟨hregular₂, hextends₁.trans hextends₂, rfl, hready₂, fun huntil => ?_⟩
  -- the package is the same in the end, and so are its imports and its files
  have hsame₁ := hready₁.find?_packages hquiet hregular₁ hsince₁ (hextends₂.trans huntil)
  have hsame₂ := hready₂.find?_packages hquiet hregular₂ (hsince₁.trans hextends₂) huntil
  have hfiles : last.packageFiles name = m'.packageFiles name := by rw [packageFiles, packageFiles, hsame₂]
  rw [prepare_of_loadPackage (hagain₁ (hextends₂.trans huntil)), hsame₁, bind_of_ok (hagain₂ huntil), ← hfiles]
  rfl

end

/-! ## Answers -/

/-- What a reference of a package means in the end. -/
def Answers (disk : Disk) (last : Manager) (package : String) (ref : SourceFile × Node Mark) (r : Resolution) : Prop :=
  resolveWithin disk aliasLimit ref.1 package ref.2 last = .ok r last

end Managed

namespace Manager

variable {disk : Disk} {first last m m' : Manager} {package : String}

/-- The answer that is kept for a reference. -/
def keptFor (m : Manager) (ref : SourceFile × Node Mark) : Option Resolution :=
  m.resolution? ref.1.path ref.2.tag.id

/-- If all references are resolved, the answers that are kept are those that are right in the end. `all` are the
references whose answers count, no two of which have one place. -/
theorem keptFor_of_failures {refs all : List (SourceFile × Node Mark)} (hdisk : disk.root.WellNamed)
    (hquiet : Quiet first last)
    (hall : ∀ a ∈ all, ∀ b ∈ all, a.1.path = b.1.path ∧ a.2.tag.id = b.2.tag.id → a = b) (hrefs : refs ⊆ all)
    (hregular : Regular m) (hsince : Extends first m) (hready : Ready first last m package)
    (hrun : failures disk package refs m = .ok [] m') :
    Extends m m' ∧ (Extends m' last →
      (∀ ref ∈ refs, ∃ r, Answers disk last package ref r ∧ m'.keptFor ref = some r) ∧
        ∀ ref ∈ all, ∀ r, Answers disk last package ref r → m.keptFor ref = some r → m'.keptFor ref = some r) := by
  induction refs generalizing m with
  | nil =>
    cases hrun
    exact ⟨.refl m', fun _ => ⟨nofun, fun _ _ _ _ h => h⟩⟩
  | cons ref refs ih =>
    obtain ⟨href, hrefs⟩ := List.cons_subset.mp hrefs
    obtain ⟨r, m₂, hfirst, hrest⟩ := failures_cons_eq_nil.mp hrun
    obtain ⟨m₁, hwithin, rfl⟩ := resolveReference_eq_ok.mp hfirst
    obtain ⟨hregular₁, hextends₁, hsame, hagain⟩ :=
      (lookups_repeats hdisk hquiet).resolveWithin aliasLimit ref.1 package ref.2 m hready hregular hsince r m₁ hwithin
    have hkeep := m₁.extends_keep ref.1.path ref.2.tag.id r
    have hextends₂ := hextends₁.trans hkeep
    obtain ⟨hextends₃, hothers⟩ := ih hrefs (hregular₁.keep hdisk _ _ _) (hsince.trans hextends₂)
      (hready.mono hquiet hregular hsince hextends₂) hrest
    refine ⟨hextends₂.trans hextends₃, fun huntil => ?_⟩
    obtain ⟨hrefs', hstay⟩ := hothers huntil
    have hanswer : Answers disk last package ref r := hagain (hkeep.trans (hextends₃.trans huntil))
    refine ⟨List.forall_mem_cons.mpr ⟨⟨r, hanswer, hstay ref href r hanswer ?_⟩, hrefs'⟩, ?_⟩
    · rw [keptFor, resolution?_keep, if_pos ⟨rfl, rfl⟩]
    · intro other hother r' hanswer' hkept
      refine hstay other hother r' hanswer' ?_
      rw [keptFor, resolution?_keep]
      split
      · next hplace =>
        -- one place has one reference, and that has one answer
        cases hall other hother ref href hplace
        cases hanswer.symm.trans hanswer'
        rfl
      · rwa [resolution?, hsame]

/-! ## The tables of answers -/

/-- The tables of answers are in order. -/
def Ordered (m : Manager) : Prop :=
  m.resolutions.Sorted ∧ ∀ path t, m.resolutions.find? path = some t → t.Sorted

theorem ordered_empty : empty.Ordered := ⟨.nil, nofun⟩

/-- An answer that is kept can be kept again. -/
theorem Ordered.keep_of_resolution? {path : Path} {id : Nat} {r : Resolution} (hm : m.Ordered)
    (hr : m.resolution? path id = some r) : m.keep path id r = m := by
  obtain ⟨t, ht, hid⟩ := Option.bind_eq_some_iff.mp hr
  have hsame : m.resolutions.alter path (fun t => Table.insert id r (t.getD [])) = m.resolutions := by
    rw [Table.alter, ht, Option.getD_some, (hm.2 path t ht).insert_of_find? hid, hm.1.insert_of_find? ht]
  rw [keep, hsame]

theorem Ordered.keep (hm : m.Ordered) (path : Path) (id : Nat) (r : Resolution) : (m.keep path id r).Ordered := by
  refine ⟨hm.1.insert, ?_⟩
  intro other t ht
  rw [Manager.keep, Table.alter, Table.find?_insert] at ht
  split at ht
  · cases ht
    cases hold : m.resolutions.find? path with
    | none => exact Table.Sorted.insert .nil
    | some t => exact (hm.2 path t hold).insert
  · exact hm.2 other t ht

theorem Ordered.congr (hm : m.Ordered) (h : m'.resolutions = m.resolutions) : m'.Ordered := by
  unfold Ordered
  rw [h]
  exact hm

theorem Move.ordered {o : Option PackageError} (h : Move disk m o m') (hm : m.Ordered) : m'.Ordered := by
  rcases h.resolutions_eq with hsame | ⟨path, id, r, rfl⟩
  · exact hm.congr hsame
  · exact hm.keep path id r

theorem Moves.ordered {errors : List PackageError} (h : Moves disk m errors m') (hm : m.Ordered) : m'.Ordered := by
  induction h with
  | done m => exact hm
  | step hmove _ ih => exact ih (hmove.ordered hm)

theorem Leads.ordered {allowed : Manager → Operation → Prop} (h : Leads allowed empty m) : m.Ordered := by
  induction h with
  | refl => exact ordered_empty
  | step disk op _ _ _ ih =>
    obtain ⟨errors, hmoves⟩ := op.moves_after
    exact hmoves.ordered ih

/-! ## Packages -/

/-- Two references of one number in one file are one reference. -/
theorem Coherent.references_distinct (hm : m.Coherent) (name : String) :
    ∀ a ∈ references (m.packageFiles name), ∀ b ∈ references (m.packageFiles name),
      a.1.path = b.1.path ∧ a.2.tag.id = b.2.tag.id → a = b := by
  rintro a ha b hb ⟨hpath, hid⟩
  obtain ⟨f, hf, hmem⟩ := List.mem_flatMap.mp ha
  obtain ⟨node, hnode, rfl⟩ := List.mem_map.mp hmem
  obtain ⟨g, hg, hmem⟩ := List.mem_flatMap.mp hb
  obtain ⟨other, hother, rfl⟩ := List.mem_map.mp hmem
  obtain ⟨p, hp, hf⟩ := mem_packageFiles.mp hf
  obtain ⟨q, hq, hg⟩ := mem_packageFiles.mp hg
  have hfound := (hm.find?_of_mem hp hf).2
  have hfound' := (hm.find?_of_mem hq hg).2
  rw [hpath] at hfound
  cases hfound.symm.trans hfound'
  have hlaid := hm.laid hfound
  have helem := Ast.getElem?_of_mem_customTypes hlaid hnode
  have helem' := Ast.getElem?_of_mem_customTypes hlaid hother
  rw [hid] at helem
  cases helem.symm.trans helem'
  rfl

/-- Where each reference has its answer, they can all be resolved again. -/
theorem failures_again {refs : List (SourceFile × Node Mark)} (hm : m.Ordered)
    (h : ∀ ref ∈ refs, ∃ r, Answers disk m package ref r ∧ m.keptFor ref = some r) :
    failures disk package refs m = .ok [] m := by
  induction refs with
  | nil => rfl
  | cons ref refs ih =>
    obtain ⟨⟨r, hanswer, hkept⟩, hrefs⟩ := List.forall_mem_cons.mp h
    refine failures_cons_eq_nil.mpr ⟨r, m, ?_, ih hrefs⟩
    exact resolveReference_eq_ok.mpr ⟨m, hanswer, (hm.keep_of_resolution? hkept).symm⟩

/-- A package that was resolved can be resolved again, and nothing at all changes, if the first time no include
directory was added and every file that came in is where its package is noted to be. -/
theorem resolvePackage_again {allowed : Manager → Operation → Prop} {name : String} (hdisk : disk.root.WellNamed)
    (h : Leads allowed empty m) (hrun : resolvePackage disk name m = .ok () m') (hquiet : Quiet m m') :
    resolvePackage disk name m' = .ok () m' := by
  obtain ⟨refs, m₁, hprepare, hfailures⟩ := resolvePackage_eq_ok.mp hrun
  obtain ⟨hregular₁, hextends, rfl, hready, hagain⟩ :=
    repeats_prepare hdisk hquiet h.regular (.refl m) hprepare
  obtain ⟨hextends', hanswers⟩ := keptFor_of_failures hdisk hquiet (hregular₁.coherent.references_distinct name)
    (List.Subset.refl _) hregular₁ hextends hready hfailures
  have hordered : m'.Ordered := by
    have hmoves := moves_errorsIn.ok _ _ (ends_resolvePackage.ok () m' hrun)
    exact hmoves.ordered h.ordered
  refine resolvePackage_eq_ok.mpr ⟨_, m', hagain hextends', ?_⟩
  exact failures_again hordered (hanswers (.refl m')).1

/-- A run is quiet if each of the files there are in the end was known or is where its package is noted to be. -/
theorem Quiet.of_entries (hincludes : m'.includes = m.includes)
    (hfiles : ∀ entry ∈ m'.files, (m.files.find? entry.1).isSome = true ∨
      entry.1 ∈ ((m'.located.find? entry.2.package).map (·.2)).getD []) : Quiet m m' := by
  refine ⟨hincludes, fun path f paths hf hnew hnoted => ?_⟩
  rcases hfiles (path, f) (Table.mem_of_find? hf) with hold | hlocated
  · simp [hnew] at hold
  · simpa [hnoted] using hlocated

end Manager

/-! ## Three disks -/

/-- A disk with a package that uses a type of another through a type name, and imports it. -/
def Disk.shelf : Disk :=
  ⟨.directory [("lib", .directory [
    ("a", .directory [("x.qi", .file (some "package a\nstruct Point\nend\ntypedef Point Alias\n"))]),
    ("b", .directory [("y.qi", .file (some "package b\nimport a\nstruct Use\n  p Alias\n  u Use\nend\n"))])])], []⟩

theorem Disk.wellNamed_shelf : Disk.shelf.root.WellNamed := by
  simp [Disk.shelf]

theorem Manager.resolvePackage_again_shelf :
    let m := (Operation.addInclude "/lib").after .shelf .empty
    Leads (fun _ _ => True) .empty m ∧ ∃ m', resolvePackage .shelf "b" m = .ok () m' ∧ Quiet m m' ∧
      m'.files.keys = ([["lib", "a", "x.qi"], ["lib", "b", "y.qi"]] : List Path) ∧ resolvePackage .shelf "b" m' = .ok () m' := by
  intro m
  have hleads : Leads (fun _ _ => True) .empty m := .step _ _ .refl Disk.wellNamed_shelf trivial
  have hcheck : succeedsWith (resolvePackage .shelf "b") m (fun _ m' =>
      decide (m'.files.keys = ([["lib", "a", "x.qi"], ["lib", "b", "y.qi"]] : List Path)) && decide (m'.includes = m.includes) &&
        decide (∀ entry ∈ m'.files, (m.files.find? entry.1).isSome = true ∨
          entry.1 ∈ ((m'.located.find? entry.2.package).map (·.2)).getD [])) = true := by decide +kernel
  obtain ⟨_, m', hrun, htest⟩ := exists_of_succeedsWith hcheck
  simp only [Bool.and_eq_true, decide_eq_true_eq] at htest
  obtain ⟨⟨hkeys, hincludes⟩, hfiles⟩ := htest
  have hquiet : Quiet m m' := .of_entries hincludes hfiles
  exact ⟨hleads, m', hrun, hquiet, hkeys, resolvePackage_again Disk.wellNamed_shelf hleads hrun hquiet⟩

/-- A disk with files of two packages in one directory, one of which is also in another place. -/
def Disk.nested : Disk :=
  ⟨.directory [
    ("p", .directory [("q", .directory [
      ("a.qi", .file (some "package p.q\nstruct A\nend\n")), ("b.qi", .file (some "package q\nstruct B\nend\n"))])]),
    ("o", .directory [("q", .directory [("c.qi", .file (some "package q\nstruct C\nend\n"))])])], []⟩

/-- A disk with a package in a directory that is passed over. -/
def Disk.hidden : Disk :=
  ⟨.directory [("target", .directory [("a", .directory [
    ("f.qi", .file (some "package target.a\nstruct F\nend\n")),
    ("g.qi", .file (some "package target.a\nimport a\nstruct G\nend\n")),
    ("h.qi", .file (some "package a\nstruct H\nend\n"))])])], []⟩

/-- Where a run is not quiet, resolving again can bring in what the first time did not: because an include directory
was added the first time, or because a file came in where its package is not located. -/
theorem Manager.resolvePackage_again_differs :
    (Disk.nested.root.WellNamed ∧ ∃ m m' m'', LeadsOn .nested .empty m ∧ resolvePackage .nested "q" m = .ok () m' ∧
      resolvePackage .nested "q" m' = .ok () m'' ∧ (m'.findExport "q" "C").isNone = true ∧
      (m''.findExport "q" "C").isSome = true) ∧
    Disk.hidden.root.WellNamed ∧ ∃ m m' m'', LeadsOn .hidden .empty m ∧ resolvePackage .hidden "target.a" m = .ok () m' ∧
      resolvePackage .hidden "target.a" m' = .ok () m'' ∧ (m'.findExport "target.a" "F").isNone = true ∧
      (m''.findExport "target.a" "F").isSome = true ∧ m''.includes = m.includes := by
  refine ⟨⟨?_, ?_⟩, ?_, ?_⟩
  · simp [Disk.nested]
  · let m := (Operation.addInclude "/p").after .nested .empty
    have hcheck : succeedsWith (resolvePackage .nested "q") m (fun _ m' =>
        (m'.findExport "q" "C").isNone && succeedsWith (resolvePackage .nested "q") m' fun _ m'' =>
          (m''.findExport "q" "C").isSome) = true := by decide +kernel
    obtain ⟨_, m', hfirst, htest⟩ := exists_of_succeedsWith hcheck
    obtain ⟨hnone, htest⟩ := Bool.and_eq_true_iff.mp htest
    obtain ⟨_, m'', hsecond, hsome⟩ := exists_of_succeedsWith htest
    exact ⟨m, m', m'', .step _ .refl, hfirst, hsecond, hnone, hsome⟩
  · simp [Disk.hidden]
  · let m := (Operation.addInclude "/target").after .hidden <|
      (Operation.parseFile "/target/a/g.qi").after .hidden .empty
    have hcheck : succeedsWith (resolvePackage .hidden "target.a") m (fun _ m' =>
        (m'.findExport "target.a" "F").isNone && succeedsWith (resolvePackage .hidden "target.a") m' fun _ m'' =>
          (m''.findExport "target.a" "F").isSome && decide (m''.includes = m.includes)) = true := by decide +kernel
    obtain ⟨_, m', hfirst, htest⟩ := exists_of_succeedsWith hcheck
    obtain ⟨hnone, htest⟩ := Bool.and_eq_true_iff.mp htest
    obtain ⟨_, m'', hsecond, htest⟩ := exists_of_succeedsWith htest
    obtain ⟨hsome, hincludes⟩ := Bool.and_eq_true_iff.mp htest
    exact ⟨m, m', m'', .step _ (.step _ .refl), hfirst, hsecond, hnone, hsome, of_decide_eq_true hincludes⟩

end QiIdl
