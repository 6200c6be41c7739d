import Mathlib.Data.List.Sort
import QiIdl.Package.Manager
import QiIdl.Proofs.Disk.Names
import QiIdl.Proofs.Table
import QiIdl.Proofs.Text.Pieces

/-!
# Where packages are

To locate a package, one walk looks for directories whose path ends with the segments of the package, and from each of
these a second walk looks for source files. Include directories may lie in each other, and so may the directories of a
package, so a file can be found in many ways. What is located does not depend on that (`locate_eq_sources_below`): it
is a set of files in increasing order, and a file is in it if there is any way to it, down from any include directory,
on which no directory is passed over and each shows what comes next.

The last is no formality. Walks swallow whatever goes wrong when a directory is listed, so what it does not show is as
good as not there. And a directory is passed over by a name that is a text, so one that starts with a dot but is no text
is searched.

Ways through a tree are first told by a relation of their own (`Entry.Open`), since a walk goes down by what a directory
shows. That a path leads to one entry only is needed just once, where a way is read off a path
(`Entry.Distinct.open_iff`).
-/

namespace QiIdl

open Std

/-- A directory of this name is searched: it neither starts with a dot nor is `target`, as far as it is a text. -/
def Name.IsSearched (name : Name) : Prop := ∀ s, name = .text s → s.toList.head? ≠ some '.' ∧ s ≠ "target"

/-- A name with the extension of source files behind something. -/
inductive Name.IsQi : Name → Prop
  | text {stem : String} : stem ≠ "" → IsQi (.text (stem ++ ".qi"))
  | raw {bytes : ByteArray} (h : ¬bytes.IsValidUTF8) {stem : List UInt8} : stem ≠ [] →
      bytes.data.toList = stem ++ (Name.text ".qi").bytes → IsQi (.raw bytes h)

theorem isHidden_eq_false_iff {name : Name} : isHidden name = false ↔ name.IsSearched := by
  cases name <;> simp [isHidden, Name.IsSearched]

theorem splitText_eq_iff {file : String} : (Name.splitText file).2 = some "qi" ↔ ∃ stem, stem ≠ "" ∧ file = stem ++ ".qi" := by
  have hdot (stem : String) : stem ++ ".qi" = stem ++ "." ++ "qi" := by rw [String.append_assoc]; rfl
  constructor
  · intro h
    cases hsplit : Text.splitLast file with
    | none => simp [Name.splitText, hsplit] at h
    | some cut =>
      obtain ⟨stem, extension⟩ := cut
      have hstem : stem ≠ "" ∧ extension = "qi" := by
        by_cases hempty : stem = ""
        · simp [Name.splitText, hsplit, hempty] at h
        · simpa [Name.splitText, hsplit, hempty] using h
      obtain ⟨hname, -⟩ := Text.splitLast_eq_some hsplit
      exact ⟨stem, hstem.1, by rw [hname, hstem.2, hdot]⟩
  · rintro ⟨stem, hstem, rfl⟩
    have hsplit : Text.splitLast (stem ++ "." ++ "qi") = some (stem, "qi") := Text.splitLast_snoc (by decide)
    simp [hdot, Name.splitText, hsplit, hstem]

theorem isSource_iff {file : Name} : isSource file = true ↔ file.IsQi := by
  cases file with
  | text s =>
    rw [isSource, beq_iff_eq, splitText_eq_iff]
    constructor
    · rintro ⟨stem, hstem, rfl⟩
      exact .text hstem
    · intro h
      cases h with
      | text hstem => exact ⟨_, hstem, rfl⟩
  | raw bytes hbytes =>
    rw [isSource, Bool.and_eq_true, List.isSuffixOf_iff_suffix, bne_iff_ne]
    constructor
    · rintro ⟨⟨stem, hstem⟩, hne⟩
      refine .raw hbytes (fun hempty => hne ?_) hstem.symm
      rw [← hstem, hempty, List.nil_append]
    · intro h
      cases h with
      | raw _ hstem heq => exact ⟨⟨_, heq.symm⟩, fun hends => hstem (List.self_eq_append_left.mp (hends.symm.trans heq))⟩

namespace Entry

/-! ## Open ways -/

/-- A way down to an entry through directories, each of which shows the next. None of them is passed over. -/
inductive Open : Entry → Path → Entry → Prop
  | here {e : Entry} : Open e [] e
  | down {es : List (Name × Entry)} {shows : Name → Bool} {name : Name} {child found : Entry} {way : Path} :
      (name, child) ∈ es → shows name = true → child.isDirectory = true → isHidden name = false → Open child way found →
      Open (.directory es shows) (name :: way) found

/-- An open way leads to a directory that shows a source file. -/
def HasSource (e : Entry) (way : Path) (file : Name) : Prop :=
  isSource file = true ∧ ∃ es shows text, e.Open way (.directory es shows) ∧ (file, Entry.file text) ∈ es ∧
    shows file = true

variable {e child found : Entry} {es : List (Name × Entry)} {shows : Name → Bool} {name file : Name}
  {place path way way' : Path}

theorem Open.append {mid : Entry} (h : e.Open way mid) (h' : mid.Open way' found) : e.Open (way ++ way') found := by
  induction h with
  | here => exact h'
  | down hchild hshows hdirectory hopen _ ih => exact .down hchild hshows hdirectory hopen (ih h')

theorem open_append_iff : e.Open (way ++ way') found ↔ ∃ mid, e.Open way mid ∧ mid.Open way' found := by
  refine ⟨fun h => ?_, fun ⟨_, h, h'⟩ => h.append h'⟩
  induction way generalizing e with
  | nil => exact ⟨e, .here, h⟩
  | cons name way ih =>
    cases h with
    | down hchild hshows hdirectory hopen hway =>
      obtain ⟨mid, hmid, hfound⟩ := ih hway
      exact ⟨mid, .down hchild hshows hdirectory hopen hmid, hfound⟩

/-- Names on a way down stand for themselves, if all names do. -/
theorem Open.isCanonical (h : e.Open way found) (he : e.WellNamed) : way.IsCanonical ∧ found.WellNamed := by
  induction h with
  | here => exact ⟨List.forall_mem_nil _, he⟩
  | down hchild _ _ _ _ ih =>
    obtain ⟨hname, hwell⟩ := AllWellNamed.of_mem he hchild
    obtain ⟨hway, hfound⟩ := ih hwell
    exact ⟨List.forall_mem_cons.mpr ⟨hname, hway⟩, hfound⟩

theorem hasSource_append_iff : e.HasSource (way ++ way') file ↔ ∃ mid, e.Open way mid ∧ mid.HasSource way' file := by
  constructor
  · rintro ⟨hsource, es, shows, text, hopen, hfile⟩
    obtain ⟨mid, hmid, hway⟩ := open_append_iff.mp hopen
    exact ⟨mid, hmid, hsource, es, shows, text, hway, hfile⟩
  · rintro ⟨mid, hmid, hsource, es, shows, text, hway, hfile⟩
    exact ⟨hsource, es, shows, text, hmid.append hway, hfile⟩

/-! ## What the walks find -/

mutual

/-- What holds of directories if it holds of all that is in them holds of every entry. -/
theorem induct {P : Entry → Prop} (file : ∀ text, P (.file text))
    (directory : ∀ es shows, (∀ name child, (name, child) ∈ es → P child) → P (.directory es shows)) : ∀ e, P e
  | .file text => file text
  | .directory es shows => directory es shows (inductAmong file directory es)

theorem inductAmong {P : Entry → Prop} (file : ∀ text, P (.file text))
    (directory : ∀ es shows, (∀ name child, (name, child) ∈ es → P child) → P (.directory es shows)) :
    ∀ (es : List (Name × Entry)) name child, (name, child) ∈ es → P child
  | [], _, _, h => absurd h List.not_mem_nil
  | (_, e) :: es, name, child, h => by
    rcases List.mem_cons.mp h with heq | h
    · cases heq
      exact induct file directory e
    · exact inductAmong file directory es name child h

end

theorem mem_sourcesAmong : path ∈ sourcesAmong place shows es ↔ ∃ name child, (name, child) ∈ es ∧ shows name = true ∧
    (child.isDirectory = true ∧ isHidden name = false ∧ path ∈ child.sources (place ++ [name]) ∨
      child.isDirectory = false ∧ isSource name = true ∧ path = place ++ [name]) := by
  induction es with
  | nil => simp [sourcesAmong]
  | cons head es ih =>
    obtain ⟨name, e⟩ := head
    simp only [sourcesAmong, List.mem_append, ih, List.mem_cons, Prod.mk.injEq, or_and_right, exists_or, and_assoc, exists_and_left,
      exists_eq_left]
    refine or_congr_left ?_
    cases shows name <;> cases e.isDirectory <;> cases isHidden name <;> cases isSource name <;> simp

theorem mem_sources_iff (e : Entry) (place : Path) :
    path ∈ e.sources place ↔ ∃ way file, path = place ++ way ++ [file] ∧ e.HasSource way file := by
  induction e using induct generalizing place with
  | file text =>
    constructor
    · intro h
      cases h
    · rintro ⟨way, file, -, -, es, shows, text, hopen, -⟩
      cases hopen
  | directory es shows ih =>
    rw [sources, mem_sourcesAmong]
    constructor
    · rintro ⟨name, child, hchild, hshows, ⟨hdirectory, hopen, hpath⟩ | ⟨hfile, hsource, rfl⟩⟩
      · obtain ⟨way, file, rfl, hsource, es', shows', text, hway, hfile⟩ := (ih name child hchild _).mp hpath
        exact ⟨name :: way, file, by simp, hsource, es', shows', text, .down hchild hshows hdirectory hopen hway, hfile⟩
      · cases child with
        | file text => exact ⟨[], name, by simp, hsource, es, shows, text, .here, hchild, hshows⟩
        | directory => cases hfile
    · rintro ⟨way, file, rfl, hsource, es', shows', text, hopen, hfile, hshown⟩
      cases hopen with
      | here => exact ⟨file, .file text, hfile, hshown, .inr ⟨rfl, hsource, by simp⟩⟩
      | down hchild hshows hdirectory hopen hway =>
        refine ⟨_, _, hchild, hshows, .inl ⟨hdirectory, hopen, (ih _ _ hchild _).mpr ?_⟩⟩
        exact ⟨_, file, by simp, hsource, es', shows', text, hway, hfile, hshown⟩

theorem mem_directoriesAmong : (path, found) ∈ directoriesAmong place shows es ↔ ∃ name child, (name, child) ∈ es ∧
    shows name = true ∧ child.isDirectory = true ∧ isHidden name = false ∧
      (path, found) ∈ child.directories (place ++ [name]) := by
  induction es with
  | nil => simp [directoriesAmong]
  | cons head es ih =>
    obtain ⟨name, e⟩ := head
    simp only [directoriesAmong, List.mem_append, ih, List.mem_cons, Prod.mk.injEq, or_and_right, exists_or, and_assoc, exists_and_left,
      exists_eq_left]
    refine or_congr_left ?_
    cases shows name <;> cases e.isDirectory <;> cases isHidden name <;> simp

theorem mem_directories_iff (e : Entry) (place : Path) :
    (path, found) ∈ e.directories place ↔ ∃ way, path = place ++ way ∧ e.Open way found := by
  induction e using induct generalizing place with
  | file text =>
    constructor
    · intro h
      cases List.mem_singleton.mp h
      exact ⟨[], by simp, .here⟩
    · rintro ⟨way, rfl, hopen⟩
      cases hopen
      simp [directories]
  | directory es shows ih =>
    rw [directories, List.mem_cons, mem_directoriesAmong]
    constructor
    · rintro (heq | ⟨name, child, hchild, hshows, hdirectory, hopen, hfound⟩)
      · cases heq
        exact ⟨[], by simp, .here⟩
      · obtain ⟨way, rfl, hway⟩ := (ih name child hchild _).mp hfound
        exact ⟨name :: way, by simp, .down hchild hshows hdirectory hopen hway⟩
    · rintro ⟨way, rfl, hopen⟩
      cases hopen with
      | here => simp
      | down hchild hshows hdirectory hopen hway =>
        exact .inr ⟨_, _, hchild, hshows, hdirectory, hopen, (ih _ _ hchild _).mpr ⟨_, by simp, hway⟩⟩

theorem mem_packageSources_iff {segments : Path} : path ∈ e.packageSources segments place ↔
    ∃ relative between file, path = place ++ relative ++ between ++ [file] ∧ segments <:+ relative ∧
      e.HasSource (relative ++ between) file := by
  rw [packageSources, List.mem_flatMap]
  constructor
  · rintro ⟨⟨relative, found⟩, hfound, hpath⟩
    obtain ⟨_, rfl, hopen⟩ := (mem_directories_iff e []).mp hfound
    dsimp only at hpath
    split at hpath
    · next hends =>
      obtain ⟨between, file, hpath, hsource⟩ := (mem_sources_iff found _).mp hpath
      refine ⟨_, between, file, hpath, List.isSuffixOf_iff_suffix.mp hends, ?_⟩
      exact hasSource_append_iff.mpr ⟨found, hopen, hsource⟩
    · cases hpath
  · rintro ⟨relative, between, file, hpath, hends, hsource⟩
    obtain ⟨found, hopen, hsource⟩ := hasSource_append_iff.mp hsource
    refine ⟨(relative, found), (mem_directories_iff e []).mpr ⟨relative, rfl, hopen⟩, ?_⟩
    dsimp only
    rw [if_pos (List.isSuffixOf_iff_suffix.mpr hends)]
    exact (mem_sources_iff found _).mpr ⟨between, file, hpath, hsource⟩

/-! ## Trees whose paths lead to one entry -/

mutual

/-- No directory below an entry has two entries of one name. -/
def Distinct : Entry → Prop
  | .file _ => True
  | .directory es _ => AllDistinct es

/-- No two of some entries have one name, nor do any two in a directory below them. -/
def AllDistinct : List (Name × Entry) → Prop
  | [] => True
  | (name, e) :: rest => name ∉ rest.map (·.1) ∧ e.Distinct ∧ AllDistinct rest

end

theorem AllDistinct.lookup_iff (h : AllDistinct es) : es.lookup name = some child ↔ (name, child) ∈ es := by
  induction es with
  | nil => simp
  | cons head es ih =>
    obtain ⟨first, e⟩ := head
    obtain ⟨hfirst, -, hrest⟩ := h
    rw [List.lookup_cons, List.mem_cons, Prod.mk.injEq]
    by_cases heq : name = first
    · subst heq
      have hnot : (name, child) ∉ es := fun hmem => hfirst (List.mem_map_of_mem hmem)
      simp [hnot, eq_comm]
    · rw [beq_eq_false_iff_ne.mpr heq]
      simp [heq, ih hrest]

theorem AllDistinct.of_mem (h : AllDistinct es) (hmem : (name, child) ∈ es) : child.Distinct := by
  induction es with
  | nil => cases hmem
  | cons head es ih =>
    obtain ⟨first, e⟩ := head
    obtain ⟨-, hfirst, hrest⟩ := h
    rcases List.mem_cons.mp hmem with heq | hmem
    · cases heq
      exact hfirst
    · exact ih hrest hmem

theorem find?_append (e : Entry) (path path' : Path) :
    e.find? (path ++ path') = (e.find? path).bind (·.find? path') := by
  induction path generalizing e with
  | nil => rfl
  | cons name path ih =>
    rw [List.cons_append, find?, find?]
    cases e.entries.lookup name with
    | none => rfl
    | some child => exact ih child

theorem Distinct.find?_cons_iff (h : (directory es shows).Distinct) :
    (directory es shows).find? (name :: path) = some found ↔
      ∃ child, (name, child) ∈ es ∧ child.find? path = some found := by
  rw [Entry.find?]
  simp only [← AllDistinct.lookup_iff h, entries]
  cases es.lookup name <;> simp

theorem Distinct.find? (h : e.Distinct) (hfound : e.find? path = some found) : found.Distinct := by
  induction path generalizing e with
  | nil =>
    cases hfound
    exact h
  | cons name path ih =>
    cases e with
    | file => cases hfound
    | directory es shows =>
      obtain ⟨child, hchild, hfound⟩ := h.find?_cons_iff.mp hfound
      exact ih (AllDistinct.of_mem h hchild) hfound

/-- Above whatever is found there are directories only, each with the next name in it. -/
theorem find?_append_cons_eq_some (h : e.find? (path ++ name :: way) = some found) :
    ∃ es shows child, e.find? path = some (.directory es shows) ∧ es.lookup name = some child ∧
      child.find? way = some found := by
  rw [find?_append] at h
  obtain ⟨mid, hmid, hrest⟩ := Option.bind_eq_some_iff.mp h
  rw [find?] at hrest
  cases mid with
  | file => cases hrest
  | directory es shows =>
    cases hlookup : es.lookup name with
    | none =>
      simp only [entries, hlookup] at hrest
      cases hrest
    | some child =>
      simp only [entries, hlookup] at hrest
      exact ⟨es, shows, child, hmid, hlookup, hrest⟩

/-- Whether what a path leads to is come upon by listing: each directory on the way shows the next name. -/
def lists : Entry → Path → Bool
  | _, [] => true
  | e, name :: rest => e.shows name && (e.entries.lookup name).any (·.lists rest)

theorem lists_append (e : Entry) (path path' : Path) :
    e.lists (path ++ path') = (e.lists path && (e.find? path).all (·.lists path')) := by
  induction path generalizing e with
  | nil => simp [lists, Entry.find?]
  | cons name path ih =>
    rw [List.cons_append, lists, lists, Entry.find?]
    cases e.entries.lookup name with
    | none => simp
    | some child => simp [ih, Bool.and_assoc]

/-- A path leads to a directory by an open way, if none of its names is passed over and each is shown. -/
theorem open_of_find? (h : e.find? way = some (.directory es shows)) (hway : ∀ name ∈ way, isHidden name = false)
    (hlists : e.lists way = true) : e.Open way (.directory es shows) := by
  induction way generalizing e with
  | nil =>
    cases h
    exact .here
  | cons name way ih =>
    obtain ⟨hname, hrest⟩ := List.forall_mem_cons.mp hway
    have hfrom : e.find? ([] ++ name :: way) = some (.directory es shows) := h
    obtain ⟨es', shows', child, hhere, hlookup, hfound⟩ := find?_append_cons_eq_some hfrom
    cases hhere
    simp only [lists, entries, Entry.shows, hlookup, Option.any_some, Bool.and_eq_true] at hlists
    have hopen : child.Open way (.directory es shows) := ih hfound hrest hlists.2
    have hdirectory : child.isDirectory = true := by
      cases hopen <;> rfl
    obtain ⟨before, after, rfl, -⟩ := List.lookup_eq_some_iff.mp hlookup
    exact .down (by simp) hlists.1 hdirectory hname hopen

theorem Open.find? (h : e.Open way found) (he : e.Distinct) :
    e.find? way = some found ∧ (∀ name ∈ way, isHidden name = false) ∧ e.lists way = true := by
  induction h with
  | here => exact ⟨rfl, List.forall_mem_nil _, rfl⟩
  | down hchild hshows _ hopen _ ih =>
    obtain ⟨hfound, hrest, hlists⟩ := ih (AllDistinct.of_mem he hchild)
    have hlookup := (AllDistinct.lookup_iff he).mpr hchild
    refine ⟨he.find?_cons_iff.mpr ⟨_, hchild, hfound⟩, List.forall_mem_cons.mpr ⟨hopen, hrest⟩, ?_⟩
    simp [lists, entries, Entry.shows, hlookup, hshows, hlists]

/-- A way is open if it leads from directory to directory, none of the names on it is passed over, and each is shown. -/
theorem Distinct.open_iff (h : e.Distinct) : e.Open way (.directory es shows) ↔
    e.find? way = some (.directory es shows) ∧ (∀ name ∈ way, isHidden name = false) ∧ e.lists way = true :=
  ⟨fun hopen => hopen.find? h, fun hfound => open_of_find? hfound.1 hfound.2.1 hfound.2.2⟩

theorem Distinct.hasSource_iff (h : e.Distinct) : e.HasSource way file ↔
    (∀ name ∈ way, isHidden name = false) ∧ isSource file = true ∧ e.lists (way ++ [file]) = true ∧
      ∃ text, e.find? (way ++ [file]) = some (.file text) := by
  constructor
  · rintro ⟨hsource, es, shows, text, hopen, hfile, hshown⟩
    obtain ⟨hfound, hway, hlists⟩ := h.open_iff.mp hopen
    have hlookup := (AllDistinct.lookup_iff (h.find? hfound)).mpr hfile
    refine ⟨hway, hsource, ?_, text, ?_⟩
    · rw [lists_append, hlists, hfound]
      simp [lists, entries, Entry.shows, hlookup, hshown]
    · rw [find?_append, hfound]
      exact (h.find? hfound).find?_cons_iff.mpr ⟨_, hfile, rfl⟩
  · rintro ⟨hway, hsource, hlists, text, hfound⟩
    obtain ⟨es, shows, child, hlast, hlookup, hfile⟩ := find?_append_cons_eq_some hfound
    cases hfile
    rw [lists_append, hlast] at hlists
    simp only [lists, entries, Entry.shows, hlookup, Option.any_some, Option.all_some, Bool.and_true,
      Bool.and_eq_true] at hlists
    have hchild := (AllDistinct.lookup_iff (h.find? hlast)).mp hlookup
    exact ⟨hsource, es, shows, text, h.open_iff.mpr ⟨hlast, hway, hlists.1⟩, hchild, hlists.2⟩

end Entry

/-! ## What is located -/

/-- What lies some way below a directory is come upon by listing one directory after the other. -/
def Disk.Lists (disk : Disk) (root way : Path) : Prop := ∃ e, disk.root.find? root = some e ∧ e.lists way = true

/-- A source file of a package lies below a directory. On the way down to it there is a directory whose path ends with
the segments of the package. No directory on the way is passed over, and the file is come upon by listing. -/
def Disk.HasPackageSource (disk : Disk) (root segments path : Path) : Prop :=
  ∃ relative between file text, path = root ++ relative ++ between ++ [file] ∧ segments <:+ relative ∧
    (∀ directory ∈ relative ++ between, directory.IsSearched) ∧ file.IsQi ∧
    disk.Lists root (relative ++ between ++ [file]) ∧ disk.root.find? path = some (.file text)

/-- Where some include directories are. -/
def Include.places (disk : Disk) (includes : List Include) : List Path := includes.filterMap (·.place? disk)

variable {disk : Disk} {path segments : Path}

theorem mem_sortPaths_iff {paths : List Path} : path ∈ sortPaths paths ↔ path ∈ paths := by
  simp [sortPaths, Table.mem_keys_ofEntries]

theorem Include.mem_packageSources {i : Include} : path ∈ i.packageSources disk segments ↔ ∃ root e,
    i.place? disk = some root ∧ disk.root.find? root = some e ∧ path ∈ e.packageSources segments root := by
  unfold packageSources
  cases i.place? disk with
  | none => simp
  | some root => cases hroot : disk.root.find? root <;> simp [hroot]

theorem Include.mem_packageSources_iff {i : Include} (hdisk : disk.root.Distinct) :
    path ∈ i.packageSources disk segments ↔
      ∃ root, i.place? disk = some root ∧ disk.HasPackageSource root segments path := by
  rw [mem_packageSources]
  constructor
  · rintro ⟨root, e, hplace, hroot, hpath⟩
    obtain ⟨relative, between, file, rfl, hends, hsource⟩ := Entry.mem_packageSources_iff.mp hpath
    obtain ⟨hopen, hfile, hlists, text, hfound⟩ := (hdisk.find? hroot).hasSource_iff.mp hsource
    refine ⟨root, hplace, relative, between, file, text, rfl, hends, ?_, isSource_iff.mp hfile, ⟨e, hroot, hlists⟩, ?_⟩
    · exact fun directory hmem => isHidden_eq_false_iff.mp (hopen directory hmem)
    · rw [List.append_assoc root, List.append_assoc root, Entry.find?_append, hroot]
      exact hfound
  · rintro ⟨root, hplace, relative, between, file, text, rfl, hends, hopen, hfile, ⟨e, hroot, hlists⟩, hfound⟩
    rw [List.append_assoc root, List.append_assoc root, Entry.find?_append, hroot, Option.bind_some] at hfound
    have hsource : e.HasSource (relative ++ between) file := (hdisk.find? hroot).hasSource_iff.mpr
      ⟨fun directory hmem => isHidden_eq_false_iff.mpr (hopen directory hmem), isSource_iff.mpr hfile, hlists, text, hfound⟩
    exact ⟨root, e, hplace, hroot, Entry.mem_packageSources_iff.mpr ⟨relative, between, file, rfl, hends, hsource⟩⟩

/-- On a well named disk, files are located under canonical paths. -/
theorem isCanonical_of_mem_locate {includes : List Include} {name : String} (hdisk : disk.root.WellNamed)
    (hpath : path ∈ locate disk includes name) : path.IsCanonical := by
  unfold locate at hpath
  split at hpath
  · obtain ⟨i, -, hpath⟩ := List.mem_flatMap.mp (mem_sortPaths_iff.mp hpath)
    obtain ⟨root, e, -, hroot, hpath⟩ := Include.mem_packageSources.mp hpath
    obtain ⟨relative, between, file, rfl, -, -, es, shows, text, hopen, hfile, -⟩ :=
      Entry.mem_packageSources_iff.mp hpath
    obtain ⟨hcanonical, hwell⟩ := hdisk.find? hroot
    obtain ⟨hway, hes⟩ := hopen.isCanonical hwell
    rw [List.append_assoc root]
    refine List.forall_mem_append.mpr ⟨List.forall_mem_append.mpr ⟨hcanonical, hway⟩, ?_⟩
    exact List.forall_mem_singleton.mpr (Entry.AllWellNamed.of_mem hes hfile).1
  · cases hpath

/-- The directories of a package end with its segments, if these can be names of directories. -/
theorem packageDirectories?_eq {name : String}
    (hname : ∀ segment ∈ Text.segments name, segment ≠ "" ∧ '/' ∉ segment.toList) :
    packageDirectories? name = some (Path.ofPackage name) := by
  have hrelative : (Text.segments name).any isAbsolute = false := by
    rw [List.any_eq_false]
    intro segment hmem habsolute
    exact (hname segment hmem).2 (List.mem_of_head? (beq_iff_eq.mp habsolute))
  have hslash : ∀ segment ∈ Text.segments name, slashPieces segment = [Name.text segment] := by
    intro segment hmem
    rw [slashPieces, Text.pieces_of_not_mem (hname segment hmem).2, List.map_singleton, String.ofList_toList]
  have hpieces : (Text.segments name).flatMap slashPieces = Path.ofPackage name := by
    rw [List.flatMap_congr hslash, Path.ofPackage, List.map_eq_flatMap]
  have hfilter : (Path.ofPackage name).filter (fun (piece : Name) => piece != "") = Path.ofPackage name := by
    refine List.filter_eq_self.mpr (List.forall_mem_map.mpr fun segment hmem => ?_)
    simp [(hname segment hmem).1]
  simp only [packageDirectories?, hrelative, hpieces, hfilter]
  rfl

/-! ## In increasing order -/

/-- Lists compare as they are ordered, if what is in them does. -/
theorem compareList_eq_lt_iff {α : Type} [Ord α] [LawfulEqOrd α] [LT α]
    (h : ∀ a b : α, compare a b = .lt ↔ a < b) {as bs : List α} : compare as bs = .lt ↔ as < bs := by
  induction as generalizing bs with
  | nil => cases bs <;> simp [compare, List.compareLex]
  | cons a as ih =>
    cases bs with
    | nil => simp [compare, List.compareLex]
    | cons b bs =>
      have hcons : compare (a :: as) (b :: bs) = (compare a b).then (compare as bs) := List.compareLex_cons_cons
      rw [List.cons_lt_cons_iff, ← ih, hcons, Ordering.then_eq_lt, h, LawfulEqOrd.compare_eq_iff_eq]

theorem comparePath_eq_lt_iff {path path' : Path} : compare path path' = .lt ↔ path < path' := by
  refine compareList_eq_lt_iff fun name name' => ?_
  show compare name.bytes name'.bytes = .lt ↔ name.bytes < name'.bytes
  exact compareList_eq_lt_iff fun _ _ => compare_eq_lt

instance : Irrefl fun path path' : Path => path < path' where
  irrefl path h := by simp [← comparePath_eq_lt_iff] at h

instance : Antisymm fun path path' : Path => path < path' where
  antisymm path path' h h' := by
    have hswap : compare path path' = (compare path' path).swap := OrientedCmp.eq_swap
    rw [comparePath_eq_lt_iff.mpr h, comparePath_eq_lt_iff.mpr h'] at hswap
    cases hswap

theorem pairwise_sortPaths (paths : List Path) : (sortPaths paths).Pairwise (· < ·) :=
  List.pairwise_map.mpr ((Table.sorted_ofEntries _).imp comparePath_eq_lt_iff.mp)

theorem pairwise_locate (disk : Disk) (includes : List Include) (name : String) :
    (locate disk includes name).Pairwise (· < ·) := by
  unfold locate
  split
  · exact pairwise_sortPaths _
  · exact .nil

section

variable {name : String} (hdisk : disk.root.Distinct)
  (hname : ∀ segment ∈ Text.segments name, segment ≠ "" ∧ '/' ∉ segment.toList)
include hdisk hname

theorem mem_locate_iff {includes : List Include} : path ∈ locate disk includes name ↔
    ∃ root ∈ Include.places disk includes, disk.HasPackageSource root (.ofPackage name) path := by
  rw [locate, packageDirectories?_eq hname]
  simp only [mem_sortPaths_iff, List.mem_flatMap, Include.mem_packageSources_iff hdisk, Include.places,
    List.mem_filterMap]
  constructor
  · rintro ⟨i, hi, root, hplace, hsource⟩
    exact ⟨root, ⟨i, hi, hplace⟩, hsource⟩
  · rintro ⟨root, ⟨i, hi, hplace⟩, hsource⟩
    exact ⟨i, hi, root, hplace, hsource⟩

theorem locate_subset {includes others : List Include}
    (h : Include.places disk includes ⊆ Include.places disk others) :
    locate disk includes name ⊆ locate disk others name := by
  intro path hpath
  obtain ⟨root, hroot, hsource⟩ := (mem_locate_iff hdisk hname).mp hpath
  exact (mem_locate_iff hdisk hname).mpr ⟨root, h hroot, hsource⟩

/-- What is located for a package whose segments can be names of directories, in a tree where a directory has at most
one entry of a name. The paths increase, so none is there twice. They are those of the source files of the package
below any of the include directories, as far as directories show them. Of the include directories it only matters which
they are, not in what order or how often they are given; and with one more nothing is lost. -/
theorem locate_eq_sources_below (includes : List Include) :
    (locate disk includes name).Pairwise (· < ·) ∧
    (∀ path, path ∈ locate disk includes name ↔
      ∃ root ∈ Include.places disk includes, disk.HasPackageSource root (.ofPackage name) path) ∧
    (∀ others, (∀ root, root ∈ Include.places disk includes ↔ root ∈ Include.places disk others) →
      locate disk includes name = locate disk others name) ∧
    ∀ m : Manager, ∀ i, locate disk m.includes name ⊆ locate disk (m.addInclude i).includes name := by
  refine ⟨pairwise_locate disk includes name, fun path => mem_locate_iff hdisk hname, fun others hsame => ?_,
    fun m i => locate_subset hdisk hname ?_⟩
  · refine List.Pairwise.eq_of_mem_iff (pairwise_locate disk includes name) (pairwise_locate disk others name)
      fun path => ⟨fun h => ?_, fun h => ?_⟩
    · exact locate_subset hdisk hname (fun root => (hsame root).mp) h
    · exact locate_subset hdisk hname (fun root => (hsame root).mpr) h
  · rw [Manager.addInclude]
    split
    · exact fun _ h => h
    · exact List.filterMap_subset _ (List.subset_cons_self _ _)

end

/-- A disk where directories of a package `a.b` lie in each other, and some directories are passed over. -/
def Disk.overlapping : Disk :=
  ⟨.directory [("lib", .directory [
    ("target", .directory [("a", .directory [("b", .directory [("t.qi", .file none)])])]),
    ("a", .directory [("b", .directory [
      ("x.qi", .file none), ("notes", .file none), (".old", .directory [("x.qi", .file none)]),
      ("a", .directory [("b", .directory [("y.qi", .file none)])])])])])], []⟩

/-- Two include directories that lie in each other lead to the inner file in three ways, and it is located once. -/
theorem locate_eq_sources_below_overlapping :
    Disk.overlapping.root.Distinct ∧ (∀ segment ∈ Text.segments "a.b", segment ≠ "" ∧ '/' ∉ segment.toList) ∧
      locate .overlapping [.known ["lib"], .known ["lib", "a"]] "a.b" =
        ([["lib", "a", "b", "a", "b", "y.qi"], ["lib", "a", "b", "x.qi"]] : List Path) ∧
      locate .overlapping [.known ["lib"], .known ["lib", "a"]] "a.b" =
        locate .overlapping [.known ["lib", "a"], .unknown "/lib", .unknown "lib/../lib"] "a.b" ∧
      ∀ path, (Disk.overlapping.HasPackageSource ["lib"] ["a", "b"] path ∨
        Disk.overlapping.HasPackageSource ["lib", "a"] ["a", "b"] path) ↔
          path = ["lib", "a", "b", "a", "b", "y.qi"] ∨ path = ["lib", "a", "b", "x.qi"] := by
  have hdisk : Disk.overlapping.root.Distinct := by simp [Disk.overlapping, Entry.Distinct, Entry.AllDistinct]
  have hname : ∀ segment ∈ Text.segments "a.b", segment ≠ "" ∧ '/' ∉ segment.toList := by decide +kernel
  have hfiles : locate .overlapping [.known ["lib"], .known ["lib", "a"]] "a.b" =
      ([["lib", "a", "b", "a", "b", "y.qi"], ["lib", "a", "b", "x.qi"]] : List Path) := by decide +kernel
  obtain ⟨-, hmem, hsame, -⟩ := locate_eq_sources_below hdisk hname [.known ["lib"], .known ["lib", "a"]]
  have hplaces : Include.places .overlapping [.known ["lib", "a"], .unknown "/lib", .unknown "lib/../lib"] =
      ([["lib", "a"], ["lib"], ["lib"]] : List Path) := by decide +kernel
  refine ⟨hdisk, hname, hfiles, hsame _ fun root => ?_, fun path => ?_⟩
  · rw [hplaces]
    simp [Include.places, Include.place?, or_comm]
  · have hsegments : Path.ofPackage "a.b" = ["a", "b"] := by decide +kernel
    have hpath := hmem path
    rw [hfiles, hsegments] at hpath
    simpa [Include.places, Include.place?] using hpath.symm

/-! ## Against what one would expect -/

/-- A source file lies below a directory, and on the way down to it there is one whose path ends with the segments of a
package. No other directory on the way starts with a dot or is named `target`. -/
def Disk.LiesBelow (disk : Disk) (root segments path : Path) : Prop :=
  ∃ above between file text, path = root ++ above ++ segments ++ between ++ [file] ∧
    (∀ directory ∈ (above ++ segments).dropLast ++ between,
      directory.bytes.head? ≠ some 0x2E ∧ directory ≠ .text "target") ∧
    file.IsQi ∧ disk.root.find? path = some (.file text)

/-- The name of a dot and a byte that no text has. -/
def Name.dotted : Name := .raw ⟨#[0x2E, 0xFF]⟩ (by decide)

/-- A disk with a directory that cannot be listed, one that is passed over though it is that of a package, and one that
starts with a dot but is no text. -/
def Disk.reclusive : Disk :=
  ⟨.directory [("lib", .directory [
    ("a", .directory [("x.qi", .file none)] fun _ => false),
    ("target", .directory [("y.qi", .file none)]),
    (.dotted, .directory [("a", .directory [("z.qi", .file none)])])])], []⟩

/-- Of the files that lie below an include directory not all are located, and not all that are located lie there. -/
theorem locate_ne_files_below : Disk.reclusive.root.Distinct ∧
    (Disk.reclusive.LiesBelow ["lib"] ["a"] ["lib", "a", "x.qi"] ∧
      (["lib", "a", "x.qi"] : Path) ∉ locate .reclusive [.known ["lib"]] "a") ∧
    (Disk.reclusive.LiesBelow ["lib"] ["target"] ["lib", "target", "y.qi"] ∧
      (["lib", "target", "y.qi"] : Path) ∉ locate .reclusive [.known ["lib"]] "target") ∧
    ¬Disk.reclusive.LiesBelow ["lib"] ["a"] ["lib", .dotted, "a", "z.qi"] ∧
      (["lib", .dotted, "a", "z.qi"] : Path) ∈ locate .reclusive [.known ["lib"]] "a" := by
  have hqi (stem : String) (h : stem ≠ "") : (Name.text (stem ++ ".qi")).IsQi := .text h
  refine ⟨by simp [Disk.reclusive, Name.dotted, Entry.Distinct, Entry.AllDistinct],
    ⟨⟨[], [], .text ("x" ++ ".qi"), none, rfl, by simp, hqi "x" (by decide), rfl⟩, by decide +kernel⟩,
    ⟨⟨[], [], .text ("y" ++ ".qi"), none, rfl, by simp, hqi "y" (by decide), rfl⟩, by decide +kernel⟩, ?_,
    by decide +kernel⟩
  rintro ⟨above, between, file, text, hpath, hopen, -⟩
  -- the directory of the package is the last, so the one with the dot stands above it
  rcases above with _ | ⟨directory, _ | ⟨_, above⟩⟩
  · simp [Name.dotted] at hpath
  · have hdotted : directory = .dotted := by simp_all
    exact (hopen directory (by simp)).1 (by rw [hdotted]; rfl)
  · have hlength := congrArg List.length hpath
    simp only [List.length_append, List.length_cons, List.length_nil] at hlength
    omega

end QiIdl
