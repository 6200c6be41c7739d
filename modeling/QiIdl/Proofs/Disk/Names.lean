import QiIdl.Disk.Basic

/-!
# Names on a disk

On a disk a name stands for an entry of a directory. Three texts never do, since in a spelled path they mean
something else: the empty one, one dot and two dots. A disk without such names is *well named*, and there the path
of whatever is found is canonical: it spells the way down from the root and nothing else. Following a canonical path
leads to nowhere else (`Disk.follow_of_isCanonical`).
-/

namespace QiIdl

/-- A name that stands for itself in a spelled path. -/
@[simp] def IsEntryName (name : Name) : Prop := name ≠ "" ∧ name ≠ "." ∧ name ≠ ".."

/-- A path of names that stand for themselves. -/
def Path.IsCanonical (path : Path) : Prop := ∀ name ∈ path, IsEntryName name

namespace Entry

mutual

/-- The names below an entry stand for themselves. -/
@[simp] def WellNamed : Entry → Prop
  | .file _ => True
  | .directory es _ => AllWellNamed es

/-- The names of some entries, and those below them, stand for themselves. -/
@[simp] def AllWellNamed : List (Name × Entry) → Prop
  | [] => True
  | (name, e) :: rest => IsEntryName name ∧ e.WellNamed ∧ AllWellNamed rest

end

theorem AllWellNamed.of_mem {es : List (Name × Entry)} {name : Name} {e : Entry} (h : AllWellNamed es)
    (he : (name, e) ∈ es) : IsEntryName name ∧ e.WellNamed := by
  induction es with
  | nil => cases he
  | cons head es ih =>
    obtain ⟨hname, hchild, hrest⟩ := h
    rcases List.mem_cons.mp he with rfl | he
    · exact ⟨hname, hchild⟩
    · exact ih hrest he

theorem WellNamed.entries {e : Entry} (h : e.WellNamed) : AllWellNamed e.entries := by
  cases e with
  | file => trivial
  | directory es shows => exact h

variable {e found : Entry} {path : Path}

/-- What is found below a well named entry is well named, and so is the path to it. -/
theorem WellNamed.find? (h : e.WellNamed) (hfound : e.find? path = some found) :
    path.IsCanonical ∧ found.WellNamed := by
  induction path generalizing e with
  | nil =>
    cases hfound
    exact ⟨List.forall_mem_nil _, h⟩
  | cons name rest ih =>
    rw [Entry.find?] at hfound
    cases hlookup : e.entries.lookup name with
    | none =>
      rw [hlookup] at hfound
      cases hfound
    | some child =>
      rw [hlookup] at hfound
      obtain ⟨before, after, hentries, -⟩ := List.lookup_eq_some_iff.mp hlookup
      have hmem : (name, child) ∈ e.entries := by rw [hentries]; simp
      obtain ⟨hname, hchild⟩ := h.entries.of_mem hmem
      obtain ⟨hrest, hwell⟩ := ih hchild hfound
      exact ⟨List.forall_mem_cons.mpr ⟨hname, hrest⟩, hwell⟩

end Entry

theorem Disk.isCanonical_of_read {disk : Disk} {place : Path} {text : String} (h : disk.root.WellNamed)
    (hread : disk.read place = .ok text) : place.IsCanonical := by
  unfold read at hread
  cases hfound : disk.root.find? place with
  | none =>
    rw [hfound] at hread
    cases hread
  | some e => exact (h.find? hfound).1

/-! ## Following canonical paths -/

namespace Disk

variable {disk : Disk} {place key path : Path} {name : Name}

theorem step_of_isEntryName (hname : IsEntryName name) (h : disk.step place name = .ok key) :
    key = place ++ [name] := by
  obtain ⟨hempty, hdot, hdots⟩ := hname
  unfold step at h
  split at h
  · cases h
  · cases h
  · simp only [hempty, hdot, hdots, or_self, if_false] at h
    split at h
    · exact (Except.ok.inj h).symm
    · cases h

/-- A canonical path leads to the place it spells, if it leads anywhere. -/
theorem follow_of_isCanonical (hpath : path.IsCanonical) (h : disk.follow place path = .ok key) :
    key = place ++ path := by
  induction path generalizing place with
  | nil =>
    rw [List.append_nil]
    exact (Except.ok.inj h).symm
  | cons name path ih =>
    obtain ⟨hname, hrest⟩ := List.forall_mem_cons.mp hpath
    rw [follow, List.foldlM_cons] at h
    cases hstep : disk.step place name with
    | error e =>
      rw [hstep] at h
      cases h
    | ok next =>
      rw [hstep] at h
      obtain rfl := step_of_isEntryName hname hstep
      rw [ih hrest h, List.append_assoc]
      rfl

end Disk

end QiIdl
