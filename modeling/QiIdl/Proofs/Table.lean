import QiIdl.Table

/-!
# Laws of tables

A table is a list of entries, so two views of it are at hand: the value that `find?` gives to a key, and the
entries as they stand in the list. What `insert` does to the first needs no order among the entries
(`find?_insert`). The two views agree on tables whose keys increase (`Sorted.mem_iff_find?`), and there `insert`
exchanges one entry or adds one (`Sorted.exists_perm_insert`, `perm_insert`), which is what sums over a table need.
-/

namespace QiIdl.Table

open Std

variable {κ β : Type} [Ord κ] {key k : κ} {value v : β} {t : Table κ β}

section Lookup

variable [LawfulEqOrd κ]

theorem find?_cons_self : Table.find? k ((k, v) :: t) = some v := by
  simp [find?]

theorem find?_cons_of_ne (h : k ≠ key) : Table.find? k ((key, value) :: t) = t.find? k := by
  simp [find?, h]

theorem find?_insert_self : (t.insert key value).find? key = some value := by
  fun_induction insert key value t with
  | case1 | case2 | case3 => exact find?_cons_self
  | case4 k v t hc ih =>
    have hne : key ≠ k := by
      rintro rfl
      simp at hc
    rw [find?_cons_of_ne hne, ih]

theorem find?_insert_of_ne (h : k ≠ key) : (t.insert key value).find? k = t.find? k := by
  fun_induction insert key value t with
  | case1 | case2 => exact find?_cons_of_ne h
  | case3 k' v t hc =>
    obtain rfl := LawfulEqOrd.eq_of_compare hc
    rw [find?_cons_of_ne h, find?_cons_of_ne h]
  | case4 k' v t hc ih =>
    by_cases hk : k = k'
    · rw [hk, find?_cons_self, find?_cons_self]
    · rw [find?_cons_of_ne hk, find?_cons_of_ne hk, ih]

theorem find?_insert [DecidableEq κ] :
    (t.insert key value).find? k = if k = key then some value else t.find? k := by
  by_cases h : k = key
  · rw [if_pos h, h, find?_insert_self]
  · rw [if_neg h, find?_insert_of_ne h]

/-- Of two values that a key is given, the later counts. -/
theorem insert_insert (v : β) : (t.insert key v).insert key value = t.insert key value := by
  induction t with
  | nil => simp [insert]
  | cons entry t ih =>
    obtain ⟨k, w⟩ := entry
    simp only [insert]
    cases hc : compare key k with
    | lt => simp [insert]
    | eq => simp [insert]
    | gt => simp [insert, hc, ih]

/-- A value that a key has stays if another is given a value that it had none before. -/
theorem find?_insert_of_find? (hk : t.find? k = some v) (hnew : t.find? key = none) :
    (t.insert key value).find? k = some v := by
  rw [find?_insert_of_ne, hk]
  rintro rfl
  simp [hk] at hnew

theorem mem_of_find? (h : t.find? k = some v) : (k, v) ∈ t := by
  induction t with
  | nil => simp [find?] at h
  | cons entry t ih =>
    obtain ⟨k', v'⟩ := entry
    by_cases hk : k = k'
    · subst hk
      rw [find?_cons_self, Option.some.injEq] at h
      simp [h]
    · rw [find?_cons_of_ne hk] at h
      exact List.mem_cons_of_mem _ (ih h)

omit [LawfulEqOrd κ] in
theorem find?_of_not_contains (h : ¬ t.contains k = true) : t.find? k = none := by
  simpa [contains] using h

theorem find?_eq_none_iff : t.find? k = none ↔ k ∉ t.keys := by
  induction t with
  | nil => simp [find?, keys]
  | cons entry t ih =>
    obtain ⟨k', v'⟩ := entry
    by_cases hk : k = k'
    · simp [hk, find?_cons_self, keys]
    · rw [find?_cons_of_ne hk, ih]
      simp [keys, hk]

theorem mem_keys_insert : k ∈ (t.insert key value).keys ↔ k = key ∨ k ∈ t.keys := by
  have hmem (t : Table κ β) : k ∈ t.keys ↔ t.find? k ≠ none := by
    rw [ne_eq, find?_eq_none_iff, Classical.not_not]
  rw [hmem, hmem]
  by_cases h : k = key
  · simp [h, find?_insert_self]
  · simp [h, find?_insert_of_ne h]

/-- The keys of a table are those of the entries it is made from. -/
theorem mem_keys_ofEntries {entries : List (κ × β)} : k ∈ (ofEntries entries).keys ↔ k ∈ entries.map (·.1) := by
  have hfold (t : Table κ β) : k ∈ keys (entries.foldl (fun t entry => t.insert entry.1 entry.2) t) ↔
      k ∈ entries.map (·.1) ∨ k ∈ t.keys := by
    induction entries generalizing t with
    | nil => simp
    | cons entry entries ih =>
      rw [List.foldl_cons, ih, mem_keys_insert, List.map_cons, List.mem_cons, or_left_comm, or_assoc]
  rw [ofEntries, hfold]
  simp [keys]

/-- A key without a value gets one, and the other entries stay. -/
theorem perm_insert (h : t.find? key = none) : (t.insert key value).Perm ((key, value) :: t) := by
  fun_induction insert key value t with
  | case1 | case2 => exact .refl _
  | case3 k v t hc =>
    obtain rfl := LawfulEqOrd.eq_of_compare hc
    simp [find?_cons_self] at h
  | case4 k v t hc ih =>
    have hne : key ≠ k := by
      rintro rfl
      simp at hc
    rw [find?_cons_of_ne hne] at h
    exact ((ih h).cons _).trans (.swap _ _ _)

theorem perm_values_insert (value : β) (h : t.find? key = none) :
    (t.insert key value).values.Perm (value :: t.values) :=
  (perm_insert h).map Prod.snd

theorem mem_values_insert {x : β} (h : t.find? key = none) :
    x ∈ (t.insert key value).values ↔ x = value ∨ x ∈ t.values :=
  (perm_values_insert value h).mem_iff.trans List.mem_cons

end Lookup

/-! ## Increasing keys -/

/-- The keys of a table increase. -/
def Sorted (t : Table κ β) : Prop := t.Pairwise fun a b => compare a.1 b.1 = .lt

theorem mem_insert {entry : κ × β} (h : entry ∈ t.insert key value) : entry = (key, value) ∨ entry ∈ t := by
  fun_induction insert key value t with
  | case1 => exact .inl (List.mem_singleton.mp h)
  | case2 => exact List.mem_cons.mp h
  | case3 => exact (List.mem_cons.mp h).imp id (List.mem_cons_of_mem _)
  | case4 k v t hc ih =>
    rcases List.mem_cons.mp h with rfl | h
    · exact .inr List.mem_cons_self
    · exact (ih h).imp id (List.mem_cons_of_mem _)

section Lookup

variable [LawfulEqOrd κ]

theorem Sorted.find?_of_mem (h : Sorted t) (hmem : (k, v) ∈ t) : t.find? k = some v := by
  induction t with
  | nil => cases hmem
  | cons head t ih =>
    obtain ⟨k', v'⟩ := head
    obtain ⟨hhead, htail⟩ := List.pairwise_cons.mp h
    rcases List.mem_cons.mp hmem with heq | htmem
    · cases heq
      exact find?_cons_self
    · have hne : k ≠ k' := by
        rintro rfl
        have := hhead _ htmem
        simp at this
      rw [find?_cons_of_ne hne]
      exact ih htail htmem

/-- In a table whose keys increase, an entry stands for the value of its key. -/
theorem Sorted.mem_iff_find? (h : Sorted t) : (k, v) ∈ t ↔ t.find? k = some v :=
  ⟨h.find?_of_mem, mem_of_find?⟩

theorem Sorted.mem_values_iff (h : Sorted t) : v ∈ t.values ↔ ∃ k, t.find? k = some v := by
  simp [values, ← h.mem_iff_find?]

end Lookup

variable [TransOrd κ]

theorem Sorted.insert (h : Sorted t) : Sorted (t.insert key value) := by
  induction t with
  | nil => exact .cons (by simp) .nil
  | cons head t ih =>
    obtain ⟨k, v⟩ := head
    obtain ⟨hhead, htail⟩ := List.pairwise_cons.mp h
    unfold Table.insert
    cases hc : compare key k with
    | lt =>
      refine .cons ?_ h
      rintro entry hentry
      rcases List.mem_cons.mp hentry with rfl | hentry
      · exact hc
      · exact TransCmp.lt_trans hc (hhead entry hentry)
    | eq => exact .cons (fun entry hentry => TransCmp.lt_of_eq_of_lt hc (hhead entry hentry)) htail
    | gt =>
      refine .cons ?_ (ih htail)
      intro entry hentry
      rcases mem_insert hentry with rfl | hentry
      · exact OrientedCmp.lt_of_gt hc
      · exact hhead entry hentry

/-- A table that is made of entries has its keys in increasing order. -/
theorem sorted_ofEntries (entries : List (κ × β)) : Sorted (ofEntries entries) :=
  List.foldlRecOn entries _ List.Pairwise.nil fun _ h _ _ => Sorted.insert h

theorem Sorted.nodup_keys (h : Sorted t) : t.keys.Nodup := by
  refine List.pairwise_map.mpr (h.imp ?_)
  intro a b hab heq
  have hself : compare b.1 b.1 = .eq := ReflCmp.compare_self
  rw [heq, hself] at hab
  cases hab

/-- A key with a value gets another one in its place. -/
theorem Sorted.exists_append [LawfulEqOrd κ] (h : Sorted t) (hkey : t.find? key = some v) : ∃ before after,
    t = before ++ (key, v) :: after ∧ ∀ value, t.insert key value = before ++ (key, value) :: after := by
  induction t with
  | nil => simp [find?] at hkey
  | cons head t ih =>
    obtain ⟨k, v'⟩ := head
    obtain ⟨hhead, htail⟩ := List.pairwise_cons.mp h
    unfold Table.insert
    cases hc : compare key k with
    | lt =>
      -- the key is below all keys of the table, so it has no value there
      rcases List.mem_cons.mp (mem_of_find? hkey) with heq | hmem
      · cases heq
        simp at hc
      · have := TransCmp.lt_trans hc (hhead _ hmem)
        simp at this
    | eq =>
      obtain rfl := LawfulEqOrd.eq_of_compare hc
      rw [find?_cons_self, Option.some.injEq] at hkey
      subst hkey
      exact ⟨[], t, rfl, fun _ => rfl⟩
    | gt =>
      have hne : key ≠ k := by
        rintro rfl
        simp at hc
      rw [find?_cons_of_ne hne] at hkey
      obtain ⟨before, after, hold, hnew⟩ := ih htail hkey
      exact ⟨(k, v') :: before, after, congrArg _ hold, fun value => congrArg _ (hnew value)⟩

/-- A key with a value gets another, and the other entries stay. -/
theorem Sorted.exists_perm_insert [LawfulEqOrd κ] (h : Sorted t) (value : β) (hkey : t.find? key = some v) :
    ∃ rest, t.Perm ((key, v) :: rest) ∧ (t.insert key value).Perm ((key, value) :: rest) := by
  obtain ⟨before, after, hold, hnew⟩ := h.exists_append hkey
  rw [hnew value]
  exact ⟨before ++ after, hold ▸ List.perm_middle, List.perm_middle⟩

/-- A key that is given the value it has keeps the table as it is. -/
theorem Sorted.insert_of_find? [LawfulEqOrd κ] (h : Sorted t) (hkey : t.find? key = some v) :
    t.insert key v = t := by
  obtain ⟨before, after, hold, hnew⟩ := h.exists_append hkey
  rw [hnew v, ← hold]

theorem Sorted.exists_perm_values_insert [LawfulEqOrd κ] (h : Sorted t) (value : β) (hkey : t.find? key = some v) :
    ∃ rest, t.values.Perm (v :: rest) ∧ (t.insert key value).values.Perm (value :: rest) := by
  obtain ⟨rest, hold, hnew⟩ := h.exists_perm_insert value hkey
  exact ⟨rest.map Prod.snd, hold.map Prod.snd, hnew.map Prod.snd⟩

end QiIdl.Table
