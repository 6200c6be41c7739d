import QiIdl.Text.Pieces

/-!
# Splitting and joining

`Text.pieces` splits a text at a character. Joining the pieces gives the text back (`intercalate_pieces`), and
splitting is a homomorphism at every occurrence of the character (`pieces_append_cons`), so a text that was put
together from parts without the character splits into exactly these parts.
-/

namespace QiIdl.Text

variable {sep : Char}

/-- Splitting at a character is splitting a list at a member. -/
theorem pieces_eq_splitOn (sep : Char) (cs : List Char) : pieces sep cs = cs.splitOn sep := by
  induction cs with
  | nil => rfl
  | cons c cs ih =>
    rw [pieces, ih, List.splitOn_cons_eq_if_modifyHead]
    by_cases hc : c = sep
    · simp [hc]
    · obtain ⟨p, ps, hp⟩ := List.exists_cons_of_ne_nil (List.splitOn_ne_nil sep cs)
      simp [hc, hp]

theorem pieces_ne_nil (sep : Char) (cs : List Char) : pieces sep cs ≠ [] := by
  rw [pieces_eq_splitOn]
  exact List.splitOn_ne_nil sep cs

theorem pieces_cons_sep (cs : List Char) : pieces sep (sep :: cs) = [] :: pieces sep cs := by
  simp [pieces]

theorem pieces_cons_of_ne {c : Char} (h : c ≠ sep) (cs : List Char) :
    ∃ p ps, pieces sep cs = p :: ps ∧ pieces sep (c :: cs) = (c :: p) :: ps := by
  cases hcs : pieces sep cs with
  | nil => exact absurd hcs (pieces_ne_nil sep cs)
  | cons p ps => exact ⟨p, ps, rfl, by simp [pieces, h, hcs]⟩

theorem pieces_append_cons (as bs : List Char) :
    pieces sep (as ++ sep :: bs) = pieces sep as ++ pieces sep bs := by
  simp only [pieces_eq_splitOn, List.splitOn_append_cons_self]

theorem pieces_of_not_mem {cs : List Char} (h : sep ∉ cs) : pieces sep cs = [cs] := by
  rw [pieces_eq_splitOn, List.splitOn_eq_singleton h]

/-- What stands in a part of a list that is split is a member of the list, and not the one at which it is split. -/
theorem mem_of_mem_splitOn {α : Type} [BEq α] [LawfulBEq α] {sep x : α} {xs part : List α}
    (hpart : part ∈ xs.splitOn sep) (hx : x ∈ part) : x ∈ xs ∧ x ≠ sep := by
  induction xs generalizing part with
  | nil =>
    rw [List.splitOn_nil, List.mem_singleton] at hpart
    rw [hpart] at hx
    exact absurd hx List.not_mem_nil
  | cons y xs ih =>
    have hrest {part : List α} (hpart : part ∈ xs.splitOn sep) (hx : x ∈ part) : x ∈ y :: xs ∧ x ≠ sep :=
      ⟨List.mem_cons_of_mem y (ih hpart hx).1, (ih hpart hx).2⟩
    obtain ⟨first, parts, hparts⟩ := List.exists_cons_of_ne_nil (List.splitOn_ne_nil sep xs)
    rw [List.splitOn_cons_eq_if_modifyHead] at hpart
    split at hpart
    · rcases List.mem_cons.mp hpart with rfl | hpart
      · exact absurd hx List.not_mem_nil
      · exact hrest hpart hx
    · next hy =>
      rw [hparts] at hrest hpart
      rcases List.mem_cons.mp hpart with rfl | hpart
      · rcases List.mem_cons.mp hx with rfl | hx
        · exact ⟨List.mem_cons_self, fun heq => hy (beq_iff_eq.mpr heq)⟩
        · exact hrest List.mem_cons_self hx
      · exact hrest (List.mem_cons_of_mem first hpart) hx

theorem not_mem_of_mem_pieces {cs p : List Char} (h : p ∈ pieces sep cs) : sep ∉ p := by
  rw [pieces_eq_splitOn] at h
  exact fun hmem => (mem_of_mem_splitOn h hmem).2 rfl

/-- What holds of the separator and of every character of every piece holds of every character. -/
theorem forall_of_pieces {P : Char → Prop} {cs : List Char} (hsep : P sep)
    (h : ∀ p ∈ pieces sep cs, ∀ c ∈ p, P c) : ∀ c ∈ cs, P c := by
  induction cs with
  | nil => exact List.forall_mem_nil _
  | cons d cs ih =>
    by_cases hd : d = sep
    · subst hd
      rw [pieces_cons_sep, List.forall_mem_cons] at h
      exact List.forall_mem_cons.mpr ⟨hsep, ih h.2⟩
    · obtain ⟨p, ps, hps, hcons⟩ := pieces_cons_of_ne hd cs
      rw [hcons, List.forall_mem_cons, List.forall_mem_cons] at h
      refine List.forall_mem_cons.mpr ⟨h.1.1, ih ?_⟩
      rw [hps]
      exact List.forall_mem_cons.mpr ⟨h.1.2, h.2⟩

/-- Joining the pieces of a text gives the text back. -/
theorem intercalate_pieces (cs : List Char) : [sep].intercalate (pieces sep cs) = cs := by
  rw [pieces_eq_splitOn, List.intercalate_splitOn]

theorem segments_ne_nil (name : String) : segments name ≠ [] := by
  simp [segments, pieces_ne_nil]

/-- The first two of some texts may be joined before the others. -/
theorem intercalate_join (sep text next : String) (texts : List String) :
    sep.intercalate ((text ++ sep ++ next) :: texts) = sep.intercalate (text :: next :: texts) := by
  cases texts with
  | nil => simp [String.intercalate_cons_cons]
  | cons _ texts => simp [String.intercalate_cons_cons, String.append_assoc]

/-- Joining the segments of a dotted name gives the name back. -/
theorem intercalate_segments (name : String) : ".".intercalate (segments name) = name := by
  apply String.toList_injective
  have hmap : (segments name).map String.toList = pieces '.' name.toList := by
    simp [segments, List.map_map, Function.comp_def]
  rw [String.toList_intercalate, hmap]
  exact intercalate_pieces name.toList

/-- A dotted name with one more segment. -/
theorem segments_snoc {name segment : String} (h : '.' ∉ segment.toList) :
    segments (name ++ "." ++ segment) = segments name ++ [segment] := by
  have hlist : (name ++ "." ++ segment).toList = name.toList ++ '.' :: segment.toList := by
    simp [String.toList_append]
  rw [segments, hlist, pieces_append_cons, List.map_append, pieces_of_not_mem h]
  simp [segments]

theorem segments_of_not_mem {name : String} (h : '.' ∉ name.toList) : segments name = [name] := by
  simp [segments, pieces_of_not_mem h]

theorem not_mem_of_mem_segments {name segment : String} (h : segment ∈ segments name) : '.' ∉ segment.toList := by
  obtain ⟨piece, hpiece, rfl⟩ := List.mem_map.mp h
  simpa using not_mem_of_mem_pieces hpiece

theorem intercalate_concat {α : Type} {sep l : List α} {ls : List (List α)} (h : ls ≠ []) :
    sep.intercalate (ls ++ [l]) = sep.intercalate ls ++ sep ++ l := by
  induction ls with
  | nil => exact absurd rfl h
  | cons first ls ih =>
    cases ls with
    | nil => simp
    | cons second ls =>
      have hrest := ih (List.cons_ne_nil _ _)
      simp only [List.cons_append] at hrest
      simp only [List.cons_append, List.intercalate_cons_cons, hrest, List.append_assoc]

/-- A name is cut at its last dot. -/
theorem splitLast_eq_some {name front last : String} (h : splitLast name = some (front, last)) :
    name = front ++ "." ++ last ∧ '.' ∉ last.toList := by
  unfold splitLast at h
  split at h
  · next other rest hsegments =>
    cases h
    have heq : segments name = (other :: rest).reverse ++ [last] := by
      rw [← List.reverse_reverse (segments name), hsegments, List.reverse_cons]
    have hlast : last ∈ segments name := by simp [heq]
    refine ⟨?_, not_mem_of_mem_segments hlast⟩
    rw [← intercalate_segments name, heq]
    apply String.toList_injective
    rw [String.toList_append, String.toList_append, String.toList_intercalate, String.toList_intercalate,
      List.map_append, List.map_singleton, intercalate_concat (by simp)]
  · cases h

/-- A name that is not cut has no dot. -/
theorem splitLast_eq_none {name : String} (h : splitLast name = none) : '.' ∉ name.toList := by
  unfold splitLast at h
  split at h
  · cases h
  · next hshort =>
    have hne : (segments name).reverse ≠ [] := by simp [segments_ne_nil]
    obtain ⟨last, rest, heq⟩ := List.exists_cons_of_ne_nil hne
    cases rest with
    | cons other rest => exact absurd heq (hshort last other rest)
    | nil =>
      have hname : segments name = [last] := by
        rw [← List.reverse_reverse (segments name), heq, List.reverse_singleton]
      have hlast : name = last := by
        rw [← intercalate_segments name, hname, String.intercalate_singleton]
      exact hlast ▸ not_mem_of_mem_segments (hname ▸ List.mem_singleton_self last)

/-- A name with one more segment is cut before that segment. -/
theorem splitLast_snoc {front last : String} (h : '.' ∉ last.toList) :
    splitLast (front ++ "." ++ last) = some (front, last) := by
  have hne : (segments front).reverse ≠ [] := by simp [segments_ne_nil]
  obtain ⟨other, rest, heq⟩ := List.exists_cons_of_ne_nil hne
  have hfront : segments front = (other :: rest).reverse := by rw [← heq, List.reverse_reverse]
  rw [splitLast, segments_snoc h, List.reverse_append, heq]
  simp only [List.reverse_singleton, List.singleton_append]
  rw [← hfront, intercalate_segments]

theorem splitLast_of_not_mem {name : String} (h : '.' ∉ name.toList) : splitLast name = none := by
  rw [splitLast, segments_of_not_mem h]
  rfl

end QiIdl.Text
