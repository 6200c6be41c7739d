import Mathlib.Data.List.DropRight
import QiIdl.Doc.Basic

/-!
# Where sections start

A documentation text is read from its start, with rules for two backslashes, for a backslash before a word and for
anything else. Here the same is said by places in the text. Of a run of backslashes each two, from the left, are a pair;
the last one of an odd run is single, and with a word behind it it is a *marker*. A marker whose word is that of a
command with a blank or the end of the text behind it starts a section, which goes on to the next marker; any other
marker is unknown.

`ofText_eq` says that reading does just this: it stops at the first unknown marker, and if there is none it gives the
text between the markers, with each pair of backslashes read as one.
-/

namespace QiIdl

theorem DocCommand.ofWord?_eq_some_iff {word : String} {command : DocCommand} :
    ofWord? word = some command ↔ command.word = word := by
  constructor
  · intro h
    rw [ofWord?] at h
    simpa using List.find?_some h
  · rintro rfl
    cases command <;> decide +kernel

theorem DocCommand.word_injective {command command' : DocCommand} (h : command.word.toList = command'.word.toList) :
    command = command' := by
  have hword : ofWord? command'.word = some command := ofWord?_eq_some_iff.mpr (String.toList_injective h)
  exact Option.some.inj (hword.symm.trans (ofWord?_eq_some_iff.mpr rfl))

namespace DocParts

open Text

variable {cs rest : List Char} {c : Char} {i j n : Nat} {command : DocCommand}

/-! ## Markers -/

/-- The number of backslashes directly before a place. -/
def backslashesBefore (cs : List Char) (i : Nat) : Nat := ((cs.take i).rtakeWhile (· == '\\')).length

/-- The word behind a place. -/
def wordAt (cs : List Char) (i : Nat) : List Char := (cs.drop (i + 1)).takeWhile isWordPart

/-- The place behind that word. -/
def behindWord (cs : List Char) (i : Nat) : Nat := i + 1 + (wordAt cs i).length

/-- The last backslash of a run of an odd number. -/
def IsSingle (cs : List Char) (i : Nat) : Prop :=
  cs[i]? = some '\\' ∧ cs[i + 1]? ≠ some '\\' ∧ (backslashesBefore cs i + 1) % 2 = 1

/-- A single backslash with a word behind it. -/
def IsMarker (cs : List Char) (i : Nat) : Prop := IsSingle cs i ∧ wordAt cs i ≠ []

/-- The word behind a place is that of a command, and directly behind the word is a blank or the end of the text. -/
def IsCommand (cs : List Char) (i : Nat) (command : DocCommand) : Prop :=
  wordAt cs i = command.word.toList ∧ (cs[behindWord cs i]?).all isBlank = true

/-- A marker that starts no section. -/
def IsUnknown (cs : List Char) (i : Nat) : Prop := IsMarker cs i ∧ ∀ command, ¬ IsCommand cs i command

instance (cs : List Char) : DecidablePred (IsMarker cs) := fun _ =>
  inferInstanceAs (Decidable ((_ ∧ _ ∧ _) ∧ _))

instance (cs : List Char) (i : Nat) : DecidablePred (IsCommand cs i) := fun _ =>
  inferInstanceAs (Decidable (_ ∧ _))

/-- The command at a place. -/
def commandAt? (cs : List Char) (i : Nat) : Option DocCommand :=
  [DocCommand.param, .returns, .throws].find? (IsCommand cs i ·)

theorem commandAt?_eq_some_iff : commandAt? cs i = some command ↔ IsCommand cs i command := by
  constructor
  · intro h
    rw [commandAt?] at h
    simpa using List.find?_some h
  · intro h
    have hsome : (commandAt? cs i).isSome = true := by
      refine List.find?_isSome.mpr ⟨command, ?_, decide_eq_true h⟩
      cases command <;> decide
    obtain ⟨found, hfound⟩ := Option.isSome_iff_exists.mp hsome
    have hcommand : IsCommand cs i found := by
      rw [commandAt?] at hfound
      simpa using List.find?_some hfound
    rw [hfound, DocCommand.word_injective (hcommand.1.symm.trans h.1)]

theorem commandAt?_eq_none_iff : commandAt? cs i = none ↔ ∀ command, ¬ IsCommand cs i command := by
  rw [Option.eq_none_iff_forall_ne_some]
  exact forall_congr' fun command => not_congr commandAt?_eq_some_iff

/-- Reading sees the command that is there. -/
theorem command?_eq (cs : List Char) (i : Nat) :
    command? (wordAt cs i) (cs.drop (behindWord cs i)) = commandAt? cs i := by
  ext command
  rw [commandAt?_eq_some_iff, IsCommand, command?, List.head?_drop]
  by_cases hblank : (cs[behindWord cs i]?).all isBlank = true
  · rw [if_pos hblank, DocCommand.ofWord?_eq_some_iff]
    constructor
    · intro h
      exact ⟨by rw [h, String.toList_ofList], hblank⟩
    · rintro ⟨h, -⟩
      rw [h, String.ofList_toList]
  · rw [if_neg hblank]
    constructor
    · nofun
    · rintro ⟨-, h⟩
      exact absurd h hblank

/-! ## Sections -/

/-- The sections that start at some places, each up to the next one. -/
def sectionsAt (cs : List Char) : List Nat → List DocSection
  | [] => []
  | i :: rest =>
    match commandAt? cs i with
    | some command => ⟨command, cs.extract (behindWord cs i) (rest.headD cs.length)⟩ :: sectionsAt cs rest
    | none => sectionsAt cs rest

/-- The markers of a text. -/
def markers (cs : List Char) : List Nat := (List.range cs.length).filter (IsMarker cs ·)

/-- The sections of a text as they are written. -/
def writtenSections (cs : List Char) : List DocSection := sectionsAt cs (markers cs)

/-- A text with each pair of backslashes, from the left, read as one. -/
def unescape : List Char → List Char
  | '\\' :: '\\' :: rest => '\\' :: unescape rest
  | c :: rest => c :: unescape rest
  | [] => []

/-- A section as it is read. -/
def unescaped (s : DocSection) : DocSection := { s with body := unescape s.body }

theorem unescape_cons (h : c = '\\' → rest.head? ≠ some '\\') : unescape (c :: rest) = c :: unescape rest := by
  rw [unescape]
  rintro rest' rfl rfl
  exact h rfl rfl

/-! ## What is read at a place -/

theorem ofText_plain (h : c = '\\' → rest.head? ≠ some '\\' ∧ rest.takeWhile isWordPart = []) :
    ofText (c :: rest) = (ofText rest).map (push c) := by
  by_cases hc : c = '\\'
  · subst hc
    obtain ⟨hhead, hword⟩ := h rfl
    rw [ofText]
    · simp [hword]
    · rintro rest' rfl
      exact hhead rfl
  · rw [ofText]
    · rintro rest' rfl
      exact absurd rfl hc
    · rintro rfl
      exact absurd rfl hc

section

variable (hword : rest.takeWhile isWordPart ≠ [])
include hword

theorem ofText_command (h : command? (rest.takeWhile isWordPart) (rest.dropWhile isWordPart) = some command) :
    ofText ('\\' :: rest) = (ofText (rest.dropWhile isWordPart)).map (under command) := by
  rw [ofText]
  · simp [hword, h]
  · rintro rest' rfl
    exact hword (List.takeWhile_cons_of_neg (by decide))

theorem ofText_unknown (h : command? (rest.takeWhile isWordPart) (rest.dropWhile isWordPart) = none) :
    ofText ('\\' :: rest) = .error (.unknownCommand (String.ofList (rest.takeWhile isWordPart))) := by
  rw [ofText]
  · simp [hword, h]
  · rintro rest' rfl
    exact hword (List.takeWhile_cons_of_neg (by decide))

end

theorem ofText_pair : ofText ('\\' :: '\\' :: rest) = (ofText rest).map (push '\\') := by
  rw [ofText]

/-! ## Between markers -/

/-- Reading can start at a place, for a backslash there is not the second one of a pair. -/
def IsBoundary (cs : List Char) (n : Nat) : Prop := cs[n]? = some '\\' → backslashesBefore cs n % 2 = 0

/-- The markers from a place on. -/
def markersFrom (cs : List Char) (n : Nat) : List Nat :=
  (List.range' n (cs.length - n)).filter (IsMarker cs ·)

theorem backslashesBefore_succ (h : cs[n]? = some c) :
    backslashesBefore cs (n + 1) = if c = '\\' then backslashesBefore cs n + 1 else 0 := by
  rw [backslashesBefore, List.take_add_one, h, Option.toList_some, List.rtakeWhile_concat]
  by_cases hc : c = '\\'
  · simp [hc, backslashesBefore]
  · simp [hc]

theorem lt_length (h : cs[n]? = some c) : n < cs.length := (List.getElem?_eq_some_iff.mp h).1

theorem markersFrom_of_isMarker (h : IsMarker cs n) : markersFrom cs n = n :: markersFrom cs (n + 1) := by
  have hlt : n < cs.length := lt_length h.1.1
  have hlength : cs.length - n = cs.length - (n + 1) + 1 := by omega
  rw [markersFrom, hlength, List.range'_succ, List.filter_cons_of_pos (by simpa using h)]
  rfl

theorem markersFrom_of_not_isMarker (h : ¬ IsMarker cs n) : markersFrom cs n = markersFrom cs (n + 1) := by
  by_cases hlt : n < cs.length
  · have hlength : cs.length - n = cs.length - (n + 1) + 1 := by omega
    rw [markersFrom, hlength, List.range'_succ, List.filter_cons_of_neg (by simpa using h)]
    rfl
  · have hend : cs.length - n = 0 ∧ cs.length - (n + 1) = 0 := by omega
    rw [markersFrom, markersFrom, hend.1, hend.2]
    rfl

/-- Places that hold no backslash are passed over. -/
theorem markersFrom_add (n k : Nat) (h : ∀ i, n ≤ i → i < n + k → cs[i]? ≠ some '\\') :
    markersFrom cs n = markersFrom cs (n + k) := by
  induction k with
  | zero => rfl
  | succ k ih =>
    rw [ih fun i hge hlt => h i hge (by omega), ← Nat.add_assoc]
    exact markersFrom_of_not_isMarker fun hmarker => h (n + k) (by omega) (by omega) hmarker.1.1

theorem le_headD_markersFrom (h : n ≤ cs.length) : n ≤ (markersFrom cs n).headD cs.length := by
  cases hmarkers : markersFrom cs n with
  | nil => exact h
  | cons i rest =>
    have hmem : i ∈ markersFrom cs n := hmarkers ▸ List.mem_cons_self
    exact (List.mem_range'_1.mp (List.mem_filter.mp hmem).1).1

theorem drop_eq_cons (h : cs[n]? = some c) : cs.drop n = c :: cs.drop (n + 1) := by
  obtain ⟨hlt, rfl⟩ := List.getElem?_eq_some_iff.mp h
  exact List.drop_eq_getElem_cons hlt

theorem extract_eq_cons (h : cs[n]? = some c) (hle : n + 1 ≤ j) : cs.extract n j = c :: cs.extract (n + 1) j := by
  have hlength : j - n = j - (n + 1) + 1 := by omega
  rw [List.extract_eq_take_drop, List.extract_eq_take_drop, drop_eq_cons h, hlength, List.take_succ_cons]

/-- What reading gives from a place on, if these are the markers from there on. -/
def outcome (cs : List Char) (n : Nat) (places : List Nat) : Except DocError DocParts :=
  match places.find? fun i => (commandAt? cs i).isNone with
  | some i => .error (.unknownCommand (String.ofList (wordAt cs i)))
  | none => .ok ⟨unescape (cs.extract n (places.headD cs.length)), (sectionsAt cs places).map unescaped⟩

variable {places : List Nat}

theorem outcome_plain (h : cs[n]? = some c) (hle : n + 1 ≤ places.headD cs.length)
    (hplain : c = '\\' → cs[n + 1]? ≠ some '\\') :
    outcome cs n places = (outcome cs (n + 1) places).map (push c) := by
  have hunescape : unescape (cs.extract n (places.headD cs.length)) =
      c :: unescape (cs.extract (n + 1) (places.headD cs.length)) := by
    rw [extract_eq_cons h hle]
    refine unescape_cons fun hc hhead => hplain hc ?_
    rw [List.extract_eq_take_drop, List.head?_take, List.head?_drop] at hhead
    split at hhead
    · cases hhead
    · exact hhead
  unfold outcome
  split
  · rfl
  · rw [hunescape]
    rfl

theorem outcome_pair (h : cs[n]? = some '\\') (h' : cs[n + 1]? = some '\\')
    (hle : n + 2 ≤ places.headD cs.length) :
    outcome cs n places = (outcome cs (n + 2) places).map (push '\\') := by
  unfold outcome
  split
  · rfl
  · rw [extract_eq_cons h (by omega), extract_eq_cons h' hle, unescape]
    rfl

theorem outcome_command (h : commandAt? cs n = some command) :
    outcome cs n (n :: places) = (outcome cs (behindWord cs n) places).map (under command) := by
  have hfind : (n :: places).find? (fun i => (commandAt? cs i).isNone) =
      places.find? fun i => (commandAt? cs i).isNone := by
    rw [List.find?_cons_of_neg]
    simp [h]
  unfold outcome
  rw [hfind]
  split
  · rfl
  · simp [sectionsAt, h, List.extract_eq_take_drop, Except.map, under, unescaped, unescape]

theorem outcome_unknown (h : commandAt? cs n = none) :
    outcome cs n (n :: places) = .error (.unknownCommand (String.ofList (wordAt cs n))) := by
  unfold outcome
  rw [List.find?_cons_of_pos]
  simp [h]

theorem outcome_end : outcome cs cs.length [] = .ok ⟨[], []⟩ := by
  simp [outcome, sectionsAt, List.extract_eq_take_drop, unescape]

/-! ## Reading from a place on -/

theorem drop_behindWord (cs : List Char) (n : Nat) :
    cs.drop (behindWord cs n) = (cs.drop (n + 1)).dropWhile isWordPart := by
  rw [behindWord, ← List.drop_drop, wordAt]
  nth_rewrite 2 [← List.takeWhile_append_dropWhile (p := isWordPart) (l := cs.drop (n + 1))]
  exact List.drop_left

theorem behindWord_le (h : n < cs.length) : behindWord cs n ≤ cs.length := by
  have hlength : (wordAt cs n).length ≤ (cs.drop (n + 1)).length := (List.takeWhile_sublist _).length_le
  rw [List.length_drop] at hlength
  unfold behindWord
  omega

/-- The characters of a word are parts of a word, so no backslashes. -/
theorem ne_of_lt_behindWord (hge : n + 1 ≤ i) (hlt : i < behindWord cs n) : cs[i]? ≠ some '\\' := by
  obtain ⟨k, rfl⟩ := Nat.exists_eq_add_of_le hge
  have hk : k < (wordAt cs n).length := by
    unfold behindWord at hlt
    omega
  intro hslash
  have hword : (wordAt cs n)[k]? = some '\\' := by
    rw [← List.getElem?_drop, ← List.takeWhile_append_dropWhile (p := isWordPart) (l := cs.drop (n + 1))] at hslash
    exact (List.getElem?_append_left hk).symm.trans hslash
  exact absurd (List.mem_takeWhile_imp (List.mem_of_getElem? hword)) (by decide)

theorem isBoundary_succ (h : cs[n]? = some c) (hc : c ≠ '\\') : IsBoundary cs (n + 1) := by
  intro _
  rw [backslashesBefore_succ h, if_neg hc]

theorem isBoundary_behindWord (h : n < cs.length) (hword : wordAt cs n ≠ []) : IsBoundary cs (behindWord cs n) := by
  have hlength : 0 < (wordAt cs n).length := List.length_pos_of_ne_nil hword
  have hle : behindWord cs n ≤ cs.length := behindWord_le h
  -- the last character of the word stands before the place
  obtain ⟨k, hk⟩ : ∃ k, behindWord cs n = k + 1 := ⟨n + (wordAt cs n).length, by unfold behindWord; omega⟩
  obtain ⟨c, hc⟩ : ∃ c, cs[k]? = some c := ⟨_, List.getElem?_eq_getElem (by omega)⟩
  rw [hk]
  refine isBoundary_succ hc ?_
  rintro rfl
  have hge : n + 1 ≤ k := by
    unfold behindWord at hk
    omega
  exact ne_of_lt_behindWord hge (by omega) hc

/-- A single backslash is where reading meets one and the next character is none. -/
theorem IsBoundary.isSingle (h : IsBoundary cs n) (hc : cs[n]? = some '\\') (hnext : cs[n + 1]? ≠ some '\\') :
    IsSingle cs n := by
  have heven := h hc
  exact ⟨hc, hnext, by omega⟩

/-- From a place on, reading gives what the markers from there on say. -/
def ReadsFrom (cs : List Char) (n : Nat) : Prop := ofText (cs.drop n) = outcome cs n (markersFrom cs n)

theorem readsFrom_length (cs : List Char) : ReadsFrom cs cs.length := by
  rw [ReadsFrom, List.drop_length, ofText, markersFrom, Nat.sub_self]
  exact outcome_end.symm

theorem readsFrom_marker (h : IsMarker cs n) (hrest : ReadsFrom cs (behindWord cs n)) : ReadsFrom cs n := by
  have hmarkers : markersFrom cs n = n :: markersFrom cs (behindWord cs n) := by
    rw [markersFrom_of_isMarker h]
    exact congrArg (n :: ·) (markersFrom_add (n + 1) _ fun i hge hi => ne_of_lt_behindWord hge hi)
  have hread : command? ((cs.drop (n + 1)).takeWhile isWordPart) ((cs.drop (n + 1)).dropWhile isWordPart) =
      commandAt? cs n := by
    rw [← drop_behindWord]
    exact command?_eq cs n
  obtain ⟨⟨hslash, -, -⟩, hword⟩ := h
  rw [ReadsFrom, drop_eq_cons hslash, hmarkers]
  cases hcommand : commandAt? cs n with
  | none =>
    rw [outcome_unknown hcommand]
    exact ofText_unknown hword (hread.trans hcommand)
  | some command => rw [outcome_command hcommand, ofText_command hword (hread.trans hcommand), ← drop_behindWord, hrest]

section

variable (hboundary : IsBoundary cs n)
include hboundary

theorem readsFrom_pair (hc : cs[n]? = some '\\') (hnext : cs[n + 1]? = some '\\')
    (hrest : IsBoundary cs (n + 2) → ReadsFrom cs (n + 2)) : ReadsFrom cs n := by
  have hbefore := hboundary hc
  have hsecond : backslashesBefore cs (n + 1) = backslashesBefore cs n + 1 := backslashesBefore_succ hc
  have hthird : backslashesBefore cs (n + 2) = backslashesBefore cs (n + 1) + 1 := backslashesBefore_succ hnext
  -- neither of the two is a marker: the first is not the last of its run, and the second has an odd number before it
  have hfirst : ¬ IsMarker cs n := fun h => h.1.2.1 hnext
  have hmiddle : ¬ IsMarker cs (n + 1) := by
    rintro ⟨⟨-, -, hodd⟩, -⟩
    omega
  have hmarkers : markersFrom cs n = markersFrom cs (n + 2) :=
    (markersFrom_of_not_isMarker hfirst).trans (markersFrom_of_not_isMarker hmiddle)
  rw [ReadsFrom, drop_eq_cons hc, drop_eq_cons hnext, ofText_pair, hmarkers,
    outcome_pair hc hnext (le_headD_markersFrom (lt_length hnext)), hrest fun _ => by omega]

theorem readsFrom_plain (hc : cs[n]? = some c) (hmarker : ¬ IsMarker cs n)
    (hpair : c = '\\' → cs[n + 1]? ≠ some '\\') (hrest : IsBoundary cs (n + 1) → ReadsFrom cs (n + 1)) :
    ReadsFrom cs n := by
  have hplain : c = '\\' → (cs.drop (n + 1)).head? ≠ some '\\' ∧ wordAt cs n = [] := by
    rintro rfl
    rw [List.head?_drop]
    refine ⟨hpair rfl, Classical.not_not.mp fun hword => hmarker ⟨?_, hword⟩⟩
    exact hboundary.isSingle hc (hpair rfl)
  have hnext : IsBoundary cs (n + 1) := by
    by_cases hslash : c = '\\'
    · exact fun h => absurd h (hpair hslash)
    · exact isBoundary_succ hc hslash
  rw [ReadsFrom, drop_eq_cons hc, ofText_plain hplain, markersFrom_of_not_isMarker hmarker,
    outcome_plain hc (le_headD_markersFrom (lt_length hc)) hpair, hrest hnext]

end

/-- Reading can start at any boundary. The induction is on how much of the text is left. -/
theorem readsFrom_of_isBoundary (n : Nat) (hle : n ≤ cs.length) (hboundary : IsBoundary cs n) : ReadsFrom cs n := by
  induction hleft : cs.length - n using Nat.strong_induction_on generalizing n with
  | _ left ih =>
  subst hleft
  have hrest : ∀ k, n < k → k ≤ cs.length → IsBoundary cs k → ReadsFrom cs k :=
    fun k hlt hk hb => ih (cs.length - k) (by omega) k hk hb rfl
  cases hc : cs[n]? with
  | none =>
    have hend : n = cs.length := Nat.le_antisymm hle (List.getElem?_eq_none_iff.mp hc)
    rw [hend]
    exact readsFrom_length cs
  | some c =>
    have hlt : n < cs.length := lt_length hc
    by_cases hmarker : IsMarker cs n
    · have hlater : n < behindWord cs n := by
        unfold behindWord
        omega
      exact readsFrom_marker hmarker (hrest _ hlater (behindWord_le hlt) (isBoundary_behindWord hlt hmarker.2))
    · by_cases hpair : c = '\\' ∧ cs[n + 1]? = some '\\'
      · obtain ⟨rfl, hnext⟩ := hpair
        exact readsFrom_pair hboundary hc hnext (hrest (n + 2) (by omega) (lt_length hnext))
      · exact readsFrom_plain hboundary hc hmarker (not_and.mp hpair) (hrest (n + 1) (by omega) hlt)

theorem markersFrom_zero (cs : List Char) : markersFrom cs 0 = markers cs := by
  rw [markersFrom, markers, List.range_eq_range', Nat.sub_zero]

/-- Reading stops at the first unknown marker. If there is none, it gives what stands before the first marker and the
sections that start at the markers. -/
theorem ofText_eq (cs : List Char) : ofText cs = outcome cs 0 (markers cs) := by
  have hstart : IsBoundary cs 0 := by
    intro _
    rfl
  have h : ReadsFrom cs 0 := readsFrom_of_isBoundary 0 (Nat.zero_le _) hstart
  rwa [ReadsFrom, List.drop_zero, markersFrom_zero] at h

/-! ## The first unknown marker -/

/-- The text before the first marker as it is read. -/
def freeText (cs : List Char) : List Char := unescape (cs.extract 0 ((markers cs).headD cs.length))

theorem isUnknown_iff :
    IsUnknown cs i ↔ i < cs.length ∧ (decide (IsMarker cs i) && (commandAt? cs i).isNone) = true := by
  rw [IsUnknown, Bool.and_eq_true, decide_eq_true_iff, Option.isNone_iff_eq_none, commandAt?_eq_none_iff]
  constructor
  · intro h
    exact ⟨lt_length h.1.1.1, h⟩
  · intro h
    exact h.2

theorem find?_markers (cs : List Char) : ((markers cs).find? fun i => (commandAt? cs i).isNone) =
    (List.range cs.length).find? fun i => decide (IsMarker cs i) && (commandAt? cs i).isNone := by
  rw [markers, List.find?_filter]
  congr 1
  funext i
  rw [Bool.decide_and, Bool.decide_eq_true, Bool.decide_eq_true]

/-- Either there is a first unknown marker, which is reported, or there is none, and then the parts are read. -/
theorem ofText_cases (cs : List Char) :
    (∃ i, IsUnknown cs i ∧ (∀ j < i, ¬ IsUnknown cs j) ∧
      ofText cs = .error (.unknownCommand (String.ofList (wordAt cs i)))) ∨
    ((∀ i, ¬ IsUnknown cs i) ∧ ofText cs = .ok ⟨freeText cs, (writtenSections cs).map unescaped⟩) := by
  have hread := ofText_eq cs
  rw [outcome, find?_markers] at hread
  cases hfind : (List.range cs.length).find? fun i => decide (IsMarker cs i) && (commandAt? cs i).isNone with
  | some i =>
    rw [hfind] at hread
    obtain ⟨hi, hmem, hbefore⟩ := List.find?_range_eq_some.mp hfind
    have hunknown : IsUnknown cs i := isUnknown_iff.mpr ⟨List.mem_range.mp hmem, hi⟩
    refine .inl ⟨i, hunknown, fun j hj hunknown' => ?_, hread⟩
    have hnot := hbefore j hj
    rw [(isUnknown_iff.mp hunknown').2] at hnot
    cases hnot
  | none =>
    rw [hfind] at hread
    refine .inr ⟨fun i hunknown => ?_, hread⟩
    obtain ⟨hlt, hi⟩ := isUnknown_iff.mp hunknown
    exact List.find?_eq_none.mp hfind i (List.mem_range.mpr hlt) hi

end DocParts

end QiIdl
