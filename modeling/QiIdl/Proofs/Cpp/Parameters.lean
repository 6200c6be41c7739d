import Mathlib.Data.List.Nodup
import QiIdl.Cpp.File
import QiIdl.Proofs.Cpp.ByValue
import QiIdl.Proofs.Table

/-!
# Names of parameters

A parameter goes by the name it is declared with, or else by one that is made from its place in the list. Names that
are made from places are distinct. But nothing keeps them apart from declared ones, for `p1` is a name like any other:
in `(p1 int32, str)` both parameters go by it.

So names that are declared without repetition make a list without repetition exactly if none of them is made from the
place of a parameter without a name (`nodup_names_iff`). Where one is, a signature has two parameters of one name, and of
their two entries in the documentation map one is lost (`parameters_distinct_iff`).
-/

namespace QiIdl

namespace Param

variable {α : Type}

def declared (ps : List (Param α)) : List String := ps.filterMap (·.name)

/-- The places of the parameters that are declared without a name. -/
def places (ps : List (Param α)) : List Nat := (ps.zipIdx.filter (·.1.name.isNone)).map Prod.snd

/-- The names that are made for parameters without one. -/
def invented (ps : List (Param α)) : List String := (places ps).map (parameterName none)

theorem mem_places {ps : List (Param α)} {i : Nat} : i ∈ places ps ↔ ∃ p, ps[i]? = some p ∧ p.name = none := by
  simp [places, List.mem_zipIdx_iff_getElem?]

theorem parameterName_injective : Function.Injective (parameterName none) := by
  intro i j h
  have hdigits := congrArg String.toList ((String.append_right_inj "p").mp h)
  simp only [Nat.toString_eq_ofList_toDigits, String.toList_ofList] at hdigits
  rw [← Nat.ofDigitChars_ten_toDigits (n := i), hdigits, Nat.ofDigitChars_ten_toDigits]

theorem nodup_invented (ps : List (Param α)) : (invented ps).Nodup := by
  have hplaces : (places ps).Sublist (List.range' 0 ps.length) := by
    rw [← List.zipIdx_map_snd 0 ps]
    exact List.filter_sublist.map Prod.snd
  exact (hplaces.nodup List.nodup_range').map parameterName_injective

/-- Every name is declared or made, and each parameter has one. -/
theorem perm_names (ps : List (Param α)) : (names ps).Perm (declared ps ++ invented ps) := by
  -- the same from any place on
  have hfrom (n : Nat) : ((ps.zipIdx n).map fun p => parameterName p.1.name p.2).Perm
      (declared ps ++ ((ps.zipIdx n).filter (·.1.name.isNone)).map fun p => parameterName none p.2) := by
    induction ps generalizing n with
    | nil => exact .nil
    | cons p ps ih =>
      rw [List.zipIdx_cons, List.map_cons]
      cases hname : p.name with
      | some name =>
        simp only [declared, List.filterMap_cons, List.filter_cons, hname, Option.isNone_some, Bool.false_eq_true,
          if_false, List.cons_append]
        exact (ih (n + 1)).cons name
      | none =>
        simp only [declared, List.filterMap_cons, List.filter_cons, hname, Option.isNone_none, if_true,
          List.map_cons]
        exact ((ih (n + 1)).cons _).trans List.perm_middle.symm
  simpa [invented, places, names, Function.comp_def] using hfrom 0

/-- Distinct declared names stay distinct among all names exactly if none of them is made from a place. -/
theorem nodup_names_iff {ps : List (Param α)} (h : (declared ps).Nodup) :
    (names ps).Nodup ↔ ∀ name ∈ invented ps, name ∉ declared ps := by
  rw [(perm_names ps).nodup_iff, List.nodup_append]
  constructor
  · rintro ⟨-, -, hne⟩ name hmade hdeclared
    exact hne name hdeclared name hmade rfl
  · refine fun hapart => ⟨h, nodup_invented ps, ?_⟩
    rintro name hdeclared _ hmade rfl
    exact hapart name hmade hdeclared

/-! ## The documentation map -/

/-- The documentation map of a parameter list has the entries that the parameters have names, each once. -/
theorem exists_docMap (doc : Option Doc) (ps : List (Param α)) : ∃ members : Table String JsonDoc,
    docMap doc ps = .object members ∧ members.keys.Nodup ∧ ∀ name, name ∈ members.keys ↔ name ∈ names ps := by
  have hfirst : ((names ps).zip ps).map Prod.fst = names ps := List.map_fst_zip (by simp [names])
  refine ⟨_, rfl, (Table.sorted_ofEntries _).nodup_keys, fun name => ?_⟩
  rw [Table.mem_keys_ofEntries, List.map_map]
  exact iff_of_eq (congrArg (name ∈ ·) hfirst)

/-- A list of all names, each once, is short of the parameters by the number of names that are declared and made. -/
theorem length_of_nodup {ps : List (Param α)} {keys : List String} (h : (declared ps).Nodup) (hkeys : keys.Nodup)
    (hmem : ∀ name, name ∈ keys ↔ name ∈ names ps) :
    keys.length + (invented ps).countP (· ∈ declared ps) = ps.length := by
  have hnodup : (declared ps ++ (invented ps).filter (· ∉ declared ps)).Nodup := by
    refine List.nodup_append.mpr ⟨h, (nodup_invented ps).filter _, ?_⟩
    rintro name hdeclared _ hmade rfl
    exact absurd hdeclared (by simpa using (List.mem_filter.mp hmade).2)
  have hperm : keys.Perm (declared ps ++ (invented ps).filter (· ∉ declared ps)) := by
    refine (List.perm_ext_iff_of_nodup hkeys hnodup).mpr fun name => ?_
    rw [hmem, (perm_names ps).mem_iff]
    simp only [List.mem_append, List.mem_filter, decide_eq_true_eq]
    by_cases hdeclared : name ∈ declared ps <;> simp [hdeclared]
  have hlength := hperm.length_eq
  have hnames : ps.length = (declared ps).length + (invented ps).length := by
    simpa [names] using (perm_names ps).length_eq
  have hsplit := List.length_eq_countP_add_countP (· ∈ declared ps) (l := invented ps)
  rw [List.length_append, ← List.countP_eq_length_filter] at hlength
  simp only [decide_eq_true_eq] at hsplit
  omega

end Param

/-! ## Signatures -/

namespace Cpp.Scope

variable {c : Scope} {s : Guards} {ps : List (Param Mark)} {text : String}

/-- Types and names, as many of the one as of the other, are written as pairs. -/
theorem exists_types_of_param {ts : List (TypeExpr Mark)} {names texts : List String} (hlength : names.length = ts.length)
    (h : List.Forall₂ (fun p text => c.param s .full p = .ok text) (ts.zip names) texts) :
    ∃ types : List String, types.length = ts.length ∧
      texts = types.zipWith (fun type name => type ++ " " ++ name) names := by
  induction ts generalizing names texts with
  | nil =>
    cases h
    exact ⟨[], rfl, rfl⟩
  | cons t ts ih =>
    cases names with
    | nil => cases hlength
    | cons name names =>
      cases h with
      | cons hfirst hrest =>
        obtain ⟨type, -, heq⟩ := bind_eq_ok_iff.mp hfirst
        cases heq
        obtain ⟨types, htypes, rfl⟩ := ih (Nat.succ.inj hlength) hrest
        exact ⟨type :: types, congrArg Nat.succ htypes, rfl⟩

/-- A parameter list is written as the types and the names of its parameters, in order. -/
theorem exists_types_of_params (h : c.params s .full ps = .ok text) : ∃ types : List String,
    types.length = ps.length ∧
      text = commaList (types.zipWith (fun type name => type ++ " " ++ name) (Param.names ps)) := by
  obtain ⟨texts, htexts, hjoin⟩ := bind_eq_ok_iff.mp h
  cases hjoin
  obtain ⟨types, htypes, rfl⟩ := exists_types_of_param (by simp [Param.names]) (mapM_eq_ok_iff.mp htexts)
  exact ⟨types, by simpa using htypes, rfl⟩

theorem params_names : c.params s .names ps = .ok (commaList (Param.names ps)) := by
  have hsecond : ((ps.map (·.type)).zip (Param.names ps)).map Prod.snd = Param.names ps :=
    List.map_snd_zip (by simp [Param.names])
  have hall : List.Forall₂ (fun p text => c.param s.activate .names p = .ok text)
      ((ps.map (·.type)).zip (Param.names ps)) (((ps.map (·.type)).zip (Param.names ps)).map Prod.snd) :=
    List.forall₂_map_right_iff.mpr (List.forall₂_same.mpr fun _ _ => rfl)
  rw [hsecond] at hall
  exact bind_eq_ok_iff.mpr ⟨_, mapM_eq_ok_iff.mpr hall, rfl⟩

end Cpp.Scope

/-! ## Distinct parameters -/

/-- Take parameters whose declared names are distinct. All their names are distinct exactly if no parameter without a
name stands at the place that a declared name is made from. These names, in order, are what a signature and a call are
written with; and the documentation map has one entry for each of them, so it has an entry for every parameter less one
for each name that is both declared and made. -/
theorem parameters_distinct_iff {ps : List (Param Mark)} (h : (Param.declared ps).Nodup) :
    ((Param.names ps).Nodup ↔
      ∀ (i : Nat) (p : Param Mark), ps[i]? = some p → p.name = none → s!"p{i}" ∉ Param.declared ps) ∧
    (∀ (c : Cpp.Scope) (s : Cpp.Guards), c.params s .names ps = .ok (commaList (Param.names ps)) ∧
      ∀ text, c.params s .full ps = .ok text → ∃ types : List String, types.length = ps.length ∧
        text = commaList (types.zipWith (fun type name => type ++ " " ++ name) (Param.names ps))) ∧
    ∀ doc, ∃ members : Table String JsonDoc, Param.docMap doc ps = .object members ∧ members.keys.Nodup ∧
      (∀ name, name ∈ members.keys ↔ name ∈ Param.names ps) ∧
      members.length + (Param.invented ps).countP (· ∈ Param.declared ps) = ps.length := by
  refine ⟨(Param.nodup_names_iff h).trans ?_, ?_, ?_⟩
  · -- what is made is made from the place of a parameter without a name
    rw [Param.invented, List.forall_mem_map]
    constructor
    · exact fun hapart i p hp hname => hapart i (Param.mem_places.mpr ⟨p, hp, hname⟩)
    · intro hapart i hi
      obtain ⟨p, hp, hname⟩ := Param.mem_places.mp hi
      exact hapart i p hp hname
  · exact fun c s => ⟨Cpp.Scope.params_names, fun text => Cpp.Scope.exists_types_of_params⟩
  · intro doc
    obtain ⟨members, hmap, hnodup, hmem⟩ := Param.exists_docMap doc ps
    have hlength := Param.length_of_nodup h hnodup hmem
    rw [Table.keys, List.length_map] at hlength
    exact ⟨members, hmap, hnodup, hmem, hlength⟩

/-- The second parameter has no name, and the first has the name that is made from the second place. -/
theorem parameters_distinct_iff_second :
    ∃ ast d f, parseSource "interface I\n fn f(p1 int32, str)\nend\n" "i.qi" = .ok ast ∧ d ∈ ast.interfaces ∧
      f ∈ d.methods ∧ (Param.declared f.params).Nodup ∧ ¬ (Param.names f.params).Nodup ∧ f.params.length = 2 ∧
      ∃ members : Table String JsonDoc, Param.docMap none f.params = .object members ∧ members.length = 1 := by
  have hcheck : (parseSource "interface I\n fn f(p1 int32, str)\nend\n" "i.qi").toOption.any (fun ast =>
      ast.interfaces.any fun d => d.methods.any fun f => f.params.length == 2 &&
        Param.declared f.params == ["p1"] && Param.invented f.params == ["p1"]) = true := by decide +kernel
  obtain ⟨ast, hread, hany⟩ := exists_ok_of_any hcheck
  obtain ⟨d, hd, hany⟩ := List.any_eq_true.mp hany
  obtain ⟨f, hf, htest⟩ := List.any_eq_true.mp hany
  simp only [Bool.and_eq_true, beq_iff_eq] at htest
  obtain ⟨⟨hlength, hdeclared⟩, hinvented⟩ := htest
  have hnodup : (Param.declared f.params).Nodup := by simp [hdeclared]
  have hnames : ¬ (Param.names f.params).Nodup := by simp [Param.nodup_names_iff hnodup, hdeclared, hinvented]
  obtain ⟨members, hmap, -, -, hentries⟩ := (parameters_distinct_iff hnodup).2.2 none
  rw [hdeclared, hinvented, hlength] at hentries
  exact ⟨ast, d, f, hread, hd, hf, hnodup, hnames, hlength, members, hmap, Nat.succ.inj hentries⟩

end QiIdl
