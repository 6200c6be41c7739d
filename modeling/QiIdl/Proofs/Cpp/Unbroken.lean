import QiIdl.Proofs.Ast.Forest
import QiIdl.Proofs.Cpp.Bases
import QiIdl.Proofs.Cpp.Rows

/-!
# Names and types fit on a line

Names are words, so neither they nor what is made from them has a line feed in it: not the upper case of a name, not
its path of namespaces, and not the name of what a reference means, since a reference is written as names are
(`Manager.Leads.unbroken_of_resolution?`). So every type and every parameter list is written on one line
(`Scope.unbroken_method`), and so is any text in quotes (`unbroken_quote`).
-/

namespace QiIdl

namespace Text

@[simp] theorem unbroken_append {a b : String} : Unbroken (a ++ b) ↔ Unbroken a ∧ Unbroken b := by
  simp [Unbroken]

theorem unbroken_ofList {cs : List Char} (h : '\n' ∉ cs) : Unbroken (String.ofList cs) := by
  rwa [Unbroken, String.toList_ofList]

theorem unbroken_intercalate {sep : String} (hsep : Unbroken sep) {texts : List String}
    (h : ∀ text ∈ texts, Unbroken text) : Unbroken (sep.intercalate texts) := by
  induction texts with
  | nil =>
    rw [String.intercalate_nil]
    exact unbroken_ofList List.not_mem_nil
  | cons text texts ih =>
    obtain ⟨htext, htexts⟩ := List.forall_mem_cons.mp h
    cases texts with
    | nil => rwa [String.intercalate_singleton]
    | cons next texts =>
      rw [String.intercalate_cons_cons]
      exact (htext.append hsep).append (ih htexts)

/-- What is quoted has its line feeds written as escapes. -/
theorem unbroken_quote (text : String) : Unbroken (quote text) := by
  have hchar (c : Char) : '\n' ∉ quoteChar c := by
    unfold quoteChar escape?
    split
    · next e he => split at he <;> cases he <;> decide
    · next he =>
      rw [List.mem_singleton]
      rintro rfl
      cases he
  apply unbroken_ofList
  simp [quoteChars, hchar]

theorem newline_not_mem_upperChar {c : Char} (hc : c ≠ '\n') : '\n' ∉ upperChar c := by
  have hcode {n : Nat} (hn : 10 < n) : '\n' ≠ Char.ofNat n := by
    intro heq
    have hnat : 10 = (Char.ofNat n).toNat := congrArg Char.toNat heq
    by_cases hvalid : n.isValidChar
    · have hsame : (Char.ofNat n).toNat = n := congrArg Char.toNat (dif_pos hvalid)
      omega
    · have hzero : (Char.ofNat n).toNat = 0 := congrArg Char.toNat (dif_neg hvalid)
      omega
  unfold upperChar
  split
  · next codes hfound =>
    have hall : ∀ entry ∈ upperExpansions, ∀ code ∈ entry.2, 10 < code := by decide +kernel
    rw [List.mem_map]
    rintro ⟨code, hmem, heq⟩
    exact hcode (hall _ (List.mem_of_find?_eq_some hfound) code hmem) heq.symm
  · split
    · next run hrun =>
      have hall : ∀ run ∈ upperRuns, 10 < run.first + run.shift := by decide +kernel
      have hcovers := List.find?_some hrun
      have hlow := hall _ (List.mem_of_find?_eq_some hrun)
      simp only [CaseRun.covers, Bool.and_eq_true, decide_eq_true_eq] at hcovers
      rw [List.mem_singleton]
      exact hcode (by omega)
    · rw [List.mem_singleton]
      exact hc.symm

theorem unbroken_uppercase {text : String} (h : Unbroken text) : Unbroken (uppercase text) := by
  apply unbroken_ofList
  rw [List.mem_flatMap]
  rintro ⟨c, hc, hmem⟩
  refine newline_not_mem_upperChar ?_ hmem
  rintro rfl
  exact h hc

theorem unbroken_toString (n : Nat) : Unbroken (toString n) :=
  unbroken_ofList fun hmem => absurd (Nat.isDigit_of_mem_toDigits (by decide) (by decide) hmem) (by decide)

end Text

open Text

theorem IsName.unbroken {name : String} (h : IsName name) : Unbroken name := by
  intro hmem
  exact absurd (h.isWordPart '\n' hmem) (by decide)

theorem IsDotted.unbroken {name : String} (h : IsDotted name) : Unbroken name := by
  rw [← intercalate_segments name]
  exact unbroken_intercalate (by decide) fun segment hsegment => (h segment hsegment).unbroken

namespace Cpp

theorem unbroken_commaList {texts : List String} (h : ∀ text ∈ texts, Unbroken text) : Unbroken (commaList texts) :=
  unbroken_intercalate (by decide) h

theorem unbroken_namespacePath {package : String} (h : IsDotted package) : Unbroken (namespacePath package) := by
  rw [Unbroken, toList_namespacePath, List.mem_flatMap]
  rintro ⟨segment, hsegment, hmem⟩
  rcases List.mem_cons.mp hmem with heq | hmem
  · cases heq
  · rcases List.mem_cons.mp hmem with heq | hmem
    · cases heq
    · exact (h segment hsegment).unbroken hmem

theorem unbroken_qualified {package name : String} (hpackage : IsDotted package) (hname : Unbroken name) :
    Unbroken (qualified package name) :=
  ((unbroken_namespacePath hpackage).append (by decide)).append hname

theorem unbroken_qualifiedBase {package base : String} (hpackage : IsDotted package) (hbase : IsDotted base) :
    Unbroken (qualifiedBase package base) := by
  unfold qualifiedBase
  split
  · rw [separator_append_baseName]
    exact unbroken_namespacePath hbase
  · exact unbroken_qualified hpackage hbase.unbroken

end Cpp

/-! ## What references mean -/

namespace Manager

variable {m : Manager} {path : Path} {id : Nat} {r : Resolution}

/-- Everything in the arena of a file that is known, expressions around literals apart, is sound. -/
theorem Coherent.sound_custom (hm : m.Coherent) {f : SourceFile} (hf : m.files.find? path = some f) {tag : Mark}
    {text : String} (hnode : f.ast.nodes[id]? = some (.type (.custom tag text))) : IsDotted text := by
  obtain ⟨root, hplaced, -⟩ := hm.placed path f hf
  have hlaid := laid_of_parseSource hplaced.parsed
  have hmem : Node.type (.custom tag text) ∈ f.ast.nodes := Array.mem_of_getElem? hnode
  have htrees : ∀ t ∈ f.ast.trees, t.Every Node.Sound := by
    intro t ht
    obtain ⟨n, hn, rfl⟩ := List.mem_map.mp ht
    exact hm.every_sound hf hn
  rcases hlaid.known _ hmem with hlabel | ⟨_, _, heq, -⟩
  · exact (Tree.forall_postAll htrees _ hlabel).1
  · cases heq

/-- What is kept about a reference has a full name without line feeds. -/
theorem Leads.unbroken_of_resolution? (h : Leads Operation.AsksKnown empty m) (hr : m.resolution? path id = some r) :
    Unbroken (Cpp.qualified r.package r.name) := by
  obtain ⟨f, node, hf, hnode, tag, text, rfl, ⟨hplain, htext⟩, e, n, he, -⟩ := h.sound path id r hr
  have hregular := h.regular
  have hdotted := hregular.coherent.sound_custom hf hnode
  have hpackage := isDotted_of_findExport hregular.coherent hregular.balanced he
  refine Cpp.unbroken_qualified hpackage ?_
  rcases htext with rfl | rfl
  · exact hdotted.unbroken
  · exact (unbroken_append.mp hdotted.unbroken).2

end Manager

/-! ## Types and parameters -/

namespace Cpp.Scope

variable {c : Scope} {s : Guards} {t : TypeExpr Mark} {text : String}

/-- What the references of the file mean has full names without line feeds. -/
def NamesUnbroken (c : Scope) : Prop :=
  ∀ id r, c.manager.resolution? c.file.path id = some r → Unbroken (qualified r.package r.name)

theorem ByValue.unbroken (h : c.ByValue t text) (hnames : c.NamesUnbroken) : Unbroken text := by
  induction h with
  | builtin m t => cases t <;> exact unbroken_ofList (by decide)
  | custom name hr =>
    refine (hnames _ _ hr).append ?_
    split <;> exact unbroken_ofList (by decide)
  | list m _ ih => exact ((unbroken_ofList (by decide)).append ih).append (unbroken_ofList (by decide))
  | map m _ _ ihkey ihvalue | pair m _ _ ihkey ihvalue =>
    exact ((((unbroken_ofList (by decide)).append ihkey).append (unbroken_ofList (by decide))).append ihvalue).append
      (unbroken_ofList (by decide))

theorem unbroken_plain (hnames : c.NamesUnbroken) (h : c.plain t = .ok text) : Unbroken text :=
  (plain_eq_ok_iff.mp h).unbroken hnames

theorem unbroken_typeName (hnames : c.NamesUnbroken) (h : c.typeName s t = .ok text) : Unbroken text := by
  obtain ⟨plain, hplain, rfl⟩ := typeName_eq_ok_iff.mp h
  have hunbroken := hplain.unbroken hnames
  rw [passed]
  split
  · exact ((unbroken_ofList (by decide)).append hunbroken).append (unbroken_ofList (by decide))
  · exact hunbroken

theorem unbroken_returnType (hnames : c.NamesUnbroken) {ret : Option (TypeExpr Mark)}
    (h : c.returnType s ret = .ok text) : Unbroken text := by
  cases ret with
  | none =>
    cases h
    exact unbroken_ofList (by decide)
  | some t =>
    rw [returnType_some] at h
    exact unbroken_plain hnames h

theorem unbroken_names {ps : List (Param Mark)} (hps : Param.Named ps) : ∀ name ∈ Param.names ps, Unbroken name := by
  intro name hname
  obtain ⟨⟨p, index⟩, hp, rfl⟩ := List.mem_map.mp hname
  have hmem : p ∈ ps := List.fst_mem_of_mem_zipIdx hp
  show Unbroken (parameterName p.name index)
  cases hdeclared : p.name with
  | none => exact (unbroken_ofList (by decide)).append (unbroken_toString index)
  | some name => exact (hps p hmem name hdeclared).unbroken

/-- A parameter list is written on one line, in whatever style. -/
theorem unbroken_params (hnames : c.NamesUnbroken) {style : ParamStyle} {ps : List (Param Mark)} (hps : Param.Named ps)
    (h : c.params s style ps = .ok text) : Unbroken text := by
  obtain ⟨texts, htexts, hjoin⟩ := bind_eq_ok_iff.mp h
  cases hjoin
  refine unbroken_commaList fun text htext => ?_
  obtain ⟨⟨type, name⟩, hp, hparam⟩ := exists_of_forall₂ (mapM_eq_ok_iff.mp htexts) htext
  have hname := unbroken_names hps name (List.of_mem_zip hp).2
  cases style with
  | full =>
    obtain ⟨type, htype, heq⟩ := bind_eq_ok_iff.mp hparam
    cases heq
    exact ((unbroken_typeName hnames htype).append (unbroken_ofList (by decide))).append hname
  | types => exact unbroken_typeName hnames hparam
  | names =>
    cases hparam
    exact hname

/-- Everything that a method is written with fits on a line. -/
structure Method.Unbroken (m : Method) : Prop where
  name : Text.Unbroken m.name
  ret : Text.Unbroken m.ret
  params : Text.Unbroken m.params
  types : Text.Unbroken m.types
  names : Text.Unbroken m.names

theorem unbroken_method (hnames : c.NamesUnbroken) {f : Fn Mark} (hf : (Node.fn f).Sound) {m : Method}
    (h : c.method f = .ok m) : m.Unbroken := by
  obtain ⟨hname, hparams, -⟩ := hf
  obtain ⟨ret, hret, h⟩ := bind_eq_ok_iff.mp h
  obtain ⟨full, hfull, h⟩ := bind_eq_ok_iff.mp h
  obtain ⟨types, htypes, h⟩ := bind_eq_ok_iff.mp h
  obtain ⟨names, hcalled, h⟩ := bind_eq_ok_iff.mp h
  cases h
  exact ⟨hname.unbroken, unbroken_returnType hnames hret, unbroken_params hnames hparams hfull,
    unbroken_params hnames hparams htypes, unbroken_params hnames hparams hcalled⟩

theorem unbroken_trailing {list : String} (h : Unbroken list) : Unbroken (trailing list) := by
  unfold trailing
  split
  · exact h
  · exact (unbroken_ofList (by decide)).append h

end Cpp.Scope
end QiIdl
