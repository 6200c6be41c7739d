import QiIdl.Cpp.Names
import QiIdl.Proofs.Package.Again

/-!
# What bases are registered as

The bases of an interface are names in its file, and a reference of the same text would be resolved there: in the
package that it names, in the file's own package, or in one that the file imports. The full name that a base is
registered under is made from its text alone. It is the full name of what the reference means if the base is dotted
or means something of the file's own package, and otherwise it is another one
(`qualifiedBase_eq_qualified_iff`).

Full names tell packages apart because names have no colons.
-/

namespace QiIdl

namespace Cpp

/-! ## Full names -/

theorem toList_namespacePath (package : String) :
    (namespacePath package).toList = (Text.segments package).flatMap fun s => ':' :: ':' :: s.toList := by
  rw [namespacePath, String.toList_join, List.flatMap_map]
  simp only [String.toList_append]
  rfl

/-- A dotted name with C++ separators is a path of namespaces, but for the separator in front. -/
theorem separator_append_baseName (name : String) : "::" ++ baseName name = namespacePath name := by
  have hpath {ls : List (List Char)} (h : ls ≠ []) :
      ':' :: ':' :: [':', ':'].intercalate ls = ls.flatMap fun l => ':' :: ':' :: l := by
    induction ls with
    | nil => exact absurd rfl h
    | cons first ls ih =>
      cases ls with
      | nil => simp
      | cons second ls =>
        have hrest := ih (List.cons_ne_nil _ _)
        rw [List.intercalate_cons_cons, List.flatMap_cons, ← hrest]
        simp
  apply String.toList_injective
  rw [toList_namespacePath, baseName, Text.replaceChar, String.toList_append, String.toList_intercalate, Text.segments,
    List.flatMap_map, List.map_map]
  have hpieces := hpath (Text.pieces_ne_nil '.' name.toList)
  simpa [Function.comp_def] using hpieces

/-- What is in a package has a full name that ends in its own. -/
theorem qualified_eq_namespacePath {package name : String} (h : '.' ∉ name.toList) :
    qualified package name = namespacePath (package ++ "." ++ name) := by
  apply String.toList_injective
  rw [qualified, String.toList_append, String.toList_append, toList_namespacePath, toList_namespacePath,
    Text.segments_snoc h, List.flatMap_append]
  simp

theorem qualifiedBase_of_dotted {own package name : String} (h : '.' ∉ name.toList) :
    qualifiedBase own (package ++ "." ++ name) = qualified package name := by
  have hdot : (package ++ "." ++ name).toList.contains '.' = true := by simp
  rw [qualifiedBase, if_pos hdot, separator_append_baseName, qualified_eq_namespacePath h]

theorem qualifiedBase_of_plain {own name : String} (h : '.' ∉ name.toList) :
    qualifiedBase own name = qualified own name := by
  have hdot : ¬ name.toList.contains '.' = true := by simpa using h
  rw [qualifiedBase, if_neg hdot]

/-- Between separators, words without colons can be told apart. -/
theorem eq_of_flatMap_eq : ∀ {as bs : List (List Char)}, (∀ a ∈ as, ':' ∉ a) → (∀ b ∈ bs, ':' ∉ b) →
    (as.flatMap fun a => ':' :: ':' :: a) = (bs.flatMap fun b => ':' :: ':' :: b) → as = bs
  | [], [], _, _, _ => rfl
  | [], _ :: _, _, _, h => nomatch h
  | _ :: _, [], _, _, h => nomatch h
  | a :: as, b :: bs, ha, hb, h => by
    have hword {w : List Char} (ws : List (List Char)) (hw : ':' ∉ w) :
        (w ++ ws.flatMap fun w => ':' :: ':' :: w).takeWhile (· != ':') = w := by
      have hall : ∀ c ∈ w, (c != ':') = true := by
        intro c hc
        rw [bne_iff_ne]
        intro heq
        exact hw (heq ▸ hc)
      rw [List.takeWhile_append_of_pos hall]
      cases ws <;> simp
    obtain ⟨ha, has⟩ := List.forall_mem_cons.mp ha
    obtain ⟨hb, hbs⟩ := List.forall_mem_cons.mp hb
    rw [List.flatMap_cons, List.flatMap_cons] at h
    have hrest : a ++ (as.flatMap fun a => ':' :: ':' :: a) = b ++ bs.flatMap fun b => ':' :: ':' :: b :=
      (List.cons.inj (List.cons.inj h).2).2
    have hfirst : a = b := by rw [← hword as ha, ← hword bs hb, hrest]
    subst hfirst
    rw [eq_of_flatMap_eq has hbs (List.append_cancel_left hrest)]

theorem namespacePath_injective {p q : String} (hp : IsDotted p) (hq : IsDotted q)
    (h : namespacePath p = namespacePath q) : p = q := by
  have hcolon {name : String} (hname : IsDotted name) : ∀ s ∈ (Text.segments name).map String.toList, ':' ∉ s := by
    intro s hs hmem
    obtain ⟨segment, hsegment, rfl⟩ := List.mem_map.mp hs
    exact absurd ((hname segment hsegment).isWordPart ':' hmem) (by decide)
  have hlists := congrArg String.toList h
  rw [toList_namespacePath, toList_namespacePath] at hlists
  have hsegments : (Text.segments p).map String.toList = (Text.segments q).map String.toList := by
    refine eq_of_flatMap_eq (hcolon hp) (hcolon hq) ?_
    rw [List.flatMap_map, List.flatMap_map]
    exact hlists
  have hinjective : Function.Injective String.toList := fun _ _ => String.toList_injective
  rw [← Text.intercalate_segments p, ← Text.intercalate_segments q, List.map_injective_iff.mpr hinjective hsegments]

end Cpp

/-! ## Names of packages -/

namespace Manager

variable {m m' : Manager} {disk : Disk}

/-- A file declares a package of a dotted name. -/
theorem Coherent.isDotted_package (hm : m.Coherent) {path : Path} {f : SourceFile} (hf : m.files.find? path = some f) :
    IsDotted f.package := by
  obtain ⟨root, hplaced, -⟩ := hm.placed path f hf
  obtain ⟨tag, hdeclared⟩ := hplaced.declared
  have hmem : Node.package tag f.package ∈ f.ast.roots := by
    have hfilter : Node.package tag f.package ∈ f.ast.roots.filter fun n => n.sort == .package := by
      rw [hdeclared]
      exact List.mem_singleton_self _
    exact (List.mem_filter.mp hfilter).1
  exact (hm.every_sound hf hmem).label

/-- A package that exports something is declared by a file. -/
theorem isDotted_of_findExport (hm : m.Coherent) (hbalanced : m.Balanced) {package name : String} {e : Export}
    (he : m.findExport package name = some e) : IsDotted package := by
  obtain ⟨hfile, rfl, -⟩ := hbalanced.declared_of_findExport hm he
  exact hm.isDotted_package hfile

open Managed Cpp

/-- Take any file that a manager knows, after whatever operations, and a text for which a reference in the file is
resolved. A base of that text is registered under the full name of what the reference means exactly if the text is
dotted or the meaning is in the file's own package. A plain text always stands for something of that package. -/
theorem qualifiedBase_eq_qualified_iff {allowed : Manager → Operation → Prop} (hdisk : disk.root.WellNamed)
    (h : Leads allowed empty m) {name : String} {f : SourceFile} (hf : f ∈ m.packageFiles name) {tag : Mark}
    {base : String} {r : Resolution}
    (hmeans : resolveReference disk f f.package (.type (.custom tag base)) m = .ok r m') :
    (qualifiedBase f.package base = qualified r.package r.name ↔ '.' ∈ base.toList ∨ r.package = f.package) ∧
      ('.' ∉ base.toList → qualifiedBase f.package base = qualified f.package r.name) := by
  have hreached := h.steps named_empty
  have hnamed := hreached.named named_empty
  -- the answer, and the manager that it was found in
  obtain ⟨r', m₁, hwithin, hkeep⟩ := bind_eq_ok.mp hmeans
  cases hkeep
  have hruns : Runs (fun _ _ => True) (resolveWithin disk aliasLimit f f.package (.type (.custom tag base))) m
      fun r m' => m'.Means aliasLimit (.type (.custom tag base)) r :=
    runs_resolveWithin hdisk aliasLimit f f.package _ m hnamed
  obtain ⟨hsteps, _, _, hnode, ⟨hplain, htext⟩, e, n, he, -⟩ := hruns.ok _ _ hwithin
  cases hnode
  have hcoherent := hreached.coherent coherent_empty
  have hpackage : IsDotted r.package := isDotted_of_findExport (hsteps.coherent hcoherent)
    (hsteps.balanced hcoherent (hreached.balanced coherent_empty balanced_empty)) he
  obtain ⟨p, hp, hfile⟩ := mem_packageFiles.mp hf
  have hown : IsDotted f.package := hcoherent.isDotted_package (hcoherent.find?_of_mem hp hfile).2
  rcases htext with rfl | rfl
  · -- a plain name
    rw [qualifiedBase_of_plain hplain]
    refine ⟨⟨?_, ?_⟩, fun _ => rfl⟩
    · intro hsame
      have hpath : namespacePath f.package = namespacePath r.package := by
        have hlists := congrArg String.toList hsame
        simp only [qualified, String.toList_append] at hlists
        exact String.toList_injective (List.append_cancel_right (List.append_cancel_right hlists))
      exact .inr (namespacePath_injective hown hpackage hpath).symm
    · rintro (hdot | hsame)
      · exact absurd hdot hplain
      · rw [hsame]
  · -- a dotted name
    have hdot : '.' ∈ (r.package ++ "." ++ r.name).toList := by simp
    exact ⟨iff_of_true (qualifiedBase_of_dotted hplain) (.inl hdot), fun hnot => absurd hdot hnot⟩

end Manager

/-! ## Imported bases -/

/-- A disk with an interface that has bases of each kind: imported, dotted, and of its own package. -/
def Disk.heirs : Disk :=
  ⟨.directory [("lib", .directory [
    ("a", .directory [("x.qi", .file (some
      "package a\nfrom b import B\ninterface J\nend\ninterface I(B, b.B, J)\nend\n"))]),
    ("b", .directory [("y.qi", .file (some "package b\ninterface B\nend\n"))])])], []⟩

theorem Disk.wellNamed_heirs : Disk.heirs.root.WellNamed := by
  simp [Disk.heirs]

/-- Whether a node is an interface with some base. -/
def Node.hasBase (base : String) : Node α → Bool
  | .interface d => d.inherits.contains base
  | _ => false

namespace Manager

open Managed Cpp

/-- A test that a package resolves, and that a base in one of its files then means something, finds the file and what
the base means. -/
theorem exists_base_of_succeedsWith {package base : String} {tag : Mark} {test : SourceFile → Resolution → Bool}
    (h : succeedsWith (resolvePackage disk package) m (fun _ m' => (m'.packageFiles package).any fun f =>
      f.ast.roots.any (Node.hasBase base) &&
        succeedsWith (resolveReference disk f f.package (.type (.custom tag base))) m' fun r _ => test f r) = true) :
    ∃ m' f r m'', resolvePackage disk package m = .ok () m' ∧ f ∈ m'.packageFiles package ∧
      (∃ n ∈ f.ast.roots, n.hasBase base = true) ∧
      resolveReference disk f f.package (.type (.custom tag base)) m' = .ok r m'' ∧ test f r = true := by
  obtain ⟨_, m', hrun, hany⟩ := exists_of_succeedsWith h
  obtain ⟨f, hf, htest⟩ := List.any_eq_true.mp hany
  simp only [Bool.and_eq_true] at htest
  obtain ⟨r, m'', hmeans, hr⟩ := exists_of_succeedsWith htest.2
  exact ⟨m', f, r, m'', hrun, hf, List.any_eq_true.mp htest.1, hmeans, hr⟩

theorem qualifiedBase_eq_qualified_iff_heirs :
    ∃ m f r m', Leads (fun _ _ => True) empty m ∧ f ∈ m.packageFiles "a" ∧
      resolveReference .heirs f f.package (.type (.custom ⟨0, .point 0⟩ "b.B")) m = .ok r m' ∧ r.package ≠ f.package ∧
      qualifiedBase f.package "b.B" = qualified r.package r.name := by
  let m := (Operation.addInclude "/lib").after .heirs empty
  have hcheck : succeedsWith (resolvePackage .heirs "a") m (fun _ m' => (m'.packageFiles "a").any fun f =>
      f.ast.roots.any (Node.hasBase "b.B") &&
        succeedsWith (resolveReference .heirs f f.package (.type (.custom ⟨0, .point 0⟩ "b.B"))) m' fun r _ =>
          r.package != f.package) = true := by decide +kernel
  obtain ⟨m', f, r, m'', hrun, hf, -, hmeans, hother⟩ := exists_base_of_succeedsWith hcheck
  have hafter : (Operation.resolvePackage "a").after .heirs m = m' := by
    simp only [Operation.after, Operation.run, hrun]
  have hleads : Leads (fun _ _ => True) empty m' :=
    hafter ▸ .step _ _ (.step _ _ .refl Disk.wellNamed_heirs trivial) Disk.wellNamed_heirs trivial
  refine ⟨m', f, r, m'', hleads, hf, hmeans, by simpa using hother, ?_⟩
  exact (qualifiedBase_eq_qualified_iff Disk.wellNamed_heirs hleads hf hmeans).1.mpr (.inl (by decide))

/-- A plain base that is imported is written in the package of the file, and not in the one it is imported from. -/
theorem qualifiedBase_ne_qualified_heirs :
    Disk.heirs.root.WellNamed ∧ ∃ m m' f r m'', LeadsOn .heirs empty m ∧
      resolvePackage .heirs "a" m = .ok () m' ∧ f ∈ m'.packageFiles "a" ∧
      (∃ n ∈ f.ast.roots, n.hasBase "B" = true) ∧
      resolveReference .heirs f f.package (.type (.custom ⟨0, .point 0⟩ "B")) m' = .ok r m'' ∧
      qualified r.package r.name = "::b::B" ∧ qualifiedBase f.package "B" = "::a::B" := by
  let m := (Operation.addInclude "/lib").after .heirs empty
  have hcheck : succeedsWith (resolvePackage .heirs "a") m (fun _ m' => (m'.packageFiles "a").any fun f =>
      f.ast.roots.any (Node.hasBase "B") &&
        succeedsWith (resolveReference .heirs f f.package (.type (.custom ⟨0, .point 0⟩ "B"))) m' fun r _ =>
          qualified r.package r.name == "::b::B" && qualifiedBase f.package "B" == "::a::B") = true := by
    decide +kernel
  obtain ⟨m', f, r, m'', hrun, hf, hbase, hmeans, htest⟩ := exists_base_of_succeedsWith hcheck
  simp only [Bool.and_eq_true, beq_iff_eq] at htest
  have hleads : LeadsOn .heirs empty m := .step _ .refl
  exact ⟨Disk.wellNamed_heirs, m, m', f, r, m'', hleads, hrun, hf, hbase, hmeans, htest⟩

end Manager

end QiIdl
