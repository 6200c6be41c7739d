import QiIdl.Proofs.Package.Again

/-!
# Which export a reference stands for

Resolving a reference goes through the packages that may have its name, loads each of them when its turn comes, and
stops at the first that decides. Where they are all loaded, there is nothing left to do on the way, and what the
reference stands for can be said at once (`Manager.choice`): a dotted name is looked up in the package it names; a
plain one in the file's own package, and then by the first import statement that decides about it
(`Manager.decides`). A statement that lists a name decides also where its package has no such export, one that brings
in whatever there is does not.
-/

namespace QiIdl

variable {e : Export} {ds : List (Import Mark)} {file : SourceFile}

/-- What a name stands for: an export of a package, nothing in the package that should have it, or nothing anywhere. -/
inductive Choice where
  | found (package : String) (e : Export)
  | missing (name package : String)
  | nowhere (name : String)

namespace Manager

variable {m : Manager} {name package : String}

/-- A package is loaded for the include directories there are, and exports no name twice. -/
def Settled (m : Manager) (name : String) : Prop :=
  ∃ p, m.packages.find? name = some p ∧ p.isLoaded m.includes.length = true ∧ p.duplicates = 0

theorem settled_iff :
    m.Settled name ↔
      (m.packages.find? name).any (fun p => p.isLoaded m.includes.length && p.duplicates == 0) = true := by
  unfold Settled
  cases m.packages.find? name <;> simp

instance : Decidable (m.Settled name) := decidable_of_iff _ settled_iff.symm

/-- What a name stands for in the package that should have it. -/
def choiceIn (m : Manager) (package name : String) : Choice :=
  (m.findExport package name).elim (.missing name package) (.found package)

/-- Whether an import statement decides what a name stands for: it lists the name, or it brings in all of a package
that exports it. -/
def decides (m : Manager) (name : String) (d : Import Mark) : Bool :=
  match d.scope with
  | .package | .all => (m.findExport d.package name).isSome
  | .names names => names.contains name

/-- What a plain name stands for by some import statements. -/
def choiceAmong (m : Manager) (name : String) (ds : List (Import Mark)) : Choice :=
  (ds.find? (m.decides name)).elim (.nowhere name) fun d => m.choiceIn d.package name

/-- What a reference stands for in a file of a package. -/
def choice (m : Manager) (file : SourceFile) (package text : String) : Choice :=
  match Text.splitLast text with
  | some (dotted, last) => m.choiceIn dotted last
  | none => (m.findExport package text).elim (m.choiceAmong text file.imports) (.found package)

theorem Settled.loadPackage {disk : Disk} {location : Location} (h : m.Settled name) :
    Managed.loadPackage disk name location m = .ok () m := by
  obtain ⟨p, hp, hloaded, hnone⟩ := h
  refine loadPackage_of_loaded (loaded_iff.mpr ⟨p, hp, hloaded⟩) ?_
  simp [clash?, hp, hnone]

theorem choiceIn_of_some (he : m.findExport package name = some e) :
    m.choiceIn package name = .found package e := by rw [choiceIn, he, Option.elim_some]

theorem choiceIn_of_none (he : m.findExport package name = none) :
    m.choiceIn package name = .missing name package := by rw [choiceIn, he, Option.elim_none]

theorem choiceAmong_of_decides {d : Import Mark} (hd : m.decides name d = true) :
    m.choiceAmong name (d :: ds) = m.choiceIn d.package name := by
  rw [choiceAmong, List.find?_cons_of_pos hd, Option.elim_some]

theorem choiceAmong_of_not_decides {d : Import Mark} (hd : m.decides name d = false) :
    m.choiceAmong name (d :: ds) = m.choiceAmong name ds := by
  rw [choiceAmong, List.find?_cons_of_neg (by simp [hd]), choiceAmong]

/-- Keeping an answer changes nothing about what exports denote. -/
theorem Denotes.keep {n : Nat} {kind : SymbolKind} (h : m.Denotes n e kind) (path : Path) (id : Nat) (r : Resolution) :
    (m.keep path id r).Denotes n e kind := by
  induction h with
  | declared hkind => exact .declared hkind
  | named hnode htype hrefers hnext _ ih => exact .named hnode htype hrefers hnext ih

/-- An export that a reference stands for goes by the name that the reference ends in. -/
theorem refers_of_choice {text q : String} (hm : m.Named) (h : m.choice file package text = .found q e) :
    Refers text q e.name ∧ m.findExport q e.name = some e := by
  -- what is found in a package is found under its own name
  have hin {package name : String} (hfound : m.choiceIn package name = .found q e) :
      package = q ∧ name = e.name ∧ m.findExport q e.name = some e := by
    cases he : m.findExport package name with
    | none =>
      rw [choiceIn_of_none he] at hfound
      cases hfound
    | some e' =>
      rw [choiceIn_of_some he] at hfound
      cases hfound
      have hname := hm q name e he
      exact ⟨rfl, hname.symm, hname.symm ▸ he⟩
  unfold choice at h
  split at h
  · next dotted last hsplit =>
    obtain ⟨htext, hlast⟩ := Text.splitLast_eq_some hsplit
    obtain ⟨rfl, rfl, he⟩ := hin h
    exact ⟨⟨hlast, .inr htext⟩, he⟩
  · next hsplit =>
    have hplain := Text.splitLast_eq_none hsplit
    cases hown : m.findExport package text with
    | some own =>
      rw [hown] at h
      cases h
      have hname := hm package text e hown
      exact ⟨⟨hname ▸ hplain, .inl hname.symm⟩, hname.symm ▸ hown⟩
    | none =>
      rw [hown, Option.elim_none, choiceAmong] at h
      cases hd : file.imports.find? (m.decides text) with
      | none =>
        rw [hd] at h
        cases h
      | some d =>
        rw [hd] at h
        obtain ⟨-, rfl, he⟩ := hin h
        exact ⟨⟨hplain, .inl rfl⟩, he⟩

end Manager

namespace Managed

open Manager

variable {disk : Disk} {follow : Follow} {m : Manager} {package name text : String} {location : Location}

/-- What a reference means by what it stands for. -/
def answer (follow : Follow) (location : Location) : Choice → Managed Resolution
  | .found package e => classify follow package e location
  | .missing name package => unresolvable location (.symbolNotFound name package)
  | .nowhere name => unresolvable location (.unresolved name)

theorem answer_choiceIn : answer follow location (m.choiceIn package name) =
    (m.findExport package name).elim (unresolvable location (.symbolNotFound name package))
      (classify follow package · location) := by
  cases he : m.findExport package name with
  | none => rw [choiceIn_of_none he, Option.elim_none, answer]
  | some e => rw [choiceIn_of_some he, Option.elim_some, answer]

theorem resolveDotted_eq (hsettled : m.Settled package) :
    resolveDotted disk follow package name location m = answer follow location (m.choiceIn package name) m := by
  rw [resolveDotted, bind_of_ok hsettled.loadPackage, get_bind_eq, answer_choiceIn]
  cases m.findExport package name <;> rfl

/-- Going through import statements ends with the first that decides. -/
theorem resolveImported_eq {ast : Ast} (hsettled : ∀ d ∈ ds, m.Settled d.package) :
    resolveImported disk follow ast name location ds m = answer follow location (m.choiceAmong name ds) m := by
  induction ds with
  | nil => rfl
  | cons d ds ih =>
    obtain ⟨hd, hds⟩ := List.forall_mem_cons.mp hsettled
    obtain ⟨tag, imported, scope⟩ := d
    -- a statement that brings in all of its package decides where there is something to find
    have hall (hoffers : importOffers name scope = (true, false))
        (hdecides : m.decides name ⟨tag, imported, scope⟩ = (m.findExport imported name).isSome) :
        resolveImported disk follow ast name location (⟨tag, imported, scope⟩ :: ds) m =
          answer follow location (m.choiceAmong name (⟨tag, imported, scope⟩ :: ds)) m := by
      rw [resolveImported, hoffers]
      simp only [Bool.not_true, Bool.false_eq_true, if_false]
      rw [bind_of_ok hd.loadPackage, get_bind_eq]
      cases he : m.findExport imported name with
      | none =>
        rw [choiceAmong_of_not_decides (by rw [hdecides, he]; rfl)]
        exact ih hds
      | some e =>
        rw [choiceAmong_of_decides (by rw [hdecides, he]; rfl), choiceIn_of_some he]
        rfl
    cases scope with
    | package => exact hall rfl rfl
    | all => exact hall rfl rfl
    | names names =>
      have hdecides : m.decides name ⟨tag, imported, .names names⟩ = names.contains name := rfl
      cases hlisted : names.contains name with
      | false =>
        rw [resolveImported, importOffers, hlisted, choiceAmong_of_not_decides (hdecides.trans hlisted)]
        exact ih hds
      | true =>
        rw [resolveImported, importOffers, hlisted, choiceAmong_of_decides (hdecides.trans hlisted), answer_choiceIn]
        simp only [Bool.not_true, Bool.false_eq_true, if_false, if_true]
        rw [bind_of_ok hd.loadPackage, get_bind_eq]
        cases m.findExport imported name <;> rfl

theorem resolveName_eq (himports : ∀ d ∈ file.imports, m.Settled d.package)
    (hdotted : ∀ dotted last, Text.splitLast text = some (dotted, last) → m.Settled dotted) :
    resolveName disk follow file package text location m =
      answer follow location (m.choice file package text) m := by
  unfold resolveName choice
  cases hsplit : Text.splitLast text with
  | some pair =>
    obtain ⟨dotted, last⟩ := pair
    exact resolveDotted_eq (hdotted dotted last hsplit)
  | none =>
    simp only [get_bind_eq]
    cases m.findExport package text with
    | none => exact resolveImported_eq himports
    | some e => rfl

/-! ## References -/

/-- Finds what a reference means by what it stands for, and keeps the answer. -/
def keepAnswer (disk : Disk) (file : SourceFile) (node : Node Mark) (c : Choice) : Managed Resolution := do
  let r ← answer (some (resolveWithin disk (aliasLimit - 1))) (file.ast.location node) c
  modify (·.keep file.path node.tag.id r)
  pure r

theorem resolveReference_eq {tag : Mark} (himports : ∀ d ∈ file.imports, m.Settled d.package)
    (hdotted : ∀ dotted last, Text.splitLast text = some (dotted, last) → m.Settled dotted) :
    resolveReference disk file package (.type (.custom tag text)) m =
      keepAnswer disk file (.type (.custom tag text)) (m.choice file package text) m := by
  have hwithin : resolveWithin disk aliasLimit file package (.type (.custom tag text)) m =
      answer (some (resolveWithin disk (aliasLimit - 1))) (file.ast.location (.type (.custom tag text)))
        (m.choice file package text) m := resolveName_eq himports hdotted
  simp only [resolveReference, keepAnswer, bind, EStateM.bind, hwithin]
  rfl

theorem classify_of_symbolKind? {kind : SymbolKind} (h : e.node.symbolKind? = some kind) :
    classify follow package e location m = .ok ⟨package, e.name, kind⟩ m := by
  have hkind : kindOf follow package e location m = .ok kind m := by
    unfold kindOf
    -- only declarations of types have a kind
    cases hnode : e.node <;> rw [hnode] at h <;> cases h
    all_goals rfl
  rw [classify, bind_of_ok hkind]
  rfl

/-- A reference stands for an export of a package: what it means is found by classifying the export, so it is kept at
once if the export declares a type; and if any meaning is found, it is that of the export, by its name and package. -/
structure StandsFor (disk : Disk) (file : SourceFile) (package : String) (node : Node Mark) (m : Manager) (q : String)
    (e : Export) : Prop where
  classified : resolveReference disk file package node m = keepAnswer disk file node (.found q e) m
  declared : ∀ kind, e.node.symbolKind? = some kind → resolveReference disk file package node m =
    .ok ⟨q, e.name, kind⟩ (m.keep file.path node.tag.id ⟨q, e.name, kind⟩)
  means : ∀ r m', resolveReference disk file package node m = .ok r m' →
    r.package = q ∧ r.name = e.name ∧ ∃ n ≤ 32, m'.Denotes n e r.kind

theorem standsFor_of_eq {node : Node Mark} {q : String} (hdisk : disk.root.WellNamed) (hm : m.Named)
    (heq : resolveReference disk file package node m = keepAnswer disk file node (.found q e) m) :
    StandsFor disk file package node m q e := by
  refine ⟨heq, fun kind hkind => ?_, fun r m' hrun => ?_⟩
  · rw [heq, keepAnswer, answer, bind_of_ok (classify_of_symbolKind? hkind)]
    rfl
  · rw [heq] at hrun
    obtain ⟨_, m₁, hclassify, hkeep⟩ := bind_eq_ok.mp hrun
    cases hkeep
    obtain ⟨kind, m₂, hkind, hpure⟩ := bind_eq_ok.mp hclassify
    cases hpure
    have hfollow : Follow.Sound (fun _ _ => True) 32 (some (resolveWithin disk (aliasLimit - 1))) :=
      ⟨aliasLimit - 1, rfl, fun file package node m hm => runs_resolveWithin hdisk _ file package node m hm⟩
    obtain ⟨-, n, hn, hdenotes⟩ := (runs_kindOf hfollow hm).ok kind m₁ hkind
    exact ⟨rfl, rfl, n, hn, hdenotes.keep _ _ _⟩

/-- Take any manager that operations lead to, a file, and a reference in it, where the packages that the file imports
and the one that the reference may name are loaded and export no name twice. If an export is chosen for the reference,
it stands for that. If there is nothing to choose, this is reported and nothing else happens. -/
theorem resolveReference_of_choice {allowed : Manager → Operation → Prop} (hdisk : disk.root.WellNamed)
    (h : Leads allowed empty m) (file : SourceFile) (package text : String) (tag : Mark)
    (himports : ∀ d ∈ file.imports, m.Settled d.package)
    (hdotted : ∀ dotted last, Text.splitLast text = some (dotted, last) → m.Settled dotted) :
    let location := file.ast.location (.type (.custom tag text))
    (∀ q e, m.choice file package text = .found q e →
      Refers text q e.name ∧ m.findExport q e.name = some e ∧
        StandsFor disk file package (.type (.custom tag text)) m q e) ∧
    (∀ name q, m.choice file package text = .missing name q →
      resolveReference disk file package (.type (.custom tag text)) m =
        .error (.resolution s!"Can't find '{name}' in package '{q}'" location)
          (m.report ((Problem.symbolNotFound name q).diagnostic location))) ∧
    ∀ name, m.choice file package text = .nowhere name →
      resolveReference disk file package (.type (.custom tag text)) m =
        .error (.resolution s!"Can't resolve '{name}'" location)
          (m.report ((Problem.unresolved name).diagnostic location)) := by
  intro location
  have hnamed := (h.steps named_empty).named named_empty
  have heq : resolveReference disk file package (.type (.custom tag text)) m =
      keepAnswer disk file (.type (.custom tag text)) (m.choice file package text) m :=
    resolveReference_eq himports hdotted
  refine ⟨fun q e hchoice => ?_, fun name q hchoice => ?_, fun name hchoice => ?_⟩
  · obtain ⟨hrefers, hfound⟩ := refers_of_choice hnamed hchoice
    rw [hchoice] at heq
    exact ⟨hrefers, hfound, standsFor_of_eq hdisk hnamed heq⟩
  · rw [heq, hchoice]
    rfl
  · rw [heq, hchoice]
    rfl

end Managed

/-- A disk with a file that imports two packages in several ways. Both have one of the names that it uses, and only the
second has another, which the file lists for the first. -/
def Disk.studio : Disk :=
  ⟨.directory [("lib", .directory [
    ("geo", .directory [("g.qi", .file (some "package geo\nstruct Point\nend\n"))]),
    ("art", .directory [("r.qi", .file (some "package art\nenum Point\nend\nstruct Line\nend\n"))]),
    ("app", .directory [("a.qi", .file (some
      "package app\nfrom geo import *\nfrom art import Point\nfrom geo import Line\nimport art\n"))])])], []⟩

/-- What a reference means that stands for a declaration of a type. -/
def Choice.declared? : Choice → Option Resolution
  | .found package e => e.node.symbolKind?.map (⟨package, e.name, ·⟩)
  | _ => none

theorem Choice.declared?_eq_some {c : Choice} {r : Resolution} (h : c.declared? = some r) :
    ∃ e, c = .found r.package e ∧ e.name = r.name ∧ e.node.symbolKind? = some r.kind := by
  cases c with
  | found package e =>
    obtain ⟨kind, hkind, rfl⟩ := Option.map_eq_some_iff.mp h
    exact ⟨e, rfl, rfl, hkind⟩
  | missing => cases h
  | nowhere => cases h

/-- The name that is missing, and the package that should have it. -/
def Choice.missing? : Choice → Option (String × String)
  | .missing name package => some (name, package)
  | _ => none

theorem Choice.missing?_eq_some {c : Choice} {name package : String} (h : c.missing? = some (name, package)) :
    c = .missing name package := by
  cases c <;> cases h
  rfl

namespace Managed

open Manager

/-- A name that both packages have comes from the one that is imported first, also where the other lists it; with the
package in front it comes from that package; and a name that is listed for the wrong package is not looked for
elsewhere. -/
theorem resolveReference_of_choice_studio :
    let m := (Operation.resolvePackage "app").after .studio <| (Operation.addInclude "/lib").after .studio .empty
    Leads (fun _ _ => True) .empty m ∧ ∃ f, m.files.find? (["lib", "app", "a.qi"] : Path) = some f ∧ f.imports.length = 4 ∧
      (∀ d ∈ f.imports, m.Settled d.package) ∧ m.Settled "art" ∧
      (∃ m', resolveReference .studio f "app" (.type (.custom ⟨0, .point 0⟩ "Point")) m =
        .ok ⟨"geo", "Point", .struct⟩ m') ∧
      (∃ m', resolveReference .studio f "app" (.type (.custom ⟨0, .point 0⟩ "art.Point")) m =
        .ok ⟨"art", "Point", .enum⟩ m') ∧
      ∃ location m', resolveReference .studio f "app" (.type (.custom ⟨0, .point 0⟩ "Line")) m =
        .error (.resolution "Can't find 'Line' in package 'geo'" location) m' := by
  intro m
  have hdisk : Disk.studio.root.WellNamed := by
    simp [Disk.studio]
  have hleads : Leads (fun _ _ => True) .empty m := .step _ _ (.step _ _ .refl hdisk trivial) hdisk trivial
  have hcheck : (m.files.find? (["lib", "app", "a.qi"] : Path)).any (fun f => decide (f.imports.length = 4) &&
      decide (∀ d ∈ f.imports, m.Settled d.package) &&
      (decide ((m.choice f "app" "Point").declared? = some ⟨"geo", "Point", .struct⟩) &&
        decide ((m.choice f "app" "art.Point").declared? = some ⟨"art", "Point", .enum⟩) &&
        decide ((m.choice f "app" "Line").missing? = some ("Line", "geo")))) = true ∧ m.Settled "art" := by
    decide +kernel
  obtain ⟨hany, hart⟩ := hcheck
  obtain ⟨f, hf, htest⟩ := (Option.any_eq_true _ _).mp hany
  simp only [Bool.and_eq_true, decide_eq_true_eq] at htest
  obtain ⟨⟨hlength, himports⟩, ⟨hfirst, hdotted⟩, hmissing⟩ := htest
  have hplain (text : String) (htext : Text.splitLast text = none) :
      ∀ dotted last, Text.splitLast text = some (dotted, last) → m.Settled dotted := by simp [htext]
  obtain ⟨e, hchoice, hname, hkind⟩ := Choice.declared?_eq_some hfirst
  obtain ⟨e', hchoice', hname', hkind'⟩ := Choice.declared?_eq_some hdotted
  have hpoint := (resolveReference_of_choice hdisk hleads f "app" "Point" ⟨0, .point 0⟩ himports
    (hplain "Point" rfl)).1 _ e hchoice
  have hother := (resolveReference_of_choice hdisk hleads f "app" "art.Point" ⟨0, .point 0⟩ himports
    (by rintro _ _ ⟨⟩; exact hart)).1 _ e' hchoice'
  have hline := (resolveReference_of_choice hdisk hleads f "app" "Line" ⟨0, .point 0⟩ himports
    (hplain "Line" rfl)).2.1 _ _ (Choice.missing?_eq_some hmissing)
  have hpoint := hpoint.2.2.declared _ hkind
  have hother := hother.2.2.declared _ hkind'
  rw [hname] at hpoint
  rw [hname'] at hother
  exact ⟨hleads, f, hf, hlength, himports, hart, ⟨_, hpoint⟩, ⟨_, hother⟩, _, _, hline⟩

end Managed
end QiIdl
