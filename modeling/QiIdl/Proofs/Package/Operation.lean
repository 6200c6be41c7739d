import QiIdl.Proofs.Package.Runs

/-!
# Operations run in steps

Resolving a reference loads packages on its way, so the manager that an export was found in is not the one that the
answer is kept in. What carries the argument is that exports stay (`Steps.findExport`): an answer that is right
when it is found is right when it is kept (`runs_resolveWithin`, by induction on the number of type names that
are still followed).

At the end stands the callers' view. An `Operation` is run on the disk as it is then; `Leads` is any number of
them, one after the other, successful or not, each on a disk of its own.
-/

namespace QiIdl

open Manager

namespace Managed

variable {asked : SourceFile → Node Mark → Prop} {β : Type} {m : Manager} {Q : β → Manager → Prop} {disk : Disk}
  {follow : Follow} {bound : Nat} {package name text : String} {location : Location} {tag : Mark}

theorem runs_unresolvable {p : Problem} (h : ∀ name previous, p ≠ .alreadyExported name previous) :
    Runs asked (unresolvable location p : Managed β) m Q :=
  runs_report (Problem.isClash_diagnostic h)

/-- What follows a type name is right about what the name means, with fewer names to go. -/
def Follow.Sound (asked : SourceFile → Node Mark → Prop) (bound : Nat) : Follow → Prop
  | none => True
  | some follow => ∃ b, bound = b + 1 ∧ ∀ file package node m, Named m →
      Runs asked (follow file package node) m fun r m' => m'.Means b node r

theorem runs_kindOf {e : Export} (hfollow : follow.Sound asked bound) (hm : m.Named) :
    Runs asked (kindOf follow package e location) m fun kind m' => ∃ n ≤ bound, m'.Denotes n e kind := by
  unfold kindOf
  split
  · next hnode => exact .pure ⟨0, Nat.zero_le _, .declared (by rw [hnode]; rfl)⟩
  · next hnode => exact .pure ⟨0, Nat.zero_le _, .declared (by rw [hnode]; rfl)⟩
  · next hnode => exact .pure ⟨0, Nat.zero_le _, .declared (by rw [hnode]; rfl)⟩
  · next hnode =>
    obtain ⟨b, rfl, hfollow⟩ := hfollow
    refine .bind (hfollow _ _ _ m hm) ?_
    rintro r m' hsteps ⟨_, _, heq, hrefers, next, n, hnext, hn, hkind⟩
    cases heq
    have hname : next.name = r.name := hsteps.named hm _ _ _ hnext
    rw [← hname] at hrefers hnext
    exact .pure ⟨n + 1, Nat.succ_le_succ hn, .named hnode rfl hrefers hnext hkind⟩
  · exact runs_unresolvable nofun

/-- A reference that stands for an export means what the export denotes. -/
theorem runs_classify {e : Export} (hfollow : follow.Sound asked bound) (hm : m.Named)
    (hrefers : Refers text package name) (he : m.findExport package name = some e) :
    Runs asked (classify follow package e location) m fun r m' => m'.Means bound (.type (.custom tag text)) r := by
  unfold classify
  refine .bind (runs_kindOf hfollow hm) ?_
  rintro kind m' hsteps ⟨n, hn, hkind⟩
  obtain rfl := hm _ _ _ he
  exact .pure ⟨tag, text, rfl, hrefers, e, n, hsteps.findExport he, hn, hkind⟩

variable (hdisk : disk.root.WellNamed)

include hdisk

theorem runs_resolveDotted (hfollow : follow.Sound asked bound) (hm : m.Named) (hrefers : Refers text package name) :
    Runs asked (resolveDotted disk follow package name location) m
      fun r m' => m'.Means bound (.type (.custom tag text)) r := by
  unfold resolveDotted
  refine .bind (runs_loadPackage hdisk) fun _ m' hsteps _ => ?_
  refine .get_bind ?_
  split
  · next e he => exact runs_classify hfollow (hsteps.named hm) hrefers he
  · exact runs_unresolvable nofun

theorem runs_resolveImported {ast : Ast} {ds : List (Import Mark)} (hfollow : follow.Sound asked bound)
    (hm : m.Named) (hname : '.' ∉ name.toList) :
    Runs asked (resolveImported disk follow ast name location ds) m
      fun r m' => m'.Means bound (.type (.custom tag name)) r := by
  induction ds generalizing m with
  | nil => exact runs_unresolvable nofun
  | cons d ds ih =>
    unfold resolveImported
    cases importOffers name d.scope with
    | mk offered listed =>
      cases offered with
      | false => exact ih hm
      | true =>
        refine .bind (runs_loadPackage hdisk) fun _ m' hsteps _ => ?_
        refine .get_bind ?_
        split
        · next e he => exact runs_classify hfollow (hsteps.named hm) ⟨hname, .inl rfl⟩ he
        · cases listed with
          | true => exact runs_unresolvable nofun
          | false => exact ih (hsteps.named hm)

theorem runs_resolveName {file : SourceFile} (hfollow : follow.Sound asked bound) (hm : m.Named) :
    Runs asked (resolveName disk follow file package text location) m
      fun r m' => m'.Means bound (.type (.custom tag text)) r := by
  unfold resolveName
  split
  · next dotted last hsplit =>
    obtain ⟨htext, hlast⟩ := Text.splitLast_eq_some hsplit
    exact runs_resolveDotted hdisk hfollow hm ⟨hlast, .inr htext⟩
  · next hsplit =>
    have htext := Text.splitLast_eq_none hsplit
    refine .get_bind ?_
    split
    · next e he => exact runs_classify hfollow hm ⟨htext, .inl rfl⟩ he
    · exact runs_resolveImported hdisk hfollow hm htext

theorem runs_resolveNode {file : SourceFile} {node : Node Mark} (hfollow : follow.Sound asked bound) (hm : m.Named) :
    Runs asked (resolveNode disk follow file package node) m fun r m' => m'.Means bound node r := by
  unfold resolveNode
  split
  · exact runs_resolveName hdisk hfollow hm
  · exact runs_report (Diagnostic.isClash_eq_false (head?_toList_append (head?_toList_append rfl)) (by decide))

/-- What a node is said to mean it does mean, through at most as many type names as are followed. -/
theorem runs_resolveWithin (limit : Nat) (file : SourceFile) (package : String) (node : Node Mark) (m : Manager)
    (hm : m.Named) :
    Runs asked (resolveWithin disk limit file package node) m fun r m' => m'.Means limit node r := by
  induction limit generalizing file package node m with
  | zero =>
    have hnone : Follow.Sound asked 0 none := trivial
    exact runs_resolveNode hdisk hnone hm
  | succ limit ih => exact runs_resolveNode hdisk ⟨limit, rfl, ih⟩ hm

/-- The answer is kept where it belongs, if the file is one that may be asked about in every later state. -/
theorem runs_resolveReference {file : SourceFile} {node : Node Mark} (hm : m.Named)
    (hfile : ∀ m', Steps asked m m' →
      asked file node ∨ (∃ name, file ∈ m'.packageFiles name) ∧ node ∈ file.ast.customTypes) :
    Runs asked (resolveReference disk file package node) m fun _ _ => True := by
  unfold resolveReference
  refine .bind (runs_resolveWithin hdisk aliasLimit file package node m hm) ?_
  intro r m' hsteps hr
  exact .of_ok rfl ⟨.single (.keep hr (hfile m' hsteps)), trivial⟩

theorem runs_resolveAll {refs : List (SourceFile × Node Mark)} (hm : m.Named)
    (hrefs : ∀ ref ∈ refs, (∃ name, ref.1 ∈ m.packageFiles name) ∧ ref.2 ∈ ref.1.ast.customTypes) :
    Runs asked (resolveAll disk package refs) m fun _ _ => True := by
  induction refs generalizing m with
  | nil => exact .pure trivial
  | cons ref refs ih =>
    obtain ⟨⟨⟨name, hfile⟩, hnode⟩, hrest⟩ := List.forall_mem_cons.mp hrefs
    have hfirst : Runs asked (resolveReference disk ref.1 package ref.2) m fun _ _ => True :=
      runs_resolveReference hdisk hm fun m' hsteps => .inr ⟨⟨name, hsteps.mem_packageFiles hfile⟩, hnode⟩
    unfold resolveAll
    refine .bind hfirst.attempt fun _ m' hsteps _ => ?_
    refine .bind (ih (hsteps.named hm) ?_) fun _ _ _ _ => .pure trivial
    intro other hother
    obtain ⟨⟨name', hfile'⟩, hnode'⟩ := hrest other hother
    exact ⟨⟨name', hsteps.mem_packageFiles hfile'⟩, hnode'⟩

theorem runs_resolvePackage (hm : m.Named) : Runs asked (resolvePackage disk name) m fun _ _ => True := by
  unfold resolvePackage
  refine .bind (runs_loadPackage hdisk) fun _ m₁ hsteps₁ _ => ?_
  refine .get_bind ?_
  refine .bind (.forM fun _ _ _ _ => runs_loadPackage hdisk) fun _ m₂ hsteps₂ _ => ?_
  refine .get_bind ?_
  refine .bind (runs_resolveAll hdisk (hsteps₂.named (hsteps₁.named hm)) ?_) fun failed _ _ _ => ?_
  · intro ref href
    obtain ⟨file, hfile, hmem⟩ := List.mem_flatMap.mp href
    obtain ⟨node, hnode, rfl⟩ := List.mem_map.mp hmem
    exact ⟨⟨name, hfile⟩, hnode⟩
  · split
    · exact .throw
    · exact .pure trivial

theorem runs_resolvePackages {names : List String} (hm : m.Named) :
    Runs asked (resolvePackages disk names) m fun _ _ => True := by
  induction names generalizing m with
  | nil => exact .pure trivial
  | cons name names ih =>
    unfold resolvePackages
    refine .bind (runs_resolvePackage hdisk hm).attempt fun _ _ hsteps _ => ?_
    exact .bind (ih (hsteps.named hm)) fun _ _ _ _ => .pure trivial

theorem runs_analyse {name : Option String} (hm : m.Named) :
    Runs asked (analyse disk name) m fun _ _ => True := by
  cases name with
  | some name => exact runs_resolvePackage hdisk hm
  | none =>
    unfold analyse
    refine .get_bind ?_
    refine .bind (runs_resolvePackages hdisk hm) fun first _ _ _ => ?_
    cases first with
    | some e => exact .throw
    | none => exact .pure trivial

end Managed

/-! ## The callers' view -/

/-- What a caller can do with a manager. -/
inductive Operation where
  | addInclude (spelled : String)
  | parse (input : String)
  | parseFile (spelled : String)
  | parseDirectory (spelled : String)
  | parsePackage (name : String)
  | resolveReference (file : SourceFile) (package : String) (id : Nat)
  | resolvePackage (name : String)
  | analyse (name : Option String)

namespace Operation

open Managed

/-- What an operation does. References are asked for by number. -/
def run (disk : Disk) : Operation → Managed Unit
  | addInclude spelled => Managed.addInclude disk spelled
  | parse input => discard (Managed.parse disk input)
  | parseFile spelled => discard (Managed.parseFile disk spelled)
  | parseDirectory spelled => discard (Managed.parseDirectory disk spelled)
  | parsePackage name => Managed.parsePackage disk name
  | resolveReference file package id =>
    match file.ast.nodes[id]? with
    | some node => discard (Managed.resolveReference disk file package node)
    | none => pure ()
  | resolvePackage name => Managed.resolvePackage disk name
  | analyse name => Managed.analyse disk name

/-- The manager after an operation, whether it failed or not. -/
def after (disk : Disk) (op : Operation) (m : Manager) : Manager :=
  match op.run disk m with
  | .ok _ m' => m'
  | .error _ m' => m'

/-- The reference that an operation asks for from outside. -/
def Asks : Operation → SourceFile → Node Mark → Prop
  | resolveReference file _ id, f, node => f = file ∧ file.ast.nodes[id]? = some node
  | _, _, _ => False

theorem runs_run {disk : Disk} {m : Manager} (op : Operation) (hdisk : disk.root.WellNamed) (hm : m.Named) :
    Runs op.Asks (op.run disk) m fun _ _ => True := by
  cases op with
  | addInclude spelled => exact .modify (.single (.addInclude _))
  | parse input => exact (runs_parse hdisk).discard
  | parseFile spelled => exact (runs_parseFile hdisk).discard
  | parseDirectory spelled => exact (runs_parseDirectory hdisk).discard
  | parsePackage name => exact runs_loadPackage hdisk
  | resolveReference file package id =>
    rw [run]
    cases hnode : file.ast.nodes[id]? with
    | some node => exact (runs_resolveReference hdisk hm fun _ _ => .inl ⟨rfl, hnode⟩).discard
    | none => exact .pure trivial
  | resolvePackage name => exact runs_resolvePackage hdisk hm
  | analyse name => exact runs_analyse hdisk hm

/-- Steps lead to the manager after an operation. -/
theorem steps_after {disk : Disk} {m : Manager} (op : Operation) (hdisk : disk.root.WellNamed) (hm : m.Named) :
    Steps op.Asks m (op.after disk m) := by
  have hruns := op.runs_run hdisk hm
  unfold after
  cases h : op.run disk m with
  | ok u m' => exact (hruns.ok u m' h).1
  | error e m' => exact hruns.error e m' h

end Operation

namespace Manager

/-- Operations that are allowed where they are made lead from one manager to another, each on a disk of its own. -/
inductive Leads (allowed : Manager → Operation → Prop) (m : Manager) : Manager → Prop where
  | refl : Leads allowed m m
  | step {m' : Manager} (disk : Disk) (op : Operation) : Leads allowed m m' → disk.root.WellNamed →
      allowed m' op → Leads allowed m (op.after disk m')

variable {allowed : Manager → Operation → Prop} {m m' : Manager}

theorem Step.weaken {asked asked' : SourceFile → Node Mark → Prop} (h : Step asked m m')
    (hasked : ∀ file node, asked file node → asked' file node) : Step asked' m m' := by
  cases h with
  | addInclude i => exact .addInclude i
  | report hd => exact .report hd
  | countRead => exact .countRead
  | load hnew hplaced => exact .load hnew hplaced
  | noteLocated name found => exact .noteLocated name found
  | register hf => exact .register hf
  | markLocated name count => exact .markLocated name count
  | keep hr hfile => exact .keep hr (hfile.imp (hasked _ _) id)

/-- Whatever operations lead to, steps lead to. -/
theorem Leads.steps (h : Leads allowed m m') (hm : m.Named) : Steps (fun _ _ => True) m m' := by
  induction h with
  | refl => exact .refl
  | step disk op _ hdisk _ ih =>
    have hop : Steps (fun _ _ => True) _ (op.after disk _) :=
      Relation.ReflTransGen.mono (fun _ _ hstep => Step.weaken hstep fun _ _ _ => trivial) _ _
        (op.steps_after hdisk (ih.named hm))
    exact ih.trans hop

end Manager

/-! ## A small library -/

/-- A disk with three packages: one of them uses types of another, and one exports a name twice. -/
def Disk.library : Disk :=
  ⟨.directory [("lib", .directory [
    ("a", .directory [("x.qi", .file (some "package a\nstruct Point\nend\ntypedef Point Alias\ntypedef int32 Number\n"))]),
    ("b", .directory [("y.qi", .file (some "package b\nfrom a import *\nstruct Use\n  p Alias\n  n Number\nend\n"))]),
    ("c", .directory [("z.qi", .file (some "package c\nimport a\nstruct S\nend\nenum S\nend\n"))])])], []⟩

theorem Disk.wellNamed_library : Disk.library.root.WellNamed := by
  simp [Disk.library]

/-- The manager that knows the small library after two operations, both of which fail. -/
def Manager.ofLibrary : Manager :=
  (Operation.parsePackage "c").after .library <|
    (Operation.resolvePackage "b").after .library <| (Operation.addInclude "/lib").after .library .empty

theorem Manager.leads_ofLibrary {allowed : Manager → Operation → Prop}
    (hadd : ∀ m spelled, allowed m (.addInclude spelled)) (hresolve : ∀ m name, allowed m (.resolvePackage name))
    (hparse : ∀ m name, allowed m (.parsePackage name)) : Leads allowed .empty .ofLibrary :=
  .step _ _ (.step _ _ (.step _ _ .refl Disk.wellNamed_library (hadd _ _)) Disk.wellNamed_library (hresolve _ _))
    Disk.wellNamed_library (hparse _ _)

end QiIdl
