import Mathlib.Logic.Relation
import QiIdl.Package.Resolve
import QiIdl.Proofs.Disk.Names
import QiIdl.Proofs.Package.Register

/-!
# Steps of a manager

Everything an operation does to a manager is one of eight small things, and `Manager.Step` lists them with what is
known when they happen: a file is loaded only if its path is new and its directories spell its package, a file
is registered only with a package that holds it, an answer is kept only if it is right. Operations fail half way,
so what counts is not what an operation as a whole does but that each state it leaves, with a result or with an
error, is reached by steps; `Managed.Runs` says so, together with what is known of the result.

A property of managers is an invariant once it is kept by each of the eight steps. The first ones need nothing
else: a file stays where it is (`Steps.find?_files`, `Steps.mem_packageFiles`), an export stays what it is
(`Steps.findExport`), and exports go by their own names (`Steps.named`).
-/

namespace QiIdl

/-! ## What is known when a step is made -/

/-- A file that was read from its path, which spells the package it declares below a root. -/
structure SourceFile.Placed (f : SourceFile) (root : Path) : Prop where
  canonical : f.path.IsCanonical
  parsed : parseSource f.source f.path.text = .ok f.ast
  declared : ∃ tag, f.ast.roots.filter (fun n => n.sort == .package) = [.package tag f.package]
  directories : f.path.dropLast = root ++ Path.ofPackage f.package

/-- The report of a name that is exported already, by its words. -/
def Diagnostic.isClash (d : Diagnostic) : Bool :=
  "symbol '".toList.isPrefixOf d.message.toList && "' already exported".toList.isSuffixOf d.message.toList

/-- What a declaration is as a type. -/
def Node.symbolKind? {α : Type} : Node α → Option SymbolKind
  | .interface _ => some .interface
  | .struct _ => some .struct
  | .enum _ => some .enum
  | _ => none

/-- A reference is a name, or the name of a package, a dot and a name. -/
def Refers (text package name : String) : Prop :=
  '.' ∉ name.toList ∧ (text = name ∨ text = package ++ "." ++ name)

namespace Manager

/-- So many type names lead from an export to a declaration of a kind. -/
inductive Denotes (m : Manager) : Nat → Export → SymbolKind → Prop where
  | declared {e : Export} {kind : SymbolKind} : e.node.symbolKind? = some kind → Denotes m 0 e kind
  | named {e next : Export} {d : Typedef Mark} {tag : Mark} {text package : String} {n : Nat} {kind : SymbolKind} :
    e.node = .typedef d → d.type = .custom tag text → Refers text package next.name →
      m.findExport package next.name = some next → Denotes m n next kind → Denotes m (n + 1) e kind

/-- A node is a reference and a resolution says what it means, through at most so many type names. -/
def Means (m : Manager) (bound : Nat) (node : Node Mark) (r : Resolution) : Prop :=
  ∃ tag text, node = .type (.custom tag text) ∧ Refers text r.package r.name ∧
    ∃ e n, m.findExport r.package r.name = some e ∧ n ≤ bound ∧ m.Denotes n e r.kind

/-- Keeps what a node of a file means. -/
def keep (m : Manager) (file : Path) (id : Nat) (r : Resolution) : Manager :=
  { m with resolutions := m.resolutions.alter file fun t => (t.getD []).insert id r }

/-- One of the things that operations do to a manager. Of the references that are resolved some are asked for
from outside, and what is known of these is `asked`; the others are those of the files that are known. -/
inductive Step (asked : SourceFile → Node Mark → Prop) (m : Manager) : Manager → Prop where
  | addInclude (i : Include) : Step asked m (m.addInclude i)
  | report {d : Diagnostic} : d.isClash = false → Step asked m (m.report d)
  | countRead : Step asked m { m with reads := m.reads + 1 }
  | load {f : SourceFile} {root : Path} : m.files.find? f.path = none → f.Placed root →
      Step asked m ((m.addInclude (.known root)).addFile f)
  | noteLocated (name : String) (found : Nat × List Path) :
      Step asked m { m with located := m.located.insert name found }
  | register {name : String} {f : SourceFile} : f ∈ m.packageFiles name → Step asked m (m.registerFile name f)
  | markLocated (name : String) (count : Nat) : Step asked m (m.markLocated name count)
  | keep {file : SourceFile} {node : Node Mark} {r : Resolution} : m.Means Managed.aliasLimit node r →
      asked file node ∨ (∃ name, file ∈ m.packageFiles name) ∧ node ∈ file.ast.customTypes →
      Step asked m (m.keep file.path node.tag.id r)

/-- One step after another. -/
abbrev Steps (asked : SourceFile → Node Mark → Prop) : Manager → Manager → Prop :=
  Relation.ReflTransGen (Step asked)

end Manager

/-! ## What a step leaves as it was -/

namespace Manager

variable {m m' : Manager} {name : String} {f : SourceFile} {e : Export} {p : Package}

theorem mem_packageFiles : f ∈ m.packageFiles name ↔ ∃ p, m.packages.find? name = some p ∧ f ∈ p.files.values := by
  unfold packageFiles
  cases m.packages.find? name <;> simp

theorem findExport_eq_some {package name : String} :
    m.findExport package name = some e ↔
      ∃ p, m.packages.find? package = some p ∧ p.exports.find? name = some e := by
  unfold findExport
  cases m.packages.find? package <;> simp

@[simp] theorem addInclude_packages (i : Include) : (m.addInclude i).packages = m.packages := by
  unfold addInclude
  split <;> rfl

@[simp] theorem addInclude_files (i : Include) : (m.addInclude i).files = m.files := by
  unfold addInclude
  split <;> rfl

@[simp] theorem addInclude_diagnostics (i : Include) : (m.addInclude i).diagnostics = m.diagnostics := by
  unfold addInclude
  split <;> rfl

@[simp] theorem addInclude_resolutions (i : Include) : (m.addInclude i).resolutions = m.resolutions := by
  unfold addInclude
  split <;> rfl

theorem registerFile_eq (h : m.packages.find? name = some p) (f : SourceFile) :
    m.registerFile name f =
      { m with
        packages := m.packages.insert name (p.registerFile f).1
        diagnostics := m.diagnostics ++ (p.registerFile f).2 } := by
  simp [registerFile, h]

/-- What a step can make of the package of a name. -/
inductive Becomes (m : Manager) : String → Package → Prop where
  | load {f : SourceFile} {root : Path} : m.files.find? f.path = none → f.Placed root →
      Becomes m f.package (((m.packages.find? f.package).getD (.empty f.package)).addFile f)
  | register {name : String} {p : Package} {f : SourceFile} : m.packages.find? name = some p →
      f ∈ p.files.values → Becomes m name (p.registerFile f).1
  | mark {name : String} {p : Package} (count : Nat) : m.packages.find? name = some p →
      Becomes m name { p with locatedWith := some count }

variable {asked : SourceFile → Node Mark → Prop}

theorem Step.packages_eq (h : Step asked m m') :
    m'.packages = m.packages ∨ ∃ name q, m.Becomes name q ∧ m'.packages = m.packages.insert name q := by
  cases h with
  | addInclude i => exact .inl (addInclude_packages i)
  | report => exact .inl rfl
  | countRead => exact .inl rfl
  | load hnew hplaced =>
    refine .inr ⟨_, _, .load hnew hplaced, ?_⟩
    simp only [addFile, addInclude_packages, Table.alter]
  | noteLocated => exact .inl rfl
  | register hf =>
    obtain ⟨p, hp, hf⟩ := mem_packageFiles.mp hf
    rw [registerFile_eq hp]
    exact .inr ⟨_, _, .register hp hf, rfl⟩
  | markLocated name count =>
    unfold Manager.markLocated
    cases hp : m.packages.find? name with
    | none => exact .inl rfl
    | some p => exact .inr ⟨_, _, .mark count hp, rfl⟩
  | keep => exact .inl rfl

/-- What holds of the packages there are, and of what a step makes of one, holds of all packages after it. -/
theorem Step.forall_packages {P : String → Package → Prop} (h : Step asked m m')
    (hbecomes : ∀ name q, m.Becomes name q → P name q)
    (hm : ∀ name p, m.packages.find? name = some p → P name p) :
    ∀ name p, m'.packages.find? name = some p → P name p := by
  intro name p hp
  rcases h.packages_eq with heq | ⟨changed, q, hq, heq⟩
  · rw [heq] at hp
    exact hm name p hp
  · rw [heq, Table.find?_insert] at hp
    split at hp
    · next hname =>
      cases hp
      exact hname ▸ hbecomes _ _ hq
    · exact hm name p hp

theorem Becomes.grows {p q : Package} (h : m.Becomes name q) (hp : m.packages.find? name = some p) : p.Grows q := by
  cases h with
  | load =>
    rw [hp]
    exact Package.grows_addFile p _
  | register hq =>
    cases hq.symm.trans hp
    exact Package.grows_registerFile p _
  | mark count hq =>
    cases hq.symm.trans hp
    exact ⟨fun _ h => h, fun _ _ h => h⟩

/-- A package stays, with its files and its exports. -/
theorem Step.grows (h : Step asked m m') (hp : m.packages.find? name = some p) :
    ∃ q, m'.packages.find? name = some q ∧ p.Grows q := by
  rcases h.packages_eq with heq | ⟨changed, q, hq, heq⟩
  · exact ⟨p, heq ▸ hp, .refl p⟩
  · rw [heq, Table.find?_insert]
    by_cases hname : name = changed
    · subst hname
      exact ⟨q, if_pos rfl, hq.grows hp⟩
    · exact ⟨p, (if_neg hname).trans hp, .refl p⟩

theorem Steps.grows (h : Steps asked m m') (hp : m.packages.find? name = some p) :
    ∃ q, m'.packages.find? name = some q ∧ p.Grows q := by
  induction h with
  | refl => exact ⟨p, hp, .refl p⟩
  | tail _ hstep ih =>
    obtain ⟨q, hq, hpq⟩ := ih
    obtain ⟨r, hr, hqr⟩ := hstep.grows hq
    exact ⟨r, hr, hpq.trans hqr⟩

/-- An export stays what it is. -/
theorem Steps.findExport {package name : String} (h : Steps asked m m') (he : m.findExport package name = some e) :
    m'.findExport package name = some e := by
  obtain ⟨p, hp, he⟩ := findExport_eq_some.mp he
  obtain ⟨q, hq, hpq⟩ := h.grows hp
  exact findExport_eq_some.mpr ⟨q, hq, hpq.exports _ _ he⟩

/-- A file of a package stays one. -/
theorem Steps.mem_packageFiles (h : Steps asked m m') (hf : f ∈ m.packageFiles name) : f ∈ m'.packageFiles name := by
  obtain ⟨p, hp, hf⟩ := Manager.mem_packageFiles.mp hf
  obtain ⟨q, hq, hpq⟩ := h.grows hp
  exact Manager.mem_packageFiles.mpr ⟨q, hq, hpq.files f hf⟩

theorem Steps.denotes {n : Nat} {kind : SymbolKind} (h : Steps asked m m') (he : m.Denotes n e kind) :
    m'.Denotes n e kind := by
  induction he with
  | declared hkind => exact .declared hkind
  | named hnode htype hrefers hnext _ ih => exact .named hnode htype hrefers (h.findExport hnext) ih

/-- A resolution that is right stays so. -/
theorem Steps.means {bound : Nat} {node : Node Mark} {r : Resolution} (h : Steps asked m m')
    (hr : m.Means bound node r) : m'.Means bound node r := by
  obtain ⟨tag, text, hnode, hrefers, e, n, he, hn, hkind⟩ := hr
  exact ⟨tag, text, hnode, hrefers, e, n, h.findExport he, hn, h.denotes hkind⟩

/-! ## Names of exports -/

/-- Every export goes by its own name. -/
def Named (m : Manager) : Prop := ∀ package name e, m.findExport package name = some e → e.name = name

theorem named_empty : empty.Named := by
  intro package name e h
  cases h

theorem Step.named (h : Step asked m m') (hm : m.Named) : m'.Named := by
  have hpackages : ∀ package p, m.packages.find? package = some p → ∀ name e,
      p.exports.find? name = some e → e.name = name := by
    intro package p hp name e he
    exact hm package name e (findExport_eq_some.mpr ⟨p, hp, he⟩)
  have hall := h.forall_packages (P := fun _ p => ∀ name e, p.exports.find? name = some e → e.name = name)
    ?_ hpackages
  · intro package name e he
    obtain ⟨p, hp, he⟩ := findExport_eq_some.mp he
    exact hall package p hp name e he
  · intro package q hq name e he
    cases hq with
    | @load f root hnew hplaced =>
      rw [Package.addFile_exports] at he
      cases hp : m.packages.find? f.package with
      | none =>
        rw [hp] at he
        cases he
      | some p =>
        rw [hp] at he
        exact hpackages _ p hp name e he
    | register hp hf =>
      rcases Package.find?_exports_registerFile he with hold | ⟨node, _, heq, _⟩
      · exact hpackages _ _ hp name e hold
      · rw [heq]
    | mark count hp => exact hpackages _ _ hp name e he

theorem Steps.named (h : Steps asked m m') (hm : m.Named) : m'.Named := by
  induction h with
  | refl => exact hm
  | tail _ hstep ih => exact hstep.named ih

/-! ## Files -/

theorem addFile_files (f : SourceFile) : (m.addFile f).files = m.files.insert f.path f := rfl

theorem registerFile_files (name : String) (f : SourceFile) : (m.registerFile name f).files = m.files := by
  unfold registerFile
  cases m.packages.find? name <;> rfl

theorem markLocated_files (name : String) (count : Nat) : (m.markLocated name count).files = m.files := by
  unfold markLocated
  cases m.packages.find? name <;> rfl

/-- What becomes of the files in a step: all stay, and one may come in. -/
theorem Step.files_eq (h : Step asked m m') :
    m'.files = m.files ∨
      ∃ f root, m.files.find? f.path = none ∧ f.Placed root ∧ m'.files = m.files.insert f.path f := by
  cases h with
  | addInclude i => exact .inl (addInclude_files i)
  | load hnew hplaced =>
    refine .inr ⟨_, _, hnew, hplaced, ?_⟩
    rw [addFile_files, addInclude_files]
  | register => exact .inl (registerFile_files _ _)
  | markLocated name count => exact .inl (markLocated_files name count)
  | report => exact .inl rfl
  | countRead => exact .inl rfl
  | noteLocated => exact .inl rfl
  | keep => exact .inl rfl

/-- A file that is known stays known. -/
theorem Steps.find?_files {path : Path} (h : Steps asked m m') (hf : m.files.find? path = some f) :
    m'.files.find? path = some f := by
  induction h with
  | refl => exact hf
  | tail _ hstep ih =>
    rcases hstep.files_eq with heq | ⟨g, root, hnew, _, heq⟩
    · rw [heq, ih]
    · rw [heq, Table.find?_insert_of_find? ih hnew]

end Manager
end QiIdl
