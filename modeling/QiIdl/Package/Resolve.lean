import QiIdl.Package.Manager

/-!
# Resolving references

A reference to a custom type means an export: for a dotted name that of the package it names, else that of the
file's own package, else that of an import of the file, the first that has it. An interface, a struct and an
enumeration are types; a name for a custom type is what that type is, through at most so many names.
-/

namespace QiIdl

namespace Managed

/-- The number of type names that are followed one after the other. -/
def aliasLimit : Nat := 32

/-- Fails to resolve a reference. The report is made. -/
def unresolved {β : Type} (d : Diagnostic) : Managed β := do
  modify (·.report d)
  throw (.resolution d.message d.location)

/-- Fails to resolve a reference for a reason. -/
def unresolvable {β : Type} (location : Location) (p : Problem) : Managed β := unresolved (p.diagnostic location)

/-- What follows the type that a type name stands for: in a file of a package, what kind of type a reference
is. Nothing does where the limit is reached. -/
abbrev Follow := Option (SourceFile → String → Node Mark → Managed Resolution)

/-- What an export of a package is as a type. -/
def kindOf (follow : Follow) (package : String) (e : Export) (location : Location) : Managed SymbolKind :=
  match e.node, follow with
  | .interface _, _ => pure .interface
  | .struct _, _ => pure .struct
  | .enum _, _ => pure .enum
  | .typedef ⟨_, _, .custom tag name⟩, some follow => do
    let r ← follow e.file e.file.package (.type (.custom tag name))
    pure r.kind
  | _, _ => unresolvable location (.notAType e.name package)

/-- What a reference means that stands for an export of a package. -/
def classify (follow : Follow) (package : String) (e : Export) (location : Location) : Managed Resolution := do
  let kind ← kindOf follow package e location
  pure ⟨package, e.name, kind⟩

def resolveDotted (disk : Disk) (follow : Follow) (package name : String) (location : Location) :
    Managed Resolution := do
  loadPackage disk package location
  match (← get).findExport package name with
  | some e => classify follow package e location
  | none => unresolvable location (.symbolNotFound name package)

/-- Whether an import may bring in a name, and whether it lists it. -/
def importOffers (name : String) : ImportScope → Bool × Bool
  | .package | .all => (true, false)
  | .names names => (names.contains name, true)

/-- What a reference means that is not exported by the file's own package, by the imports of the file. -/
def resolveImported (disk : Disk) (follow : Follow) (ast : Ast) (name : String) (location : Location) :
    List (Import Mark) → Managed Resolution
  | [] => unresolvable location (.unresolved name)
  | d :: ds => do
    let (offered, listed) := importOffers name d.scope
    if !offered then resolveImported disk follow ast name location ds
    else
      loadPackage disk d.package (ast.locate d.tag.span)
      match (← get).findExport d.package name with
      | some e => classify follow d.package e location
      | none =>
        if listed then unresolvable location (.symbolNotFound name d.package)
        else resolveImported disk follow ast name location ds

def resolveName (disk : Disk) (follow : Follow) (file : SourceFile) (package name : String)
    (location : Location) : Managed Resolution := do
  match Text.splitLast name with
  | some (dotted, last) => resolveDotted disk follow dotted last location
  | none =>
    match (← get).findExport package name with
    | some e => classify follow package e location
    | none => resolveImported disk follow file.ast name location file.imports

/-- What a node means that must be a reference. -/
def resolveNode (disk : Disk) (follow : Follow) (file : SourceFile) (package : String) (node : Node Mark) :
    Managed Resolution :=
  let location := file.ast.location node
  match node with
  | .type (.custom _ name) => resolveName disk follow file package name location
  | _ => unresolved (.plain .error location s!"node #{node.tag.id} is not a custom type reference")

/-- What a node means, with so many type names followed at most. -/
def resolveWithin (disk : Disk) : (limit : Nat) → SourceFile → String → Node Mark → Managed Resolution
  | 0 => resolveNode disk none
  | limit + 1 => resolveNode disk (some (resolveWithin disk limit))

/-- What a node of a file of a package means. The answer is kept. -/
def resolveReference (disk : Disk) (file : SourceFile) (package : String) (node : Node Mark) :
    Managed Resolution := do
  let r ← resolveWithin disk aliasLimit file package node
  modify fun m =>
    { m with resolutions := m.resolutions.alter file.path fun t => (t.getD []).insert node.tag.id r }
  pure r

/-- Tries an operation. What it has learnt stays known if it fails. -/
def attempt {β : Type} (op : Managed β) : Managed (Except PackageError β) := fun m =>
  match op m with
  | .ok b m => .ok (.ok b) m
  | .error e m => .ok (.error e) m

/-- Resolves all references of some files of a package, and counts those that fail. -/
def resolveAll (disk : Disk) (package : String) : List (SourceFile × Node Mark) → Managed Nat
  | [] => pure 0
  | (file, node) :: rest => do
    let r ← attempt (resolveReference disk file package node)
    let failed ← resolveAll disk package rest
    pure (match r with | .ok _ => failed | .error _ => failed + 1)

/-- The references of some files, each with its file. -/
def references (files : List SourceFile) : List (SourceFile × Node Mark) :=
  files.flatMap fun f => f.ast.customTypes.map fun n => (f, n)

/-- Loads a package and those it imports, and resolves all its references. -/
def resolvePackage (disk : Disk) (name : String) : Managed Unit := do
  parsePackage disk name
  let imported := (((← get).packages.find? name).map (·.importedPackages)).getD []
  imported.forM fun (package, location) => loadPackage disk package location
  let failed ← resolveAll disk name (references ((← get).packageFiles name))
  if failed > 0 then throw (.failed name failed)

/-- Resolves some packages. All are processed; the first error counts. -/
def resolvePackages (disk : Disk) : List String → Managed (Option PackageError)
  | [] => pure none
  | name :: names => do
    let first ← attempt (resolvePackage disk name)
    let others ← resolvePackages disk names
    pure (match first with | .error e => some e | .ok _ => others)

/-- Resolves one package, or all that are known. -/
def analyse (disk : Disk) (name : Option String) : Managed Unit := do
  match name with
  | some name => resolvePackage disk name
  | none =>
    match ← resolvePackages disk (← get).packages.keys with
    | some e => throw e
    | none => pure ()

end Managed
end QiIdl
