import QiIdl.Cpp.Adapter
import QiIdl.Cpp.Mock
import QiIdl.Cpp.Proxy
import QiIdl.Cpp.Registration
import QiIdl.Format.Dump
import QiIdl.Package.Resolve

/-!
# Compiling

From inputs to output: load the files of all inputs, resolve their packages if the output needs that, and put
the outputs of the files one after the other. There is output only if every file has some.
-/

namespace QiIdl

/-- The output of a kind for a file, with so many blanks for a level. -/
def generate (backend : Backend) (m : Manager) (file : SourceFile) (width : Nat) : Generate String :=
  let c : Cpp.Scope := ⟨backend, m, file⟩
  let render (steps : Except GenError (List Step)) := (Step.render width ·) <$> Generate.ofExcept steps
  match backend with
  | .qilang => pure (file.ast.canonical width)
  | .sexpr => pure (file.ast.dump width)
  | .doc => Generate.ofReporting file.ast.docMap
  | .cppInterface => render c.header
  | .cppLocal => (Step.render width ·) <$> c.adapterFile
  | .cppRemote => render c.proxyFile
  | .cppBind => (Step.render width ·) <$> c.registrationFile
  | .cppGmock => render c.mockFile

/-- Why compiling failed. -/
inductive CompileFailure where
  | noSource (input : String)
  | package (error : PackageError)
  | generation (error : GenError)

def CompileFailure.message : CompileFailure → String
  | noSource input => s!"No qilang source found for '{input}'"
  | package (.faults file _ faults) => s!"{faults.length} syntax error(s) in {file}"
  | package error => error.message
  | generation error => s!"Code generation error: {error.message}"

/-- The files of some inputs, in order, each once. -/
def loadInputs (disk : Disk) : List String → List SourceFile → EStateM CompileFailure Manager (List SourceFile)
  | [], files => pure files
  | input :: inputs, files => fun m =>
    match Managed.parse disk input m with
    | .error e m => .error (.package e) m
    | .ok [] m => .error (.noSource input) m
    | .ok parsed m =>
      let known := parsed.foldl (fun known f =>
        if known.any (·.path == f.path) then known else known ++ [f]) files
      loadInputs disk inputs known m

/-- Resolves some packages, up to the first that fails. -/
def resolveInputs (disk : Disk) (packages : List String) : EStateM CompileFailure Manager Unit := fun m =>
  match packages.forM (fun p => Managed.analyse disk (some p)) m with
  | .ok _ m => .ok () m
  | .error e m => .error (.package e) m

/-- The files to make output for, with their packages resolved if the output needs that. -/
def loadAll (disk : Disk) (backend : Backend) (includes inputs : List String) :
    EStateM CompileFailure Manager (List SourceFile) := do
  modify fun m => includes.foldl (fun m i => m.addInclude (.ofText disk i)) m
  let files ← loadInputs disk inputs []
  if backend.needsResolution then
    resolveInputs disk (Table.ofEntries (files.map fun f => (f.package, ()))).keys
  pure files

/-- The include directories that are known after loading, successful or not. -/
def includesAfter (disk : Disk) (backend : Backend) (includes inputs : List String) : List Path :=
  let m := match loadAll disk backend includes inputs .empty with
    | .ok _ m | .error _ m => m
  m.includes.filterMap fun | .known path => some path | .unknown _ => none

/-- What a run of the compiler leaves: output or a failure, and what is reported about it. -/
structure Outcome where
  result : Except CompileFailure String
  reports : List Diagnostic

/-- What is reported about a failure to load: everything known about packages, unless a text was faulty. -/
def loadReports (m : Manager) : CompileFailure → List Diagnostic
  | .package (.faults ..) | .noSource _ => []
  | _ => m.diagnostics

/-- Compiles some inputs. Reports of output that could not be made are dropped. -/
def compile (disk : Disk) (backend : Backend) (includes inputs : List String) : Outcome :=
  match loadAll disk backend includes inputs .empty with
  | .error e m => ⟨.error e, loadReports m e⟩
  | .ok files m =>
    match files.mapM (generate backend m · 2) [] with
    | .error e _ => ⟨.error (.generation e), []⟩
    | .ok outputs reports => ⟨.ok (String.join outputs), reports⟩

end QiIdl
