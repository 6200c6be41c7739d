import QiIdl.Compile

/-!
# The command line

    qic [-c BACKEND] [-I DIR]... [-o FILE] INPUT...

An input is a source file, a directory of them, or the name of a package that is searched in the include
directories. All output goes to one file, or to the standard output, and only if every input succeeds. The exit
status is 0 on success, 1 if an input fails, and 2 if the output cannot be written or the arguments are wrong.
-/

namespace QiIdl

/-- What is asked for: a kind of output, include directories, the file to write and the inputs. -/
structure Options where
  backend : Option Backend
  includes : List String
  output : Option String
  inputs : List String
deriving DecidableEq, Repr

/-- An option that takes a value. -/
inductive OptionKind where
  | codegen
  | directory
  | output
deriving DecidableEq, Repr

namespace OptionKind

/-- The long name of an option. -/
def name : OptionKind → String
  | codegen => "codegen"
  | directory => "include"
  | output => "output"

/-- The short name of an option. -/
def letter : OptionKind → Char
  | codegen => 'c'
  | directory => 'I'
  | output => 'o'

def all : List OptionKind := [.codegen, .directory, .output]

def ofName? (name : String) : Option OptionKind := all.find? (·.name == name)

def ofLetter? (c : Char) : Option OptionKind := all.find? (·.letter == c)

end OptionKind

/-- What can be wrong with the arguments. -/
inductive UsageError where
  | unknown (argument : String)
  | missingValue (option : OptionKind)
  | badBackend (name : String)
  | repeated (option : OptionKind)
  | unexpectedValue (argument : String)
  | noInput
deriving DecidableEq, Repr

/-- What is said about wrong arguments. -/
def UsageError.message : UsageError → String
  | unknown argument => s!"unexpected argument '{argument}' found"
  | missingValue option => s!"a value is required for '--{option.name}' but none was supplied"
  | badBackend name => s!"invalid value '{name}' for '--codegen <BACKEND>'"
  | repeated option => s!"the argument '--{option.name}' cannot be used multiple times"
  | unexpectedValue argument => s!"unexpected value in '{argument}'"
  | noInput => "the following required arguments were not provided: <INPUT>..."

/-- What a command line asks for. -/
inductive Request where
  | compile (options : Options)
  | help
  | version
deriving DecidableEq, Repr

namespace Options

/-- Options before any argument is read. -/
def empty : Options := ⟨none, [], none, []⟩

def addInput (o : Options) (input : String) : Options := { o with inputs := o.inputs ++ [input] }

/-- Sets an option. Only include directories may be given more than once, and paths are not empty. -/
def set (o : Options) (option : OptionKind) (value : String) : Except UsageError Options :=
  match option with
  | .codegen =>
    if o.backend.isSome then .error (.repeated .codegen)
    else
      match Backend.ofName? value with
      | some b => .ok { o with backend := some b }
      | none => .error (.badBackend value)
  | .directory =>
    if value.isEmpty then .error (.missingValue .directory) else .ok { o with includes := o.includes ++ [value] }
  | .output =>
    if value.isEmpty then .error (.missingValue .output)
    else if o.output.isSome then .error (.repeated .output)
    else .ok { o with output := some value }

end Options

/-- What one argument is. -/
inductive Argument where
  | input (text : String)
  | setting (option : OptionKind) (value : Option String)
  | rest
  | help
  | version

namespace Argument

/-- A long option, cut at its equals sign. -/
def ofLong (cs : List Char) : Except UsageError Argument :=
  let name := String.ofList (cs.takeWhile (· != '='))
  let value := match cs.dropWhile (· != '=') with
    | _ :: v => some (String.ofList v)
    | [] => none
  match OptionKind.ofName? name, name, value with
  | some option, _, value => .ok (.setting option value)
  | none, "help", none => .ok .help
  | none, "version", none => .ok .version
  | none, "help", some _ | none, "version", some _ => .error (.unexpectedValue ("--" ++ String.ofList cs))
  | none, _, _ => .error (.unknown ("--" ++ name))

/-- A short option, with its value right behind it if there is one. -/
def ofShort (c : Char) (cs : List Char) : Except UsageError Argument :=
  match OptionKind.ofLetter? c, c, cs with
  | some option, _, [] => .ok (.setting option none)
  | some option, _, '=' :: v => .ok (.setting option (some (String.ofList v)))
  | some option, _, v => .ok (.setting option (some (String.ofList v)))
  | none, 'h', _ => .ok .help
  | none, 'V', _ => .ok .version
  | none, c, _ => .error (.unknown (String.ofList ['-', c]))

/-- An argument by its first characters. -/
def ofText (text : String) : Except UsageError Argument :=
  match text.toList with
  | ['-', '-'] => .ok .rest
  | '-' :: '-' :: cs => ofLong cs
  | '-' :: c :: cs => ofShort c cs
  | _ => .ok (.input text)

/-- Whether a text may be the value of the option before it: it does not look like an option. -/
def isValue (text : String) : Bool :=
  match text.toList with
  | '-' :: _ :: _ => false
  | _ => true

end Argument

/-- Reads arguments, from left to right. -/
def readArguments (o : Options) : List String → Except UsageError Request
  | [] => if o.inputs.isEmpty then .error .noInput else .ok (.compile o)
  | text :: rest => do
    match ← Argument.ofText text with
    | .input input => readArguments (o.addInput input) rest
    | .help => pure .help
    | .version => pure .version
    | .rest =>
      let o := rest.foldl Options.addInput o
      if o.inputs.isEmpty then .error .noInput else pure (.compile o)
    | .setting option (some value) => do
      let o ← o.set option value
      readArguments o rest
    | .setting option none =>
      match rest with
      | [] => .error (.missingValue option)
      | value :: rest =>
        if Argument.isValue value then do
          let o ← o.set option value
          readArguments o rest
        else .error (.missingValue option)

def usage : String := "Usage: qic [OPTIONS] <INPUT>..."

def helpText : String :=
  "Compile qilang interface definitions to C++ bindings, canonical qilang or documentation\n\n" ++ usage ++ "\n\n"
    ++ "Arguments:\n  <INPUT>...  source files, directories or package names\n\n"
    ++ "Options:\n"
    ++ "  -c, --codegen <BACKEND>  Backend generating the output [default: qilang]\n"
    ++ "  -I, --include <DIR>      Directory whose subdirectories hold packages; repeatable\n"
    ++ "  -o, --output <FILE>      File receiving the generated code (stdout when omitted)\n"
    ++ "  -h, --help               Print help\n"
    ++ "  -V, --version            Print version\n\n"
    ++ "Backends:\n"
    ++ "  cpp_interface, cppi   C++ interface header (sync and async classes, data types)\n"
    ++ "  cpp_local, cppl       C++ adapters for local implementations and REGISTER_<NAME>\n"
    ++ "  cpp_remote, cppr      C++ proxies calling a remote object by method name\n"
    ++ "  cpp_bind, cppb        C++ type registration\n"
    ++ "  cpp_gmock, cppg       gmock mocks of the async contract\n"
    ++ "  qilang                canonical qilang source\n"
    ++ "  sexpr                 s-expression dump of the syntax tree\n"
    ++ "  doc                   JSON documentation map\n"

/-- What a run of the command leaves: its exit status, what it prints, and the disk. -/
structure CommandResult where
  status : Nat
  stdout : String
  stderr : String
  disk : Disk

/-- The last line of a run that fails. -/
def failureLine (message : String) : String := s!"qic: {message}\n"

/-- What is printed about a failure besides its summary: the faults of a text, or else the reports. -/
def Outcome.details (o : Outcome) : String :=
  match o.result with
  | .error (.package (.faults file source faults)) => Fault.textAll file source faults ++ "\n"
  | _ => Diagnostic.render o.reports

/-- Compiles what the options ask for. -/
def runOptions (disk : Disk) (o : Options) : CommandResult :=
  let outcome := compile disk (o.backend.getD .qilang) o.includes o.inputs
  match outcome.result, o.output with
  | .error e, _ => ⟨1, "", outcome.details ++ failureLine e.message, disk⟩
  | .ok text, none => ⟨0, text, outcome.details, disk⟩
  | .ok text, some path =>
    match disk.write path text with
    | .ok disk => ⟨0, "", outcome.details, disk⟩
    | .error e => ⟨2, "", outcome.details ++ failureLine s!"Error writing '{path}': {e.message}", disk⟩

def runCommand (disk : Disk) (arguments : List String) : CommandResult :=
  match readArguments .empty arguments with
  | .error e => ⟨2, "", s!"error: {e.message}\n\n{usage}\n\nFor more information, try '--help'.\n", disk⟩
  | .ok .help => ⟨0, helpText, "", disk⟩
  | .ok .version => ⟨0, "qic 0.1.0\n", "", disk⟩
  | .ok (.compile o) => runOptions disk o

end QiIdl
