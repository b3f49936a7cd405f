import Chainlet.Command.Arguments
import Chainlet.Files.Basic
import Chainlet.Module.OfProgram
import Chainlet.Program.Json
import Chainlet.Program.OfSource

/-!
# Command/Run — one run of the program

A run reads one source, writes its program as JSON and then its module, each if it is asked for. The
first `Failure` ends it, and what was written before stays. `command` is a run from its command line
to its exit code and what it prints.
-/

namespace Chainlet

/-- Why a run failed: what it was doing, and the cause if that is not all. -/
structure Failure where
  message : String
  cause : Option String := none
deriving DecidableEq, Repr

/-- What is printed of a failure. -/
def Failure.report (f : Failure) : String :=
  "Error: " ++ f.message ++ "\n" ++
    match f.cause with
    | none => ""
    | some cause => "\nCaused by:\n    " ++ cause ++ "\n"

/-- The file that an artifact is written to. -/
def Artifact.file : Artifact → String
  | ast => "ast.json"
  | wat => "main.wat"

/-- The path of the file that a run writes an artifact to. -/
def Arguments.pathOf (a : Arguments) (x : Artifact) : String := fileIn a.outDir x.file

/-- The name of a run's source in messages. -/
def Arguments.sourceName (a : Arguments) : String := a.input.getD "<stdin>"

/-- What a run was doing that failed to read its source. -/
def Arguments.readingFailure (a : Arguments) : String :=
  match a.input with
  | some path => "failed to read input file " ++ path
  | none => "failed to read stdin"

/-- What is said of a source that is no program. -/
def sourceFailure (name source : String) (e : ReadError) : Failure :=
  let p := e.fault.position source
  ⟨name ++ ":" ++ toString p.line ++ ":" ++ toString p.column ++ ": syntax error: " ++
    e.fault.message, none⟩

/-- The text of an artifact. A module may fail to be generated. -/
def Artifact.text (a : Arguments) (program : Program) : Artifact → Except Failure String
  | ast => .ok program.toJson.text
  | wat =>
    match program.module a.options with
    | .ok module => .ok module.text
    | .error r => .error ⟨"failed to compile " ++ a.sourceName, some r.message⟩

section Run

variable {m : Type → Type} [Monad m] [FileSystem m]

/-- An operation on files as a step of a run. -/
def fileStep {α : Type} (message : String) (operation : m (Except FileFault α)) :
    ExceptT Failure m α := do
  match ← operation with
  | .ok a => pure a
  | .error f => throw ⟨message, some f.message⟩

/-- What a run reads its source from. -/
def Arguments.reading (a : Arguments) : m (Except FileFault ByteArray) :=
  match a.input with
  | some path => FileSystem.readFile path
  | none => FileSystem.readInput

/-- The text of the source. -/
def readSource (a : Arguments) : ExceptT Failure m String := do
  let bytes ← fileStep a.readingFailure a.reading
  match String.fromUTF8? bytes with
  | some source => pure source
  | none => throw ⟨a.readingFailure, some "stream did not contain valid UTF-8"⟩

/-- The program of the source. -/
def readProgram (a : Arguments) : ExceptT Failure m Program := do
  let source ← readSource a
  match Program.ofSource source with
  | .ok program => pure program
  | .error e => throw (sourceFailure a.sourceName source e)

/-- Write an artifact into the output directory, if it is asked for. -/
def writeArtifact (a : Arguments) (program : Program) (x : Artifact) : ExceptT Failure m PUnit := do
  if a.emit.writes x then
    match x.text a program with
    | .ok contents =>
      fileStep ("failed to write output file " ++ a.pathOf x)
        (FileSystem.writeFile (a.pathOf x) contents)
    | .error f => throw f

/-- Write what is asked for. The program is written before its module is generated. -/
def writeArtifacts (a : Arguments) (program : Program) : ExceptT Failure m PUnit := do
  writeArtifact a program .ast
  writeArtifact a program .wat

/-- **A run.** -/
def run (a : Arguments) : ExceptT Failure m PUnit := do
  let program ← readProgram a
  fileStep ("failed to create directory " ++ a.outDir) (makeDirectories a.outDir)
  writeArtifacts a program

end Run

/-! ## The command -/

/-- How a command ended: its exit code and what it printed. -/
structure Outcome where
  exit : Nat
  stdout : String := ""
  stderr : String := ""
deriving DecidableEq, Repr

def versionText : String := "silicon 0.1.0\n"

def usageText : String := "Usage: silicon [OPTIONS] [INPUT]\n"

def helpText : String :=
  "Compile Silicon source to WebAssembly text\n\n" ++ usageText ++
    "\nArguments:\n" ++
    "  [INPUT]  Source file; reads stdin when omitted\n" ++
    "\nOptions:\n" ++
    "  -o, --out-dir <OUT_DIR>\n" ++
    "          Directory that receives ast.json and main.wat [default: .]\n" ++
    "      --emit <EMIT>\n" ++
    "          [default: all] [possible values: ast, wat, all]\n" ++
    "      --heap-base <HEAP_BASE>\n" ++
    "          Initial value of the heap pointer global [default: 1024]\n" ++
    "      --memory-pages <MEMORY_PAGES>\n" ++
    "          Pages of linear memory declared by the module [default: 1]\n" ++
    "      --builtin-namespace <BUILTIN_NAMESPACE>\n" ++
    "          Prefix for builtin calls, e.g. `std` turns `&@print` into `call $std.print` " ++
    "[env: SILICON_BUILTIN_NAMESPACE=]\n" ++
    "  -h, --help\n" ++
    "          Print help\n" ++
    "  -V, --version\n" ++
    "          Print version\n"

def mistakeText : String :=
  "error: invalid arguments\n\n" ++ usageText ++ "\nFor more information, try '--help'.\n"

/-- The name under which the surroundings give the namespace of builtin functions. -/
def namespaceVariable : String := "SILICON_BUILTIN_NAMESPACE"

/-- **A command**: its arguments and the namespace of builtin functions in its surroundings. -/
def command {m : Type → Type} [Monad m] [FileSystem m] (arguments : List String)
    (outerNamespace : Option String) : m Outcome := do
  match Arguments.read arguments outerNamespace with
  | .error .version => pure { exit := 0, stdout := versionText }
  | .error .help => pure { exit := 0, stdout := helpText }
  | .error .mistake => pure { exit := 2, stderr := mistakeText }
  | .ok a =>
    match ← (run a : ExceptT Failure m PUnit).run with
    | .ok _ => pure { exit := 0 }
    | .error f => pure { exit := 1, stderr := f.report }

end Chainlet
