import Chainlet.Module.Options

/-!
# Command/Arguments — what a command line asks for

Arguments are read from the left. An option takes its value from the same argument, behind an equals
sign or, for a short option, right after the letter; or from the next argument, which must not look
like an option. Every option, and the input, may be given once. The first `--version` or `--help`
ends the reading (`Stop`), and so does the first mistake.
-/

namespace Chainlet

/-- What a run may write: the program, and the module. -/
inductive Artifact where
  | ast
  | wat
deriving DecidableEq, Repr

/-- The artifacts that a run writes. -/
inductive Emit where
  | ast
  | wat
  | all
deriving DecidableEq, Repr

namespace Emit

/-- Whether an artifact is among those that a run writes. -/
def writes : Emit → Artifact → Bool
  | ast, .ast | wat, .wat | all, _ => true
  | ast, .wat | wat, .ast => false

/-- The choice of artifacts with a name. -/
def ofName? : String → Option Emit
  | "ast" => some ast
  | "wat" => some wat
  | "all" => some all
  | _ => none

end Emit

/-- What a run is asked to do; without an input it reads what it is given as standard input. -/
structure Arguments where
  input : Option String := none
  outDir : String := "."
  emit : Emit := .all
  heapBase : UInt32 := 1024
  memoryPages : UInt32 := 1
  builtinNamespace : Option String := none
deriving DecidableEq, Repr

/-- The options of generation that a run asks for. -/
def Arguments.options (a : Arguments) : Options where
  heapBase := a.heapBase
  memoryPages := a.memoryPages
  builtinNamespace := a.builtinNamespace

/-- What ends the reading of arguments early. -/
inductive Stop where
  | version
  | help
  | mistake
deriving DecidableEq, Repr

/-! ## Options and their values -/

/-- The options that take a value, and the input. -/
inductive Setting where
  | input
  | outDir
  | emit
  | heapBase
  | memoryPages
  | builtinNamespace
deriving DecidableEq, Repr

/-- The option with a long name. -/
def Setting.ofLongName? : String → Option Setting
  | "out-dir" => some .outDir
  | "emit" => some .emit
  | "heap-base" => some .heapBase
  | "memory-pages" => some .memoryPages
  | "builtin-namespace" => some .builtinNamespace
  | _ => none

/-- An integer in decimal with an optional sign. -/
def integer? (text : List Char) : Option Int :=
  let (negative, digits) := match text with
    | '-' :: digits => (true, digits)
    | '+' :: digits => (false, digits)
    | digits => (false, digits)
  if digits.isEmpty || !digits.all Char.isDigit then none
  else
    let value : Nat := digits.foldl (fun n c => 10 * n + (c.toNat - '0'.toNat)) 0
    some (if negative then -value else value)

/-- An integer that fits in a word. -/
def wordArgument? (text : String) : Option UInt32 := do
  let value ← integer? text.toList
  if 0 ≤ value ∧ value.toNat < UInt32.size then some (UInt32.ofNat value.toNat) else none

/-- The arguments read so far, and the settings among them that were given. -/
structure Reading where
  arguments : Arguments
  given : List Setting := []

namespace Reading

/-- One more setting, unless it was given before or its value is not one. A path must not be empty. -/
def set (r : Reading) (s : Setting) (value : String) : Except Stop Reading := do
  if r.given.contains s then throw .mistake
  let a := r.arguments
  let changed ← match s with
    | .input => if value.isEmpty then throw .mistake else pure { a with input := some value }
    | .outDir => if value.isEmpty then throw .mistake else pure { a with outDir := value }
    | .emit =>
      match Emit.ofName? value with
      | some e => pure { a with emit := e }
      | none => throw .mistake
    | .heapBase =>
      match wordArgument? value with
      | some n => pure { a with heapBase := n }
      | none => throw .mistake
    | .memoryPages =>
      match wordArgument? value with
      | some n => pure { a with memoryPages := n }
      | none => throw .mistake
    | .builtinNamespace => pure { a with builtinNamespace := some value }
  pure ⟨changed, s :: r.given⟩

end Reading

/-! ## The command line -/

/-- What an argument looks like before it is known which options there are. -/
inductive Shape where
  /-- Two dashes, behind which there are no options. -/
  | dashes
  | long (name : String) (value : Option String)
  | short (letters : List Char)
  /-- No option: a value of its own. -/
  | plain

/-- The shape of an argument. A single dash is no option. -/
def Shape.of (argument : String) : Shape :=
  match argument.toList with
  | ['-', '-'] => .dashes
  | '-' :: '-' :: text =>
    let name := text.takeWhile (· != '=')
    match text.dropWhile (· != '=') with
    | _ :: value => .long (String.ofList name) (some (String.ofList value))
    | [] => .long (String.ofList name) none
  | '-' :: c :: letters => .short (c :: letters)
  | _ => .plain

/-- An option, as far as one argument tells. -/
inductive OptionRead where
  | stop (s : Stop)
  | value (setting : Setting) (value : String)
  | awaits (setting : Setting)
  | noOption

/-- What an argument says by itself. -/
def OptionRead.of (argument : String) : OptionRead :=
  match Shape.of argument with
  | .dashes | .plain => .noOption
  | .long "version" none => .stop .version
  | .long "help" none => .stop .help
  | .long name text =>
    match Setting.ofLongName? name, text with
    | some s, some v => .value s v
    | some s, none => .awaits s
    | none, _ => .stop .mistake
  | .short ('V' :: _) => .stop .version
  | .short ('h' :: _) => .stop .help
  | .short ['o'] => .awaits .outDir
  | .short ('o' :: '=' :: text) => .value .outDir (String.ofList text)
  | .short ('o' :: text) => .value .outDir (String.ofList text)
  | .short _ => .stop .mistake

/-- Whether an argument can be the value of the option before it. -/
def isValue (argument : String) : Bool :=
  match Shape.of argument with
  | .plain => true
  | _ => false

namespace Reading

/-- The arguments behind two dashes, which are all inputs. -/
def readInputs (r : Reading) : List String → Except Stop Reading
  | [] => pure r
  | argument :: rest => do (← r.set .input argument).readInputs rest

/-- The arguments of a command line, after those already read. -/
def read (r : Reading) : List String → Except Stop Reading
  | [] => pure r
  | [argument] =>
    match OptionRead.of argument with
    | .stop s => throw s
    | .value setting value => r.set setting value
    | .awaits _ => throw .mistake
    | .noOption => if argument = "--" then pure r else r.set .input argument
  | argument :: next :: rest =>
    match OptionRead.of argument with
    | .stop s => throw s
    | .value setting value => do (← r.set setting value).read (next :: rest)
    | .awaits setting => do
      if isValue next then (← r.set setting next).read rest else throw .mistake
    | .noOption => do
      if argument = "--" then r.readInputs (next :: rest)
      else (← r.set .input argument).read (next :: rest)

end Reading

/-- **The arguments of a command line.** The namespace of builtin functions may come from the
surroundings instead. -/
def Arguments.read (arguments : List String) (outerNamespace : Option String) :
    Except Stop Arguments := do
  let r ← Reading.read ⟨{}, []⟩ arguments
  pure { r.arguments with
    builtinNamespace := r.arguments.builtinNamespace.or outerNamespace }

end Chainlet
