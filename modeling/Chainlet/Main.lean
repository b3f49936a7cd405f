import Chainlet.Command.Run

/-!
# Main — the command line program

The files of a run are those of the operating system. The program prints what its command printed
and ends with the command's exit code.
-/

namespace Chainlet

/-- The number of an error, which some operations give as its negative. -/
def errorNumber (code : UInt32) : UInt32 := if code < 0x80000000 then code else 0 - code

/-- The fault with a number, or else with words for it. -/
def faultOfNumber (code : UInt32) (e : IO.Error) : FileFault :=
  match errorNumber code with
  | 2 => .notFound
  | 17 => .alreadyExists
  | 20 => .notDirectory
  | 21 => .isDirectory
  | 36 => .nameTooLong
  | 40 => .tooManyLinks
  | _ => .other (toString e)

/-- The fault behind an error of the operating system. -/
def faultOfError (e : IO.Error) : FileFault :=
  match e with
  | .noFileOrDirectory .. => .notFound
  | .alreadyExists _ code _ | .inappropriateType _ code _ | .invalidArgument _ code _
  | .illegalOperation code _ | .otherError code _ => faultOfNumber code e
  | e => .other (toString e)

/-- An operation of the operating system that may fail. -/
def attempt {α : Type} (operation : IO α) : IO (Except FileFault α) := do
  try
    let a ← operation
    pure (.ok a)
  catch e => pure (.error (faultOfError e))

/-- Whether a path leads to a directory, which nothing does that cannot be looked at. -/
def leadsToDirectory (path : String) : IO Bool := do
  match ← attempt do (← IO.FS.realPath path).isDir with
  | .ok found => pure found
  | .error _ => pure false

/-- What is left of a stream, after the bytes already read. -/
partial def readAll (stream : IO.FS.Stream) (read : ByteArray) : IO ByteArray := do
  let bytes ← stream.read 65536
  if bytes.isEmpty then pure read else readAll stream (read ++ bytes)

instance : FileSystem IO where
  readFile path := attempt (IO.FS.readBinFile path)
  readInput := attempt do readAll (← IO.getStdin) ByteArray.empty
  isDirectory := leadsToDirectory
  makeDirectory path := attempt (IO.FS.createDir path)
  writeFile path contents := attempt (IO.FS.writeFile path contents)

end Chainlet

/-- The program: its arguments are the command line behind its name. -/
def main (arguments : List String) : IO UInt32 := do
  let outer ← IO.getEnv Chainlet.namespaceVariable
  let outcome : Chainlet.Outcome ← Chainlet.command arguments outer
  (← IO.getStdout).putStr outcome.stdout
  (← IO.getStderr).putStr outcome.stderr
  pure (UInt32.ofNat outcome.exit)
