/-!
# Files/Basic — what a program may do with files

A `FileFault` is the reason for which an operation on files fails, with the words of the operating
system. `FileSystem` is the interface to the operations that a run needs, in any monad; out of them
`makeDirectories` makes a directory together with those above it.
-/

namespace Chainlet

/-- Why an operation on files fails. -/
inductive FileFault where
  | notFound
  | alreadyExists
  | notDirectory
  | isDirectory
  | nameTooLong
  | tooManyLinks
  /-- Any other reason, in words. -/
  | other (reason : String)
deriving DecidableEq, Repr

/-- The words of the operating system for a fault. -/
def FileFault.message : FileFault → String
  | notFound => "No such file or directory (os error 2)"
  | alreadyExists => "File exists (os error 17)"
  | notDirectory => "Not a directory (os error 20)"
  | isDirectory => "Is a directory (os error 21)"
  | nameTooLong => "File name too long (os error 36)"
  | tooManyLinks => "Too many levels of symbolic links (os error 40)"
  | other reason => reason

/-- The operations on files that a run needs. Contents are read as bytes and written as text. -/
class FileSystem (m : Type → Type) where
  readFile : (path : String) → m (Except FileFault ByteArray)
  /-- All of standard input. -/
  readInput : m (Except FileFault ByteArray)
  /-- Whether a path leads to a directory, as far as can be found out. -/
  isDirectory : (path : String) → m Bool
  /-- Make one directory, which must not be there. -/
  makeDirectory : (path : String) → m (Except FileFault PUnit)
  /-- Make a file or replace its contents. -/
  writeFile : (path contents : String) → m (Except FileFault PUnit)

/-! ## Paths -/

/-- The path of a file in a directory. -/
def fileIn (directory file : String) : String :=
  if directory.endsWith "/" then directory ++ file else directory ++ "/" ++ file

/-- The names between the slashes of a path. -/
def namesOf (path : String) : List String := (path.toList.splitOn '/').map String.ofList

/-- The names of a path that lead somewhere else: nothing and a single point stay where they are,
except at the front. -/
def plainNames (path : String) : List String :=
  match namesOf path with
  | first :: names => first :: names.filter fun n => n ≠ "" ∧ n ≠ "."
  | [] => []

/-- The path with some plain names. Nothing but an empty name in front is the root. -/
def joinNames : List String → String
  | [""] => "/"
  | names => "/".intercalate names

/-! ## Directories -/

section Directories

variable {m : Type → Type} [Monad m] [FileSystem m]

/-- A directory that could not be made may be there already. -/
def acceptDirectory (path : String) : Except FileFault PUnit → m (Except FileFault PUnit)
  | .ok _ => pure (.ok ⟨⟩)
  | .error f => do if ← FileSystem.isDirectory path then pure (.ok ⟨⟩) else pure (.error f)

/-- Make one directory unless it is there. -/
def ensureDirectory (path : String) : m (Except FileFault PUnit) := do
  acceptDirectory path (← FileSystem.makeDirectory path)

/-- Make a directory, and first those above it if one of them is missing. The plain names of the path
are given from the last one up. -/
def ensureWithParents (path : String) : (plain : List String) → m (Except FileFault PUnit)
  | [] => pure (.ok ⟨⟩)
  | _ :: above => do
    match ← FileSystem.makeDirectory path with
    | .error .notFound =>
      match ← ensureWithParents (joinNames above.reverse) above with
      | .ok _ => ensureDirectory path
      | .error f => pure (.error f)
    | made => acceptDirectory path made

/-- Make a directory with all directories above it, unless it is there. -/
def makeDirectories (path : String) : m (Except FileFault PUnit) :=
  ensureWithParents path (plainNames path).reverse

end Directories

end Chainlet
