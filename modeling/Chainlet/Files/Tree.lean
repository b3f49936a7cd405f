import Chainlet.Files.Basic

/-!
# Files/Tree — directories, files and links as a value

A `FileTree` lists the directories, files and links below a root, each under the names that lead to it. A
path is walked name by name (`FileTree.walk`), from the root or from the current directory: each step
needs a directory to start from, a single point stays, two points go up, and a link goes on at its own
path, with the names that are left. A `FileTree` with a standard input is a `FileSystem`, in which nothing
outside the tree can change.
-/

namespace Chainlet

/-- The names that lead from the root to what is there. -/
abbrev Location := List String

/-- A file with its contents, a directory, or a link with the path that it stands for. -/
inductive FileEntry where
  | file (contents : ByteArray)
  | directory
  | link (path : String)

/-- The directories, files and links below a root, and the directory that relative paths start from. -/
structure FileTree where
  entries : List (Location × FileEntry) := []
  current : Location := []

namespace FileTree

/-- What there is at a location; the root is a directory. -/
def find? (t : FileTree) (l : Location) : Option FileEntry :=
  if l.isEmpty then some .directory else t.entries.lookup l

/-- The path of the link at a location. -/
def linkAt? (t : FileTree) (l : Location) : Option String :=
  match t.find? l with
  | some (.link path) => some path
  | _ => none

/-- The tree with an entry at a location, in place of what was there. -/
def put (t : FileTree) (l : Location) (e : FileEntry) : FileTree :=
  { t with entries := (l, e) :: t.entries.filter fun (l', _) => l' != l }

theorem find?_put_self (t : FileTree) {l : Location} (e : FileEntry) (h : l ≠ []) :
    (t.put l e).find? l = some e := by
  simp [find?, put, h]

/-! ## Walks -/

/-- The greatest number of bytes in a name. -/
def nameLimit : Nat := 255

/-- The greatest number of links on the way of a path. -/
def linkLimit : Nat := 40

/-- Where a path starts, if relative paths start at a location. -/
def startOf (path : String) (l : Location) : Location := if path.startsWith "/" then [] else l

/-- The location that a name leads to from a directory. -/
def stepFrom (l : Location) (name : String) : Except FileFault Location :=
  if name = "" ∨ name = "." then .ok l
  else if name = ".." then .ok l.dropLast
  else if nameLimit < name.utf8ByteSize then .error .nameTooLong
  else .ok (l ++ [name])

/-- The location that names lead to from another one, up to the first link that is to be followed: it is
left to `onLink` how its names and those behind it go on. Only the last name may be missing, and a link
with the last name is followed only on demand. -/
def walkNames (onLink : Location → List String → Except FileFault Location) (t : FileTree)
    (follow : Bool) (l : Location) : List String → Except FileFault Location
  | [] => .ok l
  | name :: names =>
    match t.find? l with
    | none => .error .notFound
    | some (.file _) => .error .notDirectory
    | some (.link _) => .error .tooManyLinks
    | some .directory => do
      let next ← stepFrom l name
      match t.linkAt? next with
      | some path =>
        if follow ∨ names ≠ [] then onLink (startOf path l) (namesOf path ++ names) else .ok next
      | none => t.walkNames onLink follow next names

/-- The location that names lead to from another one, over a number of links at most. -/
def walk (t : FileTree) (follow : Bool) : (links : Nat) → Location → List String →
    Except FileFault Location
  | 0, l, names => t.walkNames (fun _ _ => .error .tooManyLinks) follow l names
  | links + 1, l, names => t.walkNames (t.walk follow links) follow l names

/-- The location that a path leads to. An empty path leads nowhere. -/
def locate (t : FileTree) (path : String) : Except FileFault Location :=
  if path.isEmpty then .error .notFound
  else t.walk true linkLimit (startOf path t.current) (namesOf path)

/-- The location at which a path makes something new. The last name is not followed if it is a link, and
slashes at the end of the path do not count. -/
def locateNew (t : FileTree) (path : String) : Except FileFault Location :=
  if path.isEmpty then .error .notFound
  else t.walk false linkLimit (startOf path t.current)
    ((namesOf path).reverse.dropWhile (· = "")).reverse

/-! ## Operations -/

def readFile (t : FileTree) (path : String) : Except FileFault ByteArray := do
  let l ← t.locate path
  match t.find? l with
  | none => throw .notFound
  | some .directory => throw .isDirectory
  | some (.link _) => throw .tooManyLinks
  | some (.file contents) => pure contents

def isDirectory (t : FileTree) (path : String) : Bool :=
  match t.locate path with
  | .error _ => false
  | .ok l =>
    match t.find? l with
    | some .directory => true
    | _ => false

/-- A file is made if it is missing and replaced if it is there. -/
def writeFile (t : FileTree) (path contents : String) : Except FileFault FileTree := do
  let l ← t.locate path
  match t.find? l with
  | some .directory => throw .isDirectory
  | some (.link _) => throw .tooManyLinks
  | _ => pure (t.put l (.file contents.toUTF8))

/-- A directory is made where nothing is, not even a link. -/
def makeDirectory (t : FileTree) (path : String) : Except FileFault FileTree := do
  let l ← t.locateNew path
  match t.find? l with
  | some _ => throw .alreadyExists
  | none => pure (t.put l .directory)

/-- The tree with a file at a path from the root and directories above it. -/
def withFile (t : FileTree) (path : String) (contents : ByteArray) : FileTree :=
  let names := (namesOf path).filter fun n => n ≠ "" ∧ n ≠ "."
  let above := (List.range' 1 (names.length - 1)).map names.take
  (above.foldl (fun t l => if (t.find? l).isSome then t else t.put l .directory) t).put names
    (.file contents)

/-- The files of a tree that another tree does not have, or has with other contents. -/
def changedFiles (t before : FileTree) : List (String × ByteArray) :=
  t.entries.filterMap fun (l, e) =>
    match e, before.find? l with
    | .directory, _ | .link _, _ => none
    | .file contents, some (.file old) =>
      if old == contents then none else some ("/".intercalate l, contents)
    | .file contents, _ => some ("/".intercalate l, contents)

end FileTree

/-- What a run on a `FileTree` sees: the tree as it is, and its standard input. -/
structure FileWorld where
  tree : FileTree
  input : ByteArray

/-- The world after an operation that may have changed the tree. -/
def FileWorld.update (w : FileWorld) : Except FileFault FileTree → Except FileFault PUnit × FileWorld
  | .ok tree => (.ok ⟨⟩, { w with tree })
  | .error f => (.error f, w)

instance : FileSystem (StateM FileWorld) where
  readFile path := fun w => (w.tree.readFile path, w)
  readInput := fun w => (.ok w.input, w)
  isDirectory path := fun w => (w.tree.isDirectory path, w)
  makeDirectory path := fun w => w.update (w.tree.makeDirectory path)
  writeFile path contents := fun w => w.update (w.tree.writeFile path contents)

end Chainlet
