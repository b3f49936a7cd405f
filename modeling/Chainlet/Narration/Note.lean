import Chainlet.Text.Quoted

/-!
# Narration/Note — what is told along the way

A `Note` tells of one thing that happened while a source was read, its program built or the module
generated. Its level and its stage are functions of what it tells.
-/

namespace Chainlet

/-- A thing that happened on the way from a source to its module. -/
inductive Note where
  /-- A source had this many elements. -/
  | parsed (elements : Nat)
  /-- A definition was built. -/
  | defined (keyword name : String) (parameters : Nat)
  /-- A program with this many elements was built. -/
  | built (elements : Nat)
  /-- The generics of a definition were dropped. -/
  | erased (generics : List String) (name : String)
  /-- A function keeps addresses in another local than the one asked for. -/
  | renamed (name scratch : String)
  /-- A string became a null address. -/
  | placeholder (content : String)
  /-- A global was assigned. -/
  | assigned (name : String)
  /-- A function was generated. -/
  | emitted (keyword name : String) (instructions : Nat)
deriving DecidableEq, Repr

/-- How much a note matters. -/
inductive NoteLevel where
  | trace
  | debug
deriving DecidableEq, Repr

/-- The part of the way that a note tells of. -/
inductive Stage where
  | reading
  | building
  | generating
deriving DecidableEq, Repr

namespace Note

def level : Note → NoteLevel
  | parsed _ | defined .. | erased .. | placeholder _ => .trace
  | built _ | renamed .. | assigned _ | emitted .. => .debug

def stage : Note → Stage
  | parsed _ => .reading
  | defined .. | built _ => .building
  | erased .. | renamed .. | placeholder _ | assigned _ | emitted .. => .generating

def message : Note → String
  | parsed n => "parsed " ++ toString n ++ " top-level elements"
  | defined keyword name n =>
    "definition " ++ keyword ++ " " ++ name ++ " with " ++ toString n ++ " params"
  | built n => "built program with " ++ toString n ++ " elements"
  | erased generics name => "erasing generic parameters " ++ quotedList generics ++ " of " ++ name
  | renamed name scratch => "scratch local of $" ++ name ++ " renamed to $" ++ scratch
  | placeholder content => "string literal " ++ quoted content ++ " compiled to placeholder"
  | assigned name => "emitted global.set $" ++ name
  | emitted keyword name n =>
    "emitted " ++ keyword ++ " $" ++ name ++ " with " ++ toString n ++ " instructions"

end Note

end Chainlet
