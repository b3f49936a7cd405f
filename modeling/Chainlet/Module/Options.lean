/-!
# Module/Options — what a module is generated with

The options name the things that a module takes from its surroundings: the memory, the heap pointer,
the allocator of composite literals, the local that keeps their address, and the module of the
builtin functions.
-/

namespace Chainlet

/-- The options of generation, with their defaults. -/
structure Options where
  /-- The pages of memory that a module declares. -/
  memoryPages : UInt32 := 1
  /-- The first value of the heap pointer. -/
  heapBase : UInt32 := 1024
  /-- The global that holds the heap pointer. -/
  heapGlobal : String := "heap"
  /-- The function that takes a number of words and gives the address of as many free ones. -/
  allocator : String := "alloc_array"
  /-- The local that keeps the address of the literal being stored. -/
  scratch : String := "addr"
  /-- What stands before the names of builtin functions, and a point after it. -/
  builtinNamespace : Option String := none
deriving DecidableEq, Repr

/-- The options for a function that keeps addresses in another local. -/
def Options.withScratch (o : Options) (name : String) : Options := { o with scratch := name }

end Chainlet
