import Chainlet.Files.Tree
import Chainlet.Main
import Chainlet.Narration.Source
import Chainlet.Program.Equality
import Chainlet.Proofs.Machine.Basic
import Chainlet.Proofs.Meaning.Basic
import Chainlet.Proofs.Code.Chain
import Chainlet.Proofs.Meaning.Simulation
import Chainlet.Proofs.Meaning.Fragments
import Chainlet.Proofs.Meaning.Compiled
import Chainlet.Proofs.Meaning.TopLevel
import Chainlet.Proofs.Tree.Layout
import Chainlet.Proofs.Grammar.Word
import Chainlet.Proofs.Grammar.Derivation
import Chainlet.Proofs.Grammar.Sound
import Chainlet.Proofs.Program.Total
import Chainlet.Proofs.Grammar.Progress
import Chainlet.Proofs.Program.Spans
import Chainlet.Proofs.Spelling.Basic
import Chainlet.Proofs.Spelling.Word
import Chainlet.Proofs.Spelling.Start
import Chainlet.Proofs.Spelling.Accepts
import Chainlet.Proofs.Spelling.Names
import Chainlet.Proofs.Spelling.Literals
import Chainlet.Proofs.Spelling.First
import Chainlet.Proofs.Spelling.Operands
import Chainlet.Proofs.Spelling.Chains
import Chainlet.Proofs.Spelling.Items
import Chainlet.Proofs.Spelling.Complete
import Chainlet.Proofs.Parallel.Basic
import Chainlet.Proofs.Parallel.Grammar
import Chainlet.Proofs.Parallel.Fence
import Chainlet.Proofs.Parallel.Local
import Chainlet.Proofs.Parallel.Appended
import Chainlet.Proofs.Parallel.Elements
import Chainlet.Proofs.Joined.Tree
import Chainlet.Proofs.Code.Spans
import Chainlet.Proofs.Joined.Module
import Chainlet.Proofs.Program.Construct
import Chainlet.Proofs.Program.Integer
import Chainlet.Proofs.Code.Depth
import Chainlet.Proofs.Code.Emits
import Chainlet.Proofs.Code.Fresh
import Chainlet.Proofs.Code.Units
import Chainlet.Proofs.Code.Scratch
import Chainlet.Proofs.Code.Refusals
import Chainlet.Proofs.Code.Globals
import Chainlet.Proofs.Grammar.Cover
import Chainlet.Proofs.Tree.Nodes
import Chainlet.Proofs.Grammar.Nested
import Chainlet.Proofs.Grammar.Tight
import Chainlet.Proofs.Grammar.Tidy
import Chainlet.Proofs.Grammar.Lossless
import Chainlet.Proofs.Program.Erasure
import Chainlet.Proofs.Code.Erased
import Chainlet.Proofs.Code.Draft
import Chainlet.Proofs.Code.Naming
import Chainlet.Proofs.Grammar.Anchored
import Chainlet.Proofs.Outline.Basic
import Chainlet.Proofs.Outline.Built
import Chainlet.Proofs.Outline.Source
import Chainlet.Proofs.Respaced.Word
import Chainlet.Proofs.Respaced.Item
import Chainlet.Proofs.Respaced.Elements
import Chainlet.Proofs.Respaced.Source
import Chainlet.Proofs.Parallel.Cut
import Chainlet.Proofs.Printed.Module
import Chainlet.Proofs.Printed.Program
import Chainlet.Proofs.Command.Effect
import Chainlet.Proofs.Code.Promotion
import Chainlet.Proofs.Code.Layout
import Chainlet.Proofs.Stack.Effect
import Chainlet.Proofs.Stack.Straight
import Chainlet.Proofs.Stack.Assignment
import Chainlet.Proofs.Stack.Block
import Chainlet.Proofs.Stack.Stores
import Chainlet.Proofs.Stack.Bases
import Chainlet.Proofs.Program.Spine
import Chainlet.Proofs.Grammar.Root
import Chainlet.Proofs.Tree.Sound
import Chainlet.Proofs.Program.Refused
import Chainlet.Proofs.Parallel.Bound
import Chainlet.Proofs.Grammar.Absorbs
import Chainlet.Proofs.Grammar.Innermost
import Chainlet.Proofs.Program.Followed
import Chainlet.Proofs.Text.Position
import Chainlet.Proofs.Program.Mentions
import Chainlet.Proofs.Code.Accesses
import Chainlet.Proofs.Spelling.Digits
import Chainlet.Proofs.Spelling.Integers
import Chainlet.Proofs.Grammar.Halts
import Chainlet.Proofs.Code.Renaming
