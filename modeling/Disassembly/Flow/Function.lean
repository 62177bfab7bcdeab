import Disassembly.Flow.Block
import Disassembly.Flow.Edge

/-!
# Functions

A function is a flow graph with an identity, its entry point, and with names and a type. Blocks and
edges are kept in the order in which they were added until the graph is sorted. An address is looked
up in the block with the last start not past it, which is right for sorted blocks that do not
overlap; of blocks with one start the last counts.

`Function.repairEdges` brings edges into their final form: every endpoint is the start of a block,
edges are sorted and none is repeated.
-/

namespace Disassembly.Flow

open Disassembly.Text

/-- What sort of function one is. -/
inductive FunctionType where
  /-- A function of the program. -/
  | standard
  /-- A function of a library in the program. -/
  | library
  /-- A function of another module. -/
  | imported
  /-- A stub that passes control on. -/
  | thunk
  /-- No valid function. -/
  | invalid
  /-- Not assigned yet. -/
  | unassigned
  deriving DecidableEq, Repr

namespace FunctionType

/-- The number of a type outside the program. -/
def tag : FunctionType → Nat
  | standard => 0
  | library => 1
  | imported => 2
  | thunk => 3
  | invalid => 4
  | unassigned => 123

/-- The type with the given number. -/
def ofTag? (tag : Nat) : Option FunctionType :=
  [standard, library, imported, thunk, invalid, unassigned].find? (·.tag == tag)

/-- The name of a type. -/
def name : FunctionType → String
  | standard => "standard"
  | library => "library"
  | imported => "imported"
  | thunk => "thunk"
  | invalid => "invalid"
  | unassigned => "none"

theorem ofTag?_tag (type : FunctionType) : ofTag? type.tag = some type := by cases type <;> rfl

end FunctionType

/-- A function. -/
structure Function where
  /-- The address at which it is entered; its identity. -/
  entry : Address
  /-- Its blocks. -/
  blocks : List Block := []
  /-- Its edges. -/
  edges : List Edge := []
  /-- Its name as the linker knows it; empty if it has none. -/
  name : String := ""
  /-- Its name as the programmer knows it; empty if it has none. -/
  demangledName : String := ""
  /-- The module that it belongs to. -/
  moduleName : Option String := none
  /-- The type that it was assigned. -/
  type : FunctionType := .unassigned
  /-- The library that it belongs to; `-1` stands for none. -/
  libraryIndex : Int32 := -1
  deriving DecidableEq, Repr

namespace Function

/-! ### Building -/

/-- The function with one more block. -/
def addBlock (f : Function) (block : Block) : Function := { f with blocks := f.blocks ++ [block] }

/-- The function with one more edge. -/
def addEdge (f : Function) (edge : Edge) : Function := { f with edges := f.edges ++ [edge] }

/-- The function without its flow graph. -/
def clear (f : Function) : Function := { f with blocks := [], edges := [] }

/-! ### Names and types -/

/-- The name of a function that has none: `sub_` and its entry point in 8 digits, or in 16 if 8 are
not enough. -/
def generatedName (entry : Address) : String :=
  "sub_" ++ paddedHex (if entry.toNat < UInt32.size then 8 else 16) entry.toNat

/-- The name as the linker knows it, or a generated one. -/
def mangled (f : Function) : String := if f.name.isEmpty then generatedName f.entry else f.name

/-- The name as the programmer knows it, or else as the linker does. -/
def demangled (f : Function) : String :=
  if f.demangledName.isEmpty then f.mangled else f.demangledName

/-- Whether the function has a name other than the generated one. -/
def hasRealName (f : Function) : Bool := !f.name.isEmpty && f.name != generatedName f.entry

/-- The type that the structure of a function suggests: one at address 0 is a stub, one without
blocks belongs to another module, and any other is a function of the program. -/
def classify (f : Function) : FunctionType :=
  if f.entry = 0 then .thunk else if f.blocks.isEmpty then .imported else .standard

/-- Whether the function seems to belong to another module. -/
def isImported (f : Function) : Bool := f.classify == .imported

/-! ### Looking up -/

/-- The place of the block that an address lies in. The blocks must be sorted by start: only the last
block that does not start past the address is considered. -/
def blockIndex? (f : Function) (address : Address) : Option Nat :=
  match (f.blocks.takeWhile fun block => block.start ≤ address).length with
  | 0 => none
  | i + 1 => if f.blocks[i]?.any fun block => block.contains address then some i else none

/-- The block that an address lies in, the blocks being sorted by start. -/
def blockAt? (f : Function) (address : Address) : Option Block :=
  (f.blockIndex? address).bind fun i => f.blocks[i]?

/-- The instruction that starts at an address, the blocks being sorted by start. -/
def instructionAt? (f : Function) (address : Address) : Option Instruction :=
  (f.blockAt? address).bind fun block => block.instructionAt? address

/-! ### Sorting and repair -/

/-- The function with its blocks in the order of their starts; blocks with one start stay as they
are. -/
def sortBlocks (f : Function) : Function :=
  { f with blocks := f.blocks.mergeSort fun a b => a.start ≤ b.start }

/-- The function with sorted blocks and sorted edges. -/
def sortGraph (f : Function) : Function :=
  { f.sortBlocks with edges := f.edges.mergeSort Edge.le }

/-- The edge between the starts of the blocks that the endpoints of an edge lie in; none if one of
them lies in no block. -/
def moveEdge? (f : Function) (edge : Edge) : Option Edge := do
  let source ← f.blockAt? edge.source
  let target ← f.blockAt? edge.target
  return { edge with source := source.start, target := target.start }

/-- The function with sorted blocks, every edge moved to the starts of blocks, sorted, and without
repetitions. -/
def repaired (f : Function) : Function :=
  let f := f.sortBlocks
  { f with edges := ((f.edges.filterMap f.moveEdge?).mergeSort Edge.le).eraseReps }

/-- The function with repaired edges, and how many edges fewer it has. -/
def repairEdges (f : Function) : Function × Nat :=
  (f.repaired, f.edges.length - f.repaired.edges.length)

/-- The function in its final form, sorted and with its edges repaired if `repair` is set, and how
many edges fewer it has. -/
def finalize (f : Function) (repair : Bool) : Function × Nat :=
  if repair then f.sortGraph.repairEdges else (f.sortGraph, 0)

end Function

end Disassembly.Flow
