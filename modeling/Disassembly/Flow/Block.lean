import Disassembly.Instruction

/-!
# Basic blocks

A block is a straight run of instructions together with the half-open range of addresses that it
covers. The range of a block that is made from instructions reaches from the first of them to the
farthest end of one; a block that is made for a range grows with what is pushed onto it.
-/

namespace Disassembly.Flow

/-- A straight run of instructions covering the addresses from `start` up to `stop`, which is left
out. -/
structure Block where
  /-- The first address. -/
  start : Address
  /-- The address just past the last. -/
  stop : Address
  /-- The instructions. -/
  instructions : List Instruction := []
  deriving DecidableEq, Repr

namespace Block

/-- The block of some instructions: they are put in the order of their addresses, those with the
same address staying as they were, and the block reaches from the first address to the farthest end
of an instruction. Without instructions there is no block. -/
def ofInstructions? (instructions : List Instruction) : Option Block :=
  match instructions.mergeSort fun a b => a.address ≤ b.address with
  | [] => none
  | first :: rest => some {
      start := first.address
      stop := rest.foldl (fun stop i => max stop i.nextAddress) first.nextAddress
      instructions := first :: rest }

/-- The block with one more instruction at the end, its range extended to the end of that. A block
that covers nothing and holds nothing moves to the instruction first. -/
def push (block : Block) (instruction : Instruction) : Block where
  start :=
    if block.instructions.isEmpty ∧ block.start = block.stop then instruction.address
    else block.start
  stop := max block.stop instruction.nextAddress
  instructions := block.instructions ++ [instruction]

/-- How many addresses the range has; none if it ends before it starts. -/
def size? (block : Block) : Option UInt64 :=
  if block.start ≤ block.stop then some (block.stop - block.start) else none

/-- Whether an address lies in the range. -/
def contains (block : Block) (address : Address) : Bool :=
  block.start ≤ address && address < block.stop

/-- The address of the last instruction, or the start if there is none. -/
def lastAddress (block : Block) : Address :=
  (block.instructions.getLast?.map Instruction.address).getD block.start

/-- The instruction that starts at the given address. If several do it is the last one, where a search by halves
ends when the instructions are in the order of their addresses. -/
def instructionAt? (block : Block) (address : Address) : Option Instruction :=
  block.instructions.reverse.find? (·.address == address)

/-- How many instructions there are. -/
def length (block : Block) : Nat := block.instructions.length

end Block

end Disassembly.Flow
