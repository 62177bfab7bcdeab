import Disassembly.Address
import Disassembly.Expression.Draft

/-!
# Instructions

A decoded instruction whose operands are lists of ids of expression nodes, in decoder order: parents
before children.
-/

namespace Disassembly

open Disassembly.Expression

/-- The nodes of one operand, in decoder order. -/
abbrev Operand := List NodeId

/-- A decoded instruction. -/
structure Instruction where
  /-- The address of its first byte. -/
  address : Address
  /-- How many bytes it takes. -/
  size : UInt8
  /-- What it does. -/
  mnemonic : String := ""
  /-- What it does it to. -/
  operands : List Operand := []
  deriving DecidableEq, Repr

namespace Instruction

/-- The instruction with one more operand at the end. -/
def pushOperand (instruction : Instruction) (operand : Operand) : Instruction :=
  { instruction with operands := instruction.operands ++ [operand] }

/-- How many operands there are. -/
def operandCount (instruction : Instruction) : Nat := instruction.operands.length

/-- The address of the following instruction, or the last address there is. -/
def nextAddress (instruction : Instruction) : Address :=
  Address.advance instruction.address instruction.size

end Instruction

end Disassembly
