import Disassembly.Expression.Store
import Disassembly.Instruction

/-!
# Attributing a reference to an expression

A reference from an instruction names only the address it refers to. Four rules, in this order, find
the expression of the instruction that most plausibly produced it; each takes the first hit in
reading order and looks only at nodes that the store knows.

1. An immediate that equals the target.
2. A node directly under a memory access: the node itself if it is an immediate, else the place
   before it, where the access usually stands. That place is `-1` when the node opens its operand.
3. The start of the operand of an instruction that has only one.
4. Any immediate.
-/

namespace Disassembly

open Disassembly.Expression

/-- A place in an instruction. -/
structure Position where
  /-- Which operand, from 0. -/
  operand : Nat
  /-- Which expression of it, from 0; `-1` is the place before the first. -/
  expression : Int
  deriving DecidableEq, Repr

namespace Position

/-- The place of one expression earlier. -/
def before (position : Position) : Position :=
  { position with expression := position.expression - 1 }

/-- A coordinate in 32 bits; one that does not fit is written as the greatest that does. -/
def coordinate (n : Int) : Int32 :=
  if Int32.minValue.toInt ≤ n ∧ n ≤ Int32.maxValue.toInt then Int32.ofInt n else Int32.maxValue

/-- The exported form of an attribution; `(-1, -1)` stands for none. -/
def coordinates : Option Position → Int32 × Int32
  | none => (-1, -1)
  | some position => (coordinate position.operand, coordinate position.expression)

end Position

namespace Instruction

/-- The nodes of an instruction that the store knows, with their places, in reading order. -/
def placedNodes (instruction : Instruction) (store : Store) : List (Position × Node) :=
  instruction.operands.zipIdx.flatMap fun (operand, i) =>
    operand.zipIdx.filterMap fun (id, j) => (store.get? id).map fun node => (⟨i, j⟩, node)

/-- Rule 1: the first immediate that has the bits of the target. -/
def exactImmediate? (instruction : Instruction) (store : Store) (target : Address) :
    Option Position :=
  ((instruction.placedNodes store).find? fun (_, node) =>
    node.isImmediate && node.immediate.toUInt64 == target).map (·.1)

/-- Rule 2: the first node under a memory access, or the place before it if it is no immediate. -/
def underDereference? (instruction : Instruction) (store : Store) : Option Position :=
  ((instruction.placedNodes store).find? fun (_, node) =>
    (store.parent? node).any Node.isDereference).map fun (position, node) =>
      if node.isImmediate then position else position.before

/-- Rule 3: the start of the only operand. -/
def onlyOperand? (instruction : Instruction) : Option Position :=
  if instruction.operandCount = 1 then some ⟨0, 0⟩ else none

/-- Rule 4: the first immediate. -/
def firstImmediate? (instruction : Instruction) (store : Store) : Option Position :=
  ((instruction.placedNodes store).find? fun (_, node) => node.isImmediate).map (·.1)

/-- The place in the instruction that most plausibly refers to `target`. -/
def locate? (instruction : Instruction) (store : Store) (target : Address) : Option Position :=
  instruction.exactImmediate? store target <|> instruction.underDereference? store <|>
    instruction.onlyOperand? <|> instruction.firstImmediate? store

end Instruction

end Disassembly
