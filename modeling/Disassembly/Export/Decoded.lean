import Disassembly.Expression.Draft
import Disassembly.Flow.Function

/-!
# Decoded functions

What a disassembler delivers: functions whose operands are lists of drafts of expression nodes, in
which a draft names its parent by its place in the same operand.
-/

namespace Disassembly.Export

open Disassembly.Expression Disassembly.Flow

/-- An instruction as decoded. -/
structure DecodedInstruction where
  /-- The address of its first byte. -/
  address : Address
  /-- How many bytes it takes. -/
  size : UInt8
  /-- What it does. -/
  mnemonic : String := ""
  /-- The drafts of its operands, parents before children. -/
  operands : List (List (Draft Nat)) := []
  deriving DecidableEq, Repr

/-- The instructions of a block, as decoded. -/
abbrev DecodedBlock := List DecodedInstruction

/-- A function as decoded. -/
structure DecodedFunction where
  /-- The address at which it is entered. -/
  entry : Address
  /-- Its name as the linker knows it; empty if it has none. -/
  name : String := ""
  /-- Its name as the programmer knows it; empty if it has none. -/
  demangledName : String := ""
  /-- The module that it belongs to, if known. -/
  moduleName : Option String := none
  /-- Its type, if known. -/
  type : Option FunctionType := none
  /-- The library that it belongs to, if known. -/
  libraryIndex : Option Int32 := none
  /-- Its blocks. -/
  blocks : List DecodedBlock := []
  /-- Its edges; a source may be any address of the block that it leaves. -/
  edges : List Edge := []
  deriving DecidableEq, Repr

/-- A reference from an instruction to an address. -/
structure Reference where
  /-- The address of the instruction. -/
  source : Address
  /-- The address that it refers to. -/
  target : Address
  deriving DecidableEq, Repr

end Disassembly.Export
