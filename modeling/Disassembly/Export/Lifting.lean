import Disassembly.Expression.Store
import Disassembly.Export.Decoded

/-!
# Lifting decoded functions

Lifting turns a decoded function into a function over the nodes of a store: every draft of every
operand is stored, in reading order, and stands as an id in the lifted instruction. It ends at the
first draft that cannot be stored; what was stored before stays in the state, for the caller to take
back.
-/

namespace Disassembly.Export

open Disassembly.Expression Disassembly.Flow

/-- What lifting changes as it goes. -/
structure Lifting where
  /-- The nodes so far. -/
  store : Store
  /-- How many blocks without instructions were left out so far. -/
  emptyBlocks : Nat := 0

namespace Lifting

variable {α β : Type}

/-- Takes a step for each item of a list, in order, until one fails. The state is the one reached,
also after a failure. -/
def each (step : Lifting → α → Except Expression.Error β × Lifting) (s : Lifting) :
    List α → Except Expression.Error (List β) × Lifting
  | [] => (.ok [], s)
  | a :: as =>
    match step s a with
    | (.error error, s) => (.error error, s)
    | (.ok b, s) =>
      match each step s as with
      | (.error error, s) => (.error error, s)
      | (.ok bs, s) => (.ok (b :: bs), s)

/-- Stores the drafts of an operand. -/
def operand (s : Lifting) (drafts : List (Draft Nat)) : Except Expression.Error Operand × Lifting :=
  let (result, store) := s.store.internOperand drafts
  (result, { s with store })

/-- Lifts an instruction. -/
def instruction (s : Lifting) (decoded : DecodedInstruction) :
    Except Expression.Error Instruction × Lifting :=
  let (result, s) := s.each operand decoded.operands
  (result.map fun operands =>
    { address := decoded.address, size := decoded.size, mnemonic := decoded.mnemonic, operands }, s)

/-- Lifts a block. One without instructions is counted and left out. -/
def block (s : Lifting) (decoded : DecodedBlock) :
    Except Expression.Error (Option Block) × Lifting :=
  match s.each instruction decoded with
  | (.error error, s) => (.error error, s)
  | (.ok instructions, s) =>
    match Block.ofInstructions? instructions with
    | some block => (.ok (some block), s)
    | none => (.ok none, { s with emptyBlocks := s.emptyBlocks + 1 })

/-- Lifts a function. -/
def function (s : Lifting) (decoded : DecodedFunction) :
    Except Expression.Error Function × Lifting :=
  let (result, s) := s.each block decoded.blocks
  (result.map fun blocks =>
    { entry := decoded.entry
      blocks := blocks.filterMap id
      edges := decoded.edges
      name := decoded.name
      demangledName := decoded.demangledName
      moduleName := decoded.moduleName
      type := decoded.type.getD .unassigned
      libraryIndex := decoded.libraryIndex.getD (-1) }, s)

end Lifting

end Disassembly.Export
