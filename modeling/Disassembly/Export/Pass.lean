import Disassembly.Attribution
import Disassembly.Export.Lifting
import Disassembly.Export.Settings
import Disassembly.Flow.FunctionTable
import Disassembly.Flow.Loops

/-!
# Export passes

A pass takes decoded functions and references, one at a time and in any order, and ends in a
snapshot: the store of expression nodes, the table of finalized functions, and the attributed
references, with statistics. A function that cannot be lifted is refused, and the nodes stored for
it are taken back. Functions are finalized when asked for, and also before a reference is attributed
or the snapshot is taken if any was added since.
-/

namespace Disassembly.Export

open Disassembly.Expression Disassembly.Flow Disassembly.Text

/-- Why a function is refused. -/
inductive Error where
  /-- One of its operands cannot be stored. -/
  | expression (error : Expression.Error)
  /-- There is a function with its entry point already. -/
  | duplicateFunction (entry : Address)
  deriving DecidableEq, Repr

/-- The text of an error. -/
def Error.message : Error → String
  | expression error => "expression error: " ++ error.message
  | duplicateFunction entry => "duplicate function at " ++ markedHex entry.toNat

/-- A reference with the place in its source instruction that it was attributed to. -/
structure Attribution where
  /-- The address of the instruction. -/
  source : Address
  /-- The address that it refers to. -/
  target : Address
  /-- The place; none if there is no such instruction or no place in it fits. -/
  position : Option Position
  deriving DecidableEq, Repr

/-- What a pass has counted. -/
structure PassStats where
  /-- The statistics of the store at the end. -/
  store : StoreStats := {}
  /-- The outcome of the last finalization. -/
  finalize : FinalizeStats := {}
  /-- Blocks that were left out because they hold no instruction. -/
  emptyBlocks : Nat := 0
  /-- Back edges at the last finalization. -/
  backEdges : Nat := 0
  /-- References that were attributed. -/
  references : Nat := 0
  /-- Those of them for which no place was found. -/
  unresolved : Nat := 0
  deriving DecidableEq, Repr

/-- What a pass ends in. -/
structure Snapshot where
  /-- The nodes. -/
  store : Store
  /-- The functions. -/
  table : FunctionTable
  /-- The references, in the order in which they were attributed. -/
  attributions : Array Attribution
  /-- What was counted. -/
  stats : PassStats

/-- A pass under way. -/
structure Pass where
  /-- What it is asked to do. -/
  settings : Settings
  /-- The nodes so far. -/
  store : Store := {}
  /-- The functions so far. -/
  table : FunctionTable := {}
  /-- The references attributed so far. -/
  attributions : Array Attribution := #[]
  /-- What was counted so far. -/
  stats : PassStats := {}
  /-- Whether no function was added since the last finalization. -/
  finalized : Bool := false

namespace Pass

/-- The start of a pass that takes over a store, emptied first if the settings say so. -/
def onStore (settings : Settings) (store : Store) : Pass :=
  { settings, store := if settings.clearStore then store.clear else store }

/-- The start of a pass on an empty store. -/
def start (settings : Settings) : Pass := onStore settings {}

/-- Adds a function. One that is refused leaves no node behind, but the name of its module stays
interned, the empty blocks before the fault stay counted, and so do its requests to the store if none
of them added a node. -/
def add (pass : Pass) (decoded : DecodedFunction) : Except Error Unit × Pass :=
  if pass.table.contains decoded.entry then (.error (.duplicateFunction decoded.entry), pass)
  else
    let table := match decoded.moduleName with
      | none => pass.table
      | some name => (pass.table.internModule name).2
    let (result, lifting) := Lifting.function { store := pass.store } decoded
    let stats := { pass.stats with emptyBlocks := pass.stats.emptyBlocks + lifting.emptyBlocks }
    match result with
    | .error error =>
      (.error (.expression error),
        { pass with table, stats, store := lifting.store.rollback pass.store.checkpoint })
    | .ok f =>
      (.ok (), { pass with
        store := lifting.store, table := (table.insert f).2, stats, finalized := false })

/-- Brings all functions into their final form, assigns their types if the settings say so, and
counts back edges. -/
def finalize (pass : Pass) : FinalizeStats × Pass :=
  let (stats, table) := pass.table.finalize pass.settings.repairEdges
  let table := if pass.settings.classifyTypes then
    table.map fun f => { f with type := f.classify } else table
  let backEdges := (table.toList.map fun f => f.backEdges.length).foldr (· + ·) 0
  (stats, { pass with
    table, stats := { pass.stats with finalize := stats, backEdges }, finalized := true })

/-- The pass with its functions in final form, finalized now if they are not. -/
def ensureFinalized (pass : Pass) : Pass := if pass.finalized then pass else pass.finalize.2

/-- Finds the place in its source instruction that a reference is attributed to, and records it. -/
def locate (pass : Pass) (reference : Reference) : Option Position × Pass :=
  let pass := pass.ensureFinalized
  let position := (pass.table.instructionAt? reference.source).bind fun instruction =>
    instruction.locate? pass.store reference.target
  (position, { pass with
    attributions := pass.attributions.push ⟨reference.source, reference.target, position⟩
    stats := { pass.stats with
      references := pass.stats.references + 1
      unresolved := pass.stats.unresolved + if position.isNone then 1 else 0 } })

/-- The end of a pass. -/
def snapshot (pass : Pass) : Snapshot :=
  let pass := pass.ensureFinalized
  { store := pass.store
    table := pass.table
    attributions := pass.attributions
    stats := { pass.stats with store := pass.store.stats } }

/-- Adds functions until one is refused. -/
def addAll (pass : Pass) : List DecodedFunction → Except Error Pass
  | [] => .ok pass
  | decoded :: rest =>
    match pass.add decoded with
    | (.error error, _) => .error error
    | (.ok (), pass) => pass.addAll rest

/-- A whole pass: all functions, then all references. It fails with the first function that is
refused. -/
def run (settings : Settings) (functions : List DecodedFunction) (references : List Reference) :
    Except Error Snapshot := do
  let pass ← (start settings).addAll functions
  return (references.foldl (fun pass reference => (pass.locate reference).2)
    pass.finalize.2).snapshot

end Pass

end Disassembly.Export
