import Std.Data.ExtTreeMap
import Disassembly.Flow.AddressIndex
import Disassembly.Flow.Function
import Disassembly.Text.Pool

/-!
# The function table

The functions of a program, each filed under its entry point, with the names of their modules and an
index from addresses to functions. Finalizing brings every function into its final form and builds
the index anew; look-ups by address use the index of the last time, which changes made since do not
touch.
-/

namespace Disassembly.Flow

open Disassembly.Text

/-- What a finalization has found. -/
structure FinalizeStats where
  /-- How many functions there are. -/
  functions : Nat := 0
  /-- How many blocks they have. -/
  basicBlocks : Nat := 0
  /-- How many edges they have afterwards. -/
  edges : Nat := 0
  /-- How many edges were dropped. -/
  edgesDropped : Nat := 0
  deriving DecidableEq, Repr

/-- The functions of a program. -/
structure FunctionTable where
  /-- Each function under its entry point. -/
  functions : Std.ExtTreeMap Address Function := ∅
  /-- The names of modules that were interned. -/
  modules : Pool := {}
  /-- Which function the addresses belonged to at the last finalization. -/
  index : AddressIndex := {}
  /-- A function is filed under no other address than its entry point. To overwrite a filed function as a whole with
  one of another entry point is left out; no other change of a function touches its entry point. -/
  entry_eq : ∀ {entry : Address} {f : Function}, functions[entry]? = some f → f.entry = entry := by
    simp

namespace FunctionTable

/-! ### Looking up -/

/-- The functions in the order of their entry points. -/
def toList (table : FunctionTable) : List Function := table.functions.values

/-- How many functions there are. -/
def size (table : FunctionTable) : Nat := table.functions.size

/-- Whether there is no function. -/
def isEmpty (table : FunctionTable) : Bool := table.functions.isEmpty

/-- Whether there is a function with the given entry point. -/
def contains (table : FunctionTable) (entry : Address) : Bool := table.functions.contains entry

/-- The function with the given entry point. -/
def get? (table : FunctionTable) (entry : Address) : Option Function := table.functions[entry]?

/-- The function with the greatest block that contained an address at the last finalization, blocks
being ordered by start, then by end, then by entry point. -/
def functionContaining? (table : FunctionTable) (address : Address) : Option Function :=
  (table.index.owner? address).bind table.get?

/-- The instruction that starts at an address, in the function that contains it. -/
def instructionAt? (table : FunctionTable) (address : Address) : Option Instruction :=
  (table.functionContaining? address).bind fun f => f.instructionAt? address

/-! ### Changing -/

/-- The table with a function, and the function that it replaces. -/
def insert (table : FunctionTable) (f : Function) : Option Function × FunctionTable :=
  (table.get? f.entry,
    { table with
      functions := table.functions.insert f.entry f
      entry_eq := by
        intro entry g h
        rw [Std.ExtTreeMap.getElem?_insert] at h
        split at h
        · simp_all
        · exact table.entry_eq h })

/-- The table without the function of an entry point, and that function. -/
def remove (table : FunctionTable) (entry : Address) : Option Function × FunctionTable :=
  (table.get? entry,
    { table with
      functions := table.functions.erase entry
      entry_eq := by
        intro entry' g h
        rw [Std.ExtTreeMap.getElem?_erase] at h
        split at h
        · simp at h
        · exact table.entry_eq h })

/-- The table with every function changed. That a change overwrites a function as a whole with one of another entry
point is left out, which is why the entry point is put in again. -/
def map (table : FunctionTable) (change : Function → Function) : FunctionTable :=
  { table with
    functions := table.functions.map fun entry f => { change f with entry }
    entry_eq := by
      intro entry g h
      simp only [Std.ExtTreeMap.getElem?_map, Option.map_eq_some_iff] at h
      obtain ⟨f, _, rfl⟩ := h
      rfl }

/-- The table with the function of one entry point changed, if there is one. As in `map`, it is not overwritten with
one of another entry point. -/
def update (table : FunctionTable) (entry : Address) (change : Function → Function) :
    FunctionTable :=
  match table.get? entry with
  | none => table
  | some f => (table.insert { change f with entry }).2

/-- The shared copy of the name of a module. -/
def internModule (table : FunctionTable) (name : String) : Handle × FunctionTable :=
  let (handle, modules) := table.modules.intern name
  (handle, { table with modules })

/-! ### What the changes do to look-ups -/

theorem get?_insert (table : FunctionTable) (f : Function) (entry : Address) :
    (table.insert f).2.get? entry = if f.entry = entry then some f else table.get? entry := by
  simp [insert, get?, Std.ExtTreeMap.getElem?_insert]

theorem get?_remove (table : FunctionTable) (entry other : Address) :
    (table.remove entry).2.get? other = if entry = other then none else table.get? other := by
  simp [remove, get?, Std.ExtTreeMap.getElem?_erase]

theorem get?_map (table : FunctionTable) (change : Function → Function) (entry : Address) :
    (table.map change).get? entry = (table.get? entry).map fun f => { change f with entry } := by
  simp [map, get?]

theorem get?_update (table : FunctionTable) (entry other : Address)
    (change : Function → Function) :
    (table.update entry change).get? other =
      if entry = other then (table.get? entry).map fun f => { change f with entry }
      else table.get? other := by
  cases h : table.get? entry with
  | none =>
    simp only [update, h, Option.map_none]
    split
    · simp_all
    · rfl
  | some f => simp [update, h, get?_insert]

/-! ### Finalizing -/

/-- The ranges of all blocks with their functions. -/
def spans (table : FunctionTable) : List Span :=
  table.toList.flatMap fun f => f.blocks.map fun block => ⟨block.start, block.stop, f.entry⟩

/-- How many edges the functions have. -/
def edgeCount (table : FunctionTable) : Nat :=
  (table.toList.map fun f => f.edges.length).foldr (· + ·) 0

/-- Brings every function into its final form, with repaired edges if `repair` is set, and builds the
index of addresses anew. The functions do not depend on each other here, so that they may be worked
on in any order. A final form has the entry point that the function had; it is put in again as in `map`. -/
def finalize (table : FunctionTable) (repair : Bool) : FinalizeStats × FunctionTable :=
  let results := table.functions.map fun _ f => f.finalize repair
  let final : FunctionTable :=
    { table with
      functions := results.map fun entry result => { result.1 with entry }
      entry_eq := by
        intro entry g h
        simp only [results, Std.ExtTreeMap.getElem?_map, Option.map_eq_some_iff] at h
        obtain ⟨_, _, rfl⟩ := h
        rfl }
  let index := AddressIndex.ofSpans final.spans
  ({ functions := final.size
     basicBlocks := index.size
     edges := final.edgeCount
     edgesDropped := (results.values.map Prod.snd).foldr (· + ·) 0 },
    { final with index })

end FunctionTable

end Disassembly.Flow
