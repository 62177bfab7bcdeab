import Disassembly.Flow.FunctionTable
import Disassembly.Flow.Loops

/-!
# Renaming nodes in functions

A function can be carried to another store by renaming the ids in its operands. Nothing that is done to a
function looks at these ids, so that renaming commutes with sorting, repair, classification and all look-ups
(`Function.finalize_rename`, `Function.instructionAt?_rename`, `Function.backEdges_rename`). Tables whose
functions differ by a renaming therefore finalize with the same outcome and differ by it afterwards
(`FunctionTable.Renames.finalize`).
-/

namespace Disassembly

open Disassembly.Expression

/-- The instruction with every id of its operands renamed. -/
def Instruction.rename (σ : NodeId → NodeId) (i : Instruction) : Instruction :=
  { i with operands := i.operands.map (List.map σ) }

@[simp] theorem Instruction.rename_id : Instruction.rename id = id := by
  funext i
  simp [Instruction.rename]

namespace Flow

variable {σ : NodeId → NodeId} {address : Address}

/-- The block with every id of its instructions renamed. -/
def Block.rename (σ : NodeId → NodeId) (block : Block) : Block :=
  { block with instructions := block.instructions.map (Instruction.rename σ) }

/-- The function with every id of its instructions renamed. -/
def Function.rename (σ : NodeId → NodeId) (f : Function) : Function :=
  { f with blocks := f.blocks.map (Block.rename σ) }

/-! ### Blocks -/

namespace Block

@[simp] theorem rename_id : rename id = id := by
  funext block
  simp [rename]

theorem ofInstructions?_rename (σ : NodeId → NodeId) (instructions : List Instruction) :
    ofInstructions? (instructions.map (Instruction.rename σ)) =
      (ofInstructions? instructions).map (rename σ) := by
  unfold ofInstructions?
  rw [← List.map_mergeSort (r := fun a b => decide (a.address ≤ b.address)) fun _ _ _ _ => rfl]
  cases instructions.mergeSort fun a b => a.address ≤ b.address with
  | nil => rfl
  | cons first rest =>
    rw [List.map_cons]
    simp only [Option.map_some, rename, List.foldl_map, List.map_cons]
    rfl

theorem instructionAt?_rename (block : Block) :
    (block.rename σ).instructionAt? address = (block.instructionAt? address).map (Instruction.rename σ) := by
  unfold instructionAt?
  rw [rename, ← List.map_reverse]
  exact List.find?_map

end Block

/-! ### Functions -/

namespace Function

@[simp] theorem rename_id : rename id = id := by
  funext f
  simp [rename]

theorem sortBlocks_rename (f : Function) : (f.rename σ).sortBlocks = f.sortBlocks.rename σ := by
  have hsort := List.map_mergeSort (r := fun a b : Block => decide (a.start ≤ b.start))
    (s := fun a b => decide (a.start ≤ b.start)) (f := Block.rename σ) (l := f.blocks) fun _ _ _ _ => rfl
  simp only [sortBlocks, rename, hsort]

theorem blockIndex?_rename (f : Function) : (f.rename σ).blockIndex? address = f.blockIndex? address := by
  unfold blockIndex?
  simp only [rename, List.takeWhile_map, List.length_map, List.getElem?_map, Option.any_map]
  rfl

theorem blockAt?_rename (f : Function) :
    (f.rename σ).blockAt? address = (f.blockAt? address).map (Block.rename σ) := by
  simp only [blockAt?, blockIndex?_rename]
  cases f.blockIndex? address with
  | none => rfl
  | some i => exact List.getElem?_map

theorem instructionAt?_rename (f : Function) :
    (f.rename σ).instructionAt? address = (f.instructionAt? address).map (Instruction.rename σ) := by
  simp only [instructionAt?, blockAt?_rename]
  cases f.blockAt? address with
  | none => rfl
  | some block => exact block.instructionAt?_rename

theorem moveEdge?_rename (f : Function) : (f.rename σ).moveEdge? = f.moveEdge? := by
  funext edge
  simp only [moveEdge?, blockAt?_rename]
  cases f.blockAt? edge.source with
  | none => rfl
  | some source =>
    cases f.blockAt? edge.target with
    | none => rfl
    | some target => rfl

theorem repaired_rename (f : Function) : (f.rename σ).repaired = f.repaired.rename σ := by
  simp only [repaired, sortBlocks_rename, moveEdge?_rename]
  rfl

theorem sortGraph_rename (f : Function) : (f.rename σ).sortGraph = f.sortGraph.rename σ := by
  simp only [sortGraph, sortBlocks_rename]
  rfl

theorem finalize_rename (f : Function) (repair : Bool) :
    (f.rename σ).finalize repair = ((f.finalize repair).1.rename σ, (f.finalize repair).2) := by
  cases repair with
  | false => exact Prod.ext f.sortGraph_rename rfl
  | true =>
    simp only [finalize, if_true, sortGraph_rename, repairEdges, repaired_rename]
    rfl

theorem classify_rename (f : Function) : (f.rename σ).classify = f.classify := by
  unfold classify
  simp only [rename, List.isEmpty_map]

theorem blockEdge?_rename (f : Function) : (f.rename σ).blockEdge? = f.blockEdge? := by
  funext edge
  simp only [blockEdge?, blockIndex?_rename]

theorem blockGraph_rename (f : Function) : (f.rename σ).blockGraph = f.blockGraph := by
  unfold blockGraph
  rw [blockEdge?_rename]
  simp only [rename, List.length_map]

theorem backEdges_rename (f : Function) : (f.rename σ).backEdges = f.backEdges := by
  unfold backEdges
  rw [blockEdge?_rename, blockGraph_rename, blockIndex?_rename]
  rfl

end Function

/-! ### Tables -/

/-- The values of a map are those listed with its keys. -/
theorem values_eq_map_toList {α β : Type} {cmp : α → α → Ordering} [Std.TransCmp cmp]
    (m : Std.ExtTreeMap α β cmp) : m.values = m.toList.map Prod.snd := by
  show m.foldr (fun _ value values => value :: values) [] = _
  rw [Std.ExtTreeMap.foldr_eq_foldr_toList]
  induction m.toList with
  | nil => rfl
  | cons entry entries ih =>
    rw [List.foldr_cons, ih]
    rfl

theorem values_map {α β γ : Type} {cmp : α → α → Ordering} [Std.TransCmp cmp] (m : Std.ExtTreeMap α β cmp)
    (f : β → γ) : (m.map fun _ => f).values = m.values.map f := by
  rw [values_eq_map_toList, values_eq_map_toList, Std.ExtTreeMap.toList_map, List.map_map, List.map_map]
  rfl

namespace FunctionTable

/-- The functions of the second table are those of the first, renamed, and addresses belong to the same
functions. What the modules are called does not matter. -/
structure Renames (σ : NodeId → NodeId) (s t : FunctionTable) : Prop where
  /-- The functions are the same but for the names of nodes. -/
  functions_eq : t.functions = s.functions.map fun _ f => f.rename σ
  /-- The indices are the same. -/
  index_eq : t.index = s.index

namespace Renames

variable {s t : FunctionTable} (h : Renames σ s t)

include h

theorem get?_eq (entry : Address) : t.get? entry = (s.get? entry).map (Function.rename σ) := by
  rw [get?, get?, h.functions_eq, Std.ExtTreeMap.getElem?_map]

theorem contains_eq (entry : Address) : t.contains entry = s.contains entry := by
  rw [contains, contains, h.functions_eq, Std.ExtTreeMap.contains_map]

theorem toList_eq : t.toList = s.toList.map (Function.rename σ) := by
  rw [toList, toList, h.functions_eq, values_map]

theorem instructionAt?_eq (address : Address) :
    t.instructionAt? address = (s.instructionAt? address).map (Instruction.rename σ) := by
  simp only [instructionAt?, functionContaining?, h.index_eq]
  cases s.index.owner? address with
  | none => rfl
  | some entry =>
    rw [Option.bind_some, Option.bind_some, h.get?_eq]
    cases s.get? entry with
    | none => rfl
    | some f => exact f.instructionAt?_rename

/-- A change to functions that does not look at the names of nodes. -/
theorem map {change : Function → Function}
    (hchange : ∀ f, change (f.rename σ) = (change f).rename σ) : Renames σ (s.map change) (t.map change) where
  functions_eq := by
    simp only [FunctionTable.map, h.functions_eq, Std.ExtTreeMap.map_map, hchange]
    rfl
  index_eq := h.index_eq

theorem backEdges_eq :
    t.toList.map (fun f => f.backEdges.length) = s.toList.map fun f => f.backEdges.length := by
  rw [h.toList_eq, List.map_map]
  exact List.map_congr_left fun f _ => by rw [Function.comp_apply, Function.backEdges_rename]

theorem spans_eq : t.spans = s.spans := by
  simp only [spans, h.toList_eq, List.flatMap_map, Function.rename, List.map_map]
  rfl

theorem edgeCount_eq : t.edgeCount = s.edgeCount := by
  rw [edgeCount, edgeCount, h.toList_eq, List.map_map]
  rfl

/-- Finalization has the same outcome. -/
theorem finalize (repair : Bool) :
    (t.finalize repair).1 = (s.finalize repair).1 ∧ Renames σ (s.finalize repair).2 (t.finalize repair).2 := by
  have hresults : t.functions.map (fun _ f => f.finalize repair) =
      (s.functions.map fun _ f => f.finalize repair).map fun _ result => (result.1.rename σ, result.2) := by
    rw [h.functions_eq, Std.ExtTreeMap.map_map, Std.ExtTreeMap.map_map]
    simp only [Function.finalize_rename]
  have hfunctions : (t.finalize repair).2.functions =
      (s.finalize repair).2.functions.map fun _ f => f.rename σ := by
    simp only [FunctionTable.finalize, hresults, Std.ExtTreeMap.map_map]
    rfl
  -- The index does not count among what spans and edges are read off.
  have hrenames : Renames σ (s.finalize repair).2 { (t.finalize repair).2 with index := (s.finalize repair).2.index } :=
    ⟨hfunctions, rfl⟩
  have hindex : (t.finalize repair).2.index = (s.finalize repair).2.index :=
    congrArg AddressIndex.ofSpans hrenames.spans_eq
  have hdropped : (t.functions.map fun _ f => f.finalize repair).values.map Prod.snd =
      (s.functions.map fun _ f => f.finalize repair).values.map Prod.snd := by
    rw [hresults, values_map, List.map_map]
    rfl
  refine ⟨?_, hfunctions, hindex⟩
  have hsize : (t.finalize repair).1.functions = (s.finalize repair).1.functions := by
    show (t.finalize repair).2.functions.size = (s.finalize repair).2.functions.size
    rw [hfunctions, Std.ExtTreeMap.size_map]
  exact FinalizeStats.mk.injEq .. ▸ ⟨hsize, congrArg AddressIndex.size hindex, hrenames.edgeCount_eq,
    congrArg (List.foldr (· + ·) 0) hdropped⟩

end Renames

end FunctionTable

end Flow

end Disassembly
