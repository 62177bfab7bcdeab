import Disassembly.Export.Settings
import Disassembly.Proofs.Flow.Edge

/-!
# The final form of a function

Finalization brings a function into a form (`Function.Final`) in which another finalization changes nothing
(`Function.Final.finalize_eq`). For sorting this is clear. For repaired edges it holds because an address is
looked up in the last block that does not start past it: the start of the block found is found in the same
block (`Function.Finds.start`), so that an edge that was moved stays where it is.
-/

namespace Disassembly

namespace Flow

namespace Function

variable {f : Function} {address : Address} {block : Block} {edge moved : Edge} {i : Nat} {repair : Bool}

theorem sorted_sortBlocks (f : Function) : f.sortBlocks.Sorted :=
  pairwise_mergeSort_address Block.start f.blocks

theorem Sorted.sortBlocks_eq (h : f.Sorted) : f.sortBlocks = f := by
  have hblocks : f.blocks.mergeSort (fun a b => decide (a.start ≤ b.start)) = f.blocks :=
    List.mergeSort_of_pairwise (h.imp fun hab => decide_eq_true hab)
  rw [sortBlocks, hblocks]

/-- The start of the block that is found lies in the same block. -/
theorem Finds.start (h : f.Finds address i) (hi : f.blocks[i]? = some block) : f.Finds block.start i := by
  obtain ⟨⟨found, hfound, hcontains⟩, hlast⟩ := h
  obtain rfl : block = found := by simpa [hi] using hfound
  simp only [Block.contains, Bool.and_eq_true, decide_eq_true_eq] at hcontains
  obtain ⟨hstart, hstop⟩ := hcontains
  refine ⟨⟨block, hi, ?_⟩, fun j other hj hle => hlast j other hj (UInt64.le_trans hle hstart)⟩
  simp only [Block.contains, Bool.and_eq_true, decide_eq_true_eq]
  exact ⟨UInt64.le_refl _, UInt64.lt_of_le_of_lt hstart hstop⟩

theorem Sorted.blockAt?_start (h : f.Sorted) (hblock : f.blockAt? address = some block) :
    f.blockAt? block.start = some block := by
  obtain ⟨i, hfound, hi⟩ := Option.bind_eq_some_iff.mp hblock
  rw [blockAt?, h.blockIndex?_eq_some_iff.mpr ((h.blockIndex?_eq_some_iff.mp hfound).start hi), Option.bind_some,
    hi]

/-- An edge that was moved stays where it is. -/
theorem Sorted.moveEdge?_moved (h : f.Sorted) (hmove : f.moveEdge? edge = some moved) :
    f.moveEdge? moved = some moved := by
  unfold moveEdge? at hmove
  obtain ⟨source, hsource, hmove⟩ := Option.bind_eq_some_iff.mp hmove
  obtain ⟨target, htarget, hmove⟩ := Option.bind_eq_some_iff.mp hmove
  cases hmove
  simp [moveEdge?, h.blockAt?_start hsource, h.blockAt?_start htarget]

/-- The form of a function after it was finalized, with or without repair of its edges. -/
structure Final (repair : Bool) (f : Function) : Prop where
  /-- Blocks are in the order of their starts. -/
  sorted : f.Sorted
  /-- Edges are in order. -/
  edges_sorted : f.edges.Pairwise fun a b => a.le b = true
  /-- Repaired edges run between the starts of blocks. -/
  moved : repair = true → ∀ edge ∈ f.edges, f.moveEdge? edge = some edge
  /-- Repaired edges are not repeated. -/
  distinct : repair = true → f.edges.IsChain (· ≠ ·)

theorem final_sortGraph (f : Function) : f.sortGraph.Final false where
  sorted := f.sorted_sortBlocks
  edges_sorted := Edge.pairwise_mergeSort f.edges
  moved h := by cases h
  distinct h := by cases h

/-- The edges of a repaired function are those that were moved, in order and each of them once. -/
theorem edges_repaired (f : Function) :
    f.repaired.edges = Edge.canonical (f.edges.filterMap f.sortBlocks.moveEdge?) := rfl

theorem final_repaired (f : Function) : f.repaired.Final true where
  sorted := f.sorted_sortBlocks
  edges_sorted := (Edge.pairwise_canonical _).imp Edge.Before.le
  moved _ edge hedge := by
    rw [edges_repaired, Edge.mem_canonical] at hedge
    obtain ⟨raw, -, hraw⟩ := List.mem_filterMap.mp hedge
    exact f.sorted_sortBlocks.moveEdge?_moved hraw
  distinct _ := (Edge.pairwise_canonical _).isChain.imp fun _ _ => Edge.Before.ne

theorem final_finalize (f : Function) (repair : Bool) : (f.finalize repair).1.Final repair := by
  cases repair with
  | false => exact f.final_sortGraph
  | true => exact f.sortGraph.final_repaired

theorem Final.sortGraph_eq (h : f.Final repair) : f.sortGraph = f := by
  unfold sortGraph
  rw [h.sorted.sortBlocks_eq, List.mergeSort_of_pairwise h.edges_sorted]

theorem Final.repaired_eq (h : f.Final true) : f.repaired = f := by
  have hmoved : f.edges.filterMap f.moveEdge? = f.edges := by
    rw [List.filterMap_congr (g := some) (h.moved rfl), List.filterMap_some]
  simp only [repaired, h.sorted.sortBlocks_eq, hmoved, List.mergeSort_of_pairwise h.edges_sorted,
    eraseReps_eq_destutter, List.destutter_of_isChain _ _ (h.distinct rfl)]

/-- Repaired edges stay as they are. -/
theorem Final.repairEdges_eq (h : f.Final true) : f.repairEdges = (f, 0) := by
  rw [repairEdges, h.repaired_eq, Nat.sub_self]

/-- A function in its final form is not changed by finalization, and loses no edge. -/
theorem Final.finalize_eq (h : f.Final repair) : f.finalize repair = (f, 0) := by
  cases repair with
  | false => rw [finalize, if_neg Bool.false_ne_true, h.sortGraph_eq]
  | true => rw [finalize, if_pos rfl, h.sortGraph_eq, h.repairEdges_eq]

@[simp] theorem entry_finalize (f : Function) (repair : Bool) : (f.finalize repair).1.entry = f.entry := by
  cases repair <;> rfl

/-- Finalization sorts the blocks. -/
theorem blocks_finalize (f : Function) (repair : Bool) :
    (f.finalize repair).1.blocks = f.blocks.mergeSort fun a b => a.start ≤ b.start := by
  cases repair with
  | false => rfl
  | true => exact congrArg blocks f.sorted_sortBlocks.sortBlocks_eq

/-- It neither adds nor drops any. -/
theorem mem_blocks_finalize : block ∈ (f.finalize repair).1.blocks ↔ block ∈ f.blocks := by
  rw [blocks_finalize]
  exact List.mem_mergeSort

end Function

end Flow

namespace Export.Settings

open Disassembly.Flow

/-- What becomes of a function when a pass with these settings is finalized. -/
def final (settings : Settings) (f : Function) : Function :=
  let f := (f.finalize settings.repairEdges).1
  if settings.classifyTypes then { f with type := f.classify } else f

variable (settings : Settings) (f : Function)

@[simp] theorem blocks_final : (settings.final f).blocks = f.blocks.mergeSort fun a b => a.start ≤ b.start := by
  rw [← f.blocks_finalize settings.repairEdges]
  unfold final
  split <;> rfl

/-- To finalize again changes nothing. -/
theorem final_final : settings.final (settings.final f) = settings.final f := by
  unfold final
  split
  · have hfinal : Function.Final settings.repairEdges
        { (f.finalize settings.repairEdges).1 with type := (f.finalize settings.repairEdges).1.classify } :=
      { f.final_finalize settings.repairEdges with }
    rw [hfinal.finalize_eq]
    rfl
  · rw [(f.final_finalize settings.repairEdges).finalize_eq]

end Export.Settings

end Disassembly
