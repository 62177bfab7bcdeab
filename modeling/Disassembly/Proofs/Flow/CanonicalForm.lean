import Disassembly.Proofs.Flow.Repair

/-!
# One form for all orders of insertion

Finalization forgets in which order blocks and edges were added to a function, as long as no two blocks start at the
same address (`Function.finalize_canonical`): it sees no more of them than what sorting leaves
(`Function.sortGraph_eq_of_perm`). Of edges nothing else is needed, since they are ordered by all that they are made
of. Repair sorts for itself whatever it needs to be sorted, so that it makes no difference whether the graph is sorted
before (`Function.repairEdges_sortGraph`).
-/

namespace Disassembly.Flow.Function

variable {f g : Function} {blocks more : List Block} {edges others : List Edge} {repair again : Bool}

/-! ### Orders of insertion -/

/-- Blocks with distinct starts come in one order only when they are sorted. -/
theorem mergeSort_blocks_eq_of_perm (hdistinct : (more.map Block.start).Nodup) (h : blocks.Perm more) :
    (blocks.mergeSort fun a b => a.start ≤ b.start) = more.mergeSort fun a b => a.start ≤ b.start := by
  have hperm : (blocks.mergeSort fun a b => a.start ≤ b.start).Perm (more.mergeSort fun a b => a.start ≤ b.start) :=
    (List.mergeSort_perm blocks _).trans (h.trans (List.mergeSort_perm more _).symm)
  refine hperm.eq_of_pairwise (fun a b ha hb hab hba => ?_) (pairwise_mergeSort_address Block.start blocks)
    (pairwise_mergeSort_address Block.start more)
  have ha' : a ∈ more := h.mem_iff.mp (List.mem_mergeSort.mp ha)
  exact List.inj_on_of_nodup_map hdistinct ha' (List.mem_mergeSort.mp hb) (UInt64.le_antisymm hab hba)

theorem sortGraph_eq_of_perm (hdistinct : (f.blocks.map Block.start).Nodup) (hblocks : blocks.Perm f.blocks)
    (hedges : edges.Perm f.edges) : sortGraph { f with blocks, edges } = f.sortGraph := by
  simp only [sortGraph, sortBlocks, mergeSort_blocks_eq_of_perm hdistinct hblocks, Edge.mergeSort_eq_of_perm hedges]

/-- Finalization looks at the sorted graph only. -/
theorem finalize_congr (h : f.sortGraph = g.sortGraph) : f.finalize repair = g.finalize repair := by
  simp only [finalize, h]

/-! ### Repair of a graph that is not sorted -/

theorem blocks_sortBlocks_sortGraph (f : Function) : f.sortGraph.sortBlocks.blocks = f.sortBlocks.blocks := by
  show f.sortBlocks.sortBlocks.blocks = f.sortBlocks.blocks
  rw [f.sorted_sortBlocks.sortBlocks_eq]

/-- The same edges are left, whether or not blocks and edges were sorted before. -/
theorem edges_repaired_sortGraph (f : Function) : f.sortGraph.repaired.edges = f.repaired.edges := by
  rw [edges_repaired, edges_repaired]
  refine Edge.canonical_congr fun moved => ?_
  have hsorted {edge : Edge} : edge ∈ f.sortGraph.edges ↔ edge ∈ f.edges := List.mem_mergeSort
  simp only [List.mem_filterMap, moveEdge?_eq_some_iff, hsorted, moves_congr f.blocks_sortBlocks_sortGraph]

theorem repairEdges_sortGraph (f : Function) : f.sortGraph.repairEdges = f.repairEdges := by
  have hrepaired : f.sortGraph.repaired = f.repaired := by
    show { f with blocks := f.sortGraph.sortBlocks.blocks, edges := f.sortGraph.repaired.edges } = f.repaired
    rw [blocks_sortBlocks_sortGraph, edges_repaired_sortGraph]
    rfl
  have hlength : f.sortGraph.edges.length = f.edges.length := List.length_mergeSort _
  rw [repairEdges, repairEdges, hrepaired, hlength]

/-! ### The form -/

/-- What is final with repaired edges is final without. -/
theorem Final.of_le (h : f.Final repair) (hle : again = true → repair = true) : f.Final again where
  sorted := h.sorted
  edges_sorted := h.edges_sorted
  moved hagain := h.moved (hle hagain)
  distinct hagain := h.distinct (hle hagain)

/-- A function with blocks at distinct addresses is finalized to the same form in whatever order its blocks and edges
were added, and with the same number of edges dropped. To finalize it again, with repair only if its edges have been
repaired, changes nothing. Repair alone does what finalization with repair does. -/
theorem finalize_canonical (f : Function) (repair : Bool) :
    (∀ (blocks : List Block) (edges : List Edge), (f.blocks.map Block.start).Nodup → blocks.Perm f.blocks →
        edges.Perm f.edges → finalize { f with blocks, edges } repair = f.finalize repair) ∧
      (∀ again : Bool, (again = true → repair = true) →
        (f.finalize repair).1.finalize again = ((f.finalize repair).1, 0)) ∧
      f.repairEdges = f.finalize true := by
  refine ⟨?_, ?_, ?_⟩
  · intro blocks edges hdistinct hblocks hedges
    exact finalize_congr (sortGraph_eq_of_perm hdistinct hblocks hedges)
  · intro again hle
    exact ((f.final_finalize repair).of_le hle).finalize_eq
  · exact f.repairEdges_sortGraph.symm

/-- Two blocks and two edges, the later ones first. One edge runs from the middle of a block to the middle of the
other, which is where the other edge leads once it is moved. -/
def backwards : Function where
  entry := 0x100
  blocks := [{ start := 0x110, stop := 0x120 }, { start := 0x100, stop := 0x110 }]
  edges := [⟨0x10c, 0x118, .whenTrue⟩, ⟨0x100, 0x110, .whenTrue⟩]

theorem finalize_canonical_backwards :
    (backwards.blocks.map Block.start).Nodup ∧ backwards.blocks.reverse.Perm backwards.blocks ∧
      finalize { backwards with blocks := backwards.blocks.reverse, edges := backwards.edges.reverse } true =
        backwards.finalize true :=
  ⟨by decide, List.reverse_perm _,
    (finalize_canonical backwards true).1 _ _ (by decide) (List.reverse_perm _) (List.reverse_perm _)⟩

end Disassembly.Flow.Function
