import Disassembly.Proofs.Flow.Totals

/-!
# Repaired edges

What repair makes of a function (`Function.IsRepair`): its blocks come in the order of their starts, blocks with one
start staying as they were, and its edges are those that one gets by moving every edge whose endpoints are found to
the starts of the blocks, each once and in order. Blocks may overlap, be empty or have a start in common. To repair
once more changes nothing (`Function.isRepair_repairEdges`).
-/

namespace Disassembly.Flow

namespace Function

variable {f g : Function} {edge moved : Edge}

/-- The second edge is the first one, moved to the starts of the blocks that its endpoints are found in. -/
def Moves (f : Function) (edge moved : Edge) : Prop :=
  ∃ source target, f.blockAt? edge.source = some source ∧ f.blockAt? edge.target = some target ∧
    moved = ⟨source.start, target.start, edge.kind⟩

theorem moveEdge?_eq_some_iff : f.moveEdge? edge = some moved ↔ f.Moves edge moved := by
  simp only [moveEdge?, Option.bind_eq_bind, Option.bind_eq_some_iff, Option.pure_def, Option.some.injEq, Moves]
  constructor
  · rintro ⟨source, hsource, target, htarget, rfl⟩
    exact ⟨source, target, hsource, htarget, rfl⟩
  · rintro ⟨source, target, hsource, htarget, rfl⟩
    exact ⟨source, hsource, target, htarget, rfl⟩

/-- Where an edge is moved to is told by the blocks. -/
theorem moves_congr (h : g.blocks = f.blocks) : g.Moves edge moved ↔ f.Moves edge moved := by
  simp only [Moves, blockAt?, blockIndex?, h]

/-- The edges of a repaired function are those that were moved. -/
theorem mem_edges_repaired : moved ∈ f.repaired.edges ↔ ∃ edge ∈ f.edges, f.sortBlocks.Moves edge moved := by
  simp only [edges_repaired, Edge.mem_canonical, List.mem_filterMap, moveEdge?_eq_some_iff]

theorem mem_of_blockAt? {address : Address} {block : Block} (h : f.blockAt? address = some block) :
    block ∈ f.blocks := by
  obtain ⟨i, -, hi⟩ := Option.bind_eq_some_iff.mp h
  exact List.mem_of_getElem? hi

/-- `g` is what repair makes of `f`, with `dropped` edges fewer. -/
structure IsRepair (f g : Function) (dropped : Nat) : Prop where
  /-- The blocks are the same. -/
  blocks_perm : g.blocks.Perm f.blocks
  /-- They are in the order of their starts. -/
  sorted : g.Sorted
  /-- Those with one start are in the order in which they were before. -/
  stable (start : Address) : g.blocks.filter (fun block => block.start = start) =
    f.blocks.filter fun block => block.start = start
  /-- The edges are in order and none is repeated. -/
  edges_pairwise : g.edges.Pairwise Edge.Before
  /-- They are the edges of before, moved, as far as their endpoints are found. -/
  mem_edges_iff (moved : Edge) : moved ∈ g.edges ↔ ∃ edge ∈ f.edges, g.Moves edge moved
  /-- They run between starts of blocks. -/
  starts (edge : Edge) : edge ∈ g.edges →
    (∃ block ∈ f.blocks, block.start = edge.source) ∧ ∃ block ∈ f.blocks, block.start = edge.target
  /-- Those that are left and those that were dropped are as many as there were before. -/
  count : g.edges.length + dropped = f.edges.length
  /-- Nothing else is changed. -/
  rest : g = { f with blocks := g.blocks, edges := g.edges }

/-- Repair does what it should to every function, and a second repair changes nothing and drops no edge. -/
theorem isRepair_repairEdges (f : Function) :
    f.IsRepair f.repairEdges.1 f.repairEdges.2 ∧ f.repairEdges.1.repairEdges = (f.repairEdges.1, 0) := by
  have hperm : f.repairEdges.1.blocks.Perm f.blocks := List.mergeSort_perm _ _
  refine ⟨?_, f.final_repaired.repairEdges_eq⟩
  refine
    { blocks_perm := hperm
      sorted := f.sorted_sortBlocks
      stable := fun start => filter_mergeSort_address Block.start f.blocks start
      edges_pairwise := Edge.pairwise_canonical _
      mem_edges_iff := fun moved => mem_edges_repaired
      starts := ?_
      count := Nat.add_sub_cancel' f.length_edges_repaired_le
      rest := rfl }
  intro moved hmoved
  obtain ⟨edge, -, source, target, hsource, htarget, rfl⟩ := mem_edges_repaired.mp hmoved
  exact ⟨⟨source, hperm.mem_iff.mp (mem_of_blockAt? hsource), rfl⟩,
    ⟨target, hperm.mem_iff.mp (mem_of_blockAt? htarget), rfl⟩⟩

end Function

end Disassembly.Flow
