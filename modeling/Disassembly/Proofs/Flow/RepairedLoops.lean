import Disassembly.Proofs.Flow.Loops
import Disassembly.Proofs.Flow.Repair

/-!
# Loops after repair

Repair keeps the loops of a function whose blocks are sorted: its back edges are those from before, moved
(`Function.backEdges_repairEdges`). A moved edge runs between the same blocks as the edge that it comes from, because
the start of the block that an address is found in is found in the same block (`Function.Sorted.finds_moved_iff`).
So the blocks are connected as before (`Function.Sorted.flows_repaired`), and which block dominates which depends on
nothing else.
-/

namespace Disassembly.Flow.Function

open Disassembly.Graph

variable {f g : Function} {address : Address} {edge moved : Edge} {i j : Nat}

/-- Where an address is found is told by the blocks. -/
theorem finds_congr (h : g.blocks = f.blocks) : g.Finds address i ↔ f.Finds address i := by
  simp only [Finds, h]

/-- The back edges are some of the edges, in the same order. -/
theorem backEdges_sublist (f : Function) : f.backEdges.Sublist f.edges := by
  unfold backEdges
  split
  · exact List.nil_sublist _
  · exact List.filter_sublist

namespace Sorted

variable (h : f.Sorted)

include h

theorem mem_backEdges_iff : edge ∈ f.backEdges ↔ edge ∈ f.edges ∧ f.IsBackEdge edge := by
  unfold backEdges
  cases hfound : f.blockIndex? f.entry with
  | none =>
    refine iff_of_false List.not_mem_nil ?_
    rintro ⟨-, entry, -, -, hentry, -⟩
    rw [h.blockIndex?_eq_some_iff.mpr hentry] at hfound
    cases hfound
  | some entry =>
    have hentry := h.blockIndex?_eq_some_iff.mp hfound
    simp only [List.mem_filter, h.any_dominates_iff hentry]

/-- The start of the block that is found is found where the address is. -/
theorem finds_start_iff {block : Block} (hblock : f.blockAt? address = some block) :
    f.Finds block.start i ↔ f.Finds address i := by
  obtain ⟨k, hk, hi⟩ := Option.bind_eq_some_iff.mp hblock
  have hfinds := h.blockIndex?_eq_some_iff.mp hk
  constructor
  · intro hstart
    rwa [hstart.unique (hfinds.start hi)]
  · intro haddress
    obtain rfl := haddress.unique hfinds
    exact hfinds.start hi

/-- A moved edge runs between the same blocks as before. -/
theorem finds_moved_iff (hmoves : f.Moves edge moved) :
    (∀ i, f.Finds moved.source i ↔ f.Finds edge.source i) ∧ ∀ j, f.Finds moved.target j ↔ f.Finds edge.target j := by
  obtain ⟨source, target, hsource, htarget, rfl⟩ := hmoves
  exact ⟨fun i => h.finds_start_iff hsource, fun j => h.finds_start_iff htarget⟩

/-- An edge that runs between blocks can be moved. -/
theorem exists_moves (hsource : f.Finds edge.source i) (htarget : f.Finds edge.target j) :
    ∃ moved, f.Moves edge moved := by
  have hfound {address : Address} {i : Nat} (hfinds : f.Finds address i) :
      ∃ block, f.blockAt? address = some block := by
    obtain ⟨block, hblock, -⟩ := hfinds.1
    exact ⟨block, Option.bind_eq_some_iff.mpr ⟨i, h.blockIndex?_eq_some_iff.mpr hfinds, hblock⟩⟩
  obtain ⟨source, hsource⟩ := hfound hsource
  obtain ⟨target, htarget⟩ := hfound htarget
  exact ⟨_, source, target, hsource, htarget, rfl⟩

theorem blocks_repaired : f.repaired.blocks = f.blocks := by
  show f.sortBlocks.blocks = f.blocks
  rw [h.sortBlocks_eq]

theorem mem_edges_repaired_iff : moved ∈ f.repaired.edges ↔ ∃ edge ∈ f.edges, f.Moves edge moved := by
  rw [mem_edges_repaired, h.sortBlocks_eq]

/-- Repair leaves the blocks connected as they were. -/
theorem flows_repaired : f.repaired.Flows = f.Flows := by
  funext i j
  refine propext ?_
  simp only [Flows, finds_congr h.blocks_repaired]
  constructor
  · rintro ⟨moved, hmem, hi, hj⟩
    obtain ⟨edge, hedge, hmoves⟩ := h.mem_edges_repaired_iff.mp hmem
    obtain ⟨hsource, htarget⟩ := h.finds_moved_iff hmoves
    exact ⟨edge, hedge, (hsource i).mp hi, (htarget j).mp hj⟩
  · rintro ⟨edge, hedge, hi, hj⟩
    obtain ⟨moved, hmoves⟩ := h.exists_moves hi hj
    obtain ⟨hsource, htarget⟩ := h.finds_moved_iff hmoves
    exact ⟨moved, h.mem_edges_repaired_iff.mpr ⟨edge, hedge, hmoves⟩, (hsource i).mpr hi, (htarget j).mpr hj⟩

/-- A moved edge closes a loop of the repaired function just if it closed one before. -/
theorem isBackEdge_repaired_iff (hmoves : f.Moves edge moved) : f.repaired.IsBackEdge moved ↔ f.IsBackEdge edge := by
  have hentry : f.repaired.entry = f.entry := rfl
  obtain ⟨hsource, htarget⟩ := h.finds_moved_iff hmoves
  simp only [IsBackEdge, finds_congr h.blocks_repaired, h.flows_repaired, hentry, hsource, htarget]

/-- The back edges of the repaired function are those from before, moved. -/
theorem mem_backEdges_repaired_iff : moved ∈ f.repaired.backEdges ↔ ∃ edge ∈ f.backEdges, f.Moves edge moved := by
  have hsorted : f.repaired.Sorted := f.sorted_sortBlocks
  rw [hsorted.mem_backEdges_iff, h.mem_edges_repaired_iff]
  constructor
  · rintro ⟨⟨edge, hedge, hmoves⟩, hback⟩
    exact ⟨edge, h.mem_backEdges_iff.mpr ⟨hedge, (h.isBackEdge_repaired_iff hmoves).mp hback⟩, hmoves⟩
  · rintro ⟨edge, hback, hmoves⟩
    obtain ⟨hedge, hback⟩ := h.mem_backEdges_iff.mp hback
    exact ⟨⟨edge, hedge, hmoves⟩, (h.isBackEdge_repaired_iff hmoves).mpr hback⟩

end Sorted

/-- Repair of a function with sorted blocks keeps its loops: every back edge can be moved to the starts of the blocks
in which its endpoints are found, and the back edges after repair are the edges that come of this, in order and each
of them once. -/
theorem backEdges_repairEdges (h : f.Sorted) :
    (∀ edge ∈ f.backEdges, ∃ moved, f.Moves edge moved) ∧
      (∀ moved, moved ∈ f.repairEdges.1.backEdges ↔ ∃ edge ∈ f.backEdges, f.Moves edge moved) ∧
      f.repairEdges.1.backEdges.Pairwise Edge.Before ∧
      f.repairEdges.1.backEdges = Edge.canonical (f.backEdges.filterMap f.moveEdge?) := by
  have hpairwise : f.repaired.backEdges.Pairwise Edge.Before :=
    (Edge.pairwise_canonical _).sublist f.repaired.backEdges_sublist
  refine ⟨?_, fun moved => h.mem_backEdges_repaired_iff, hpairwise, ?_⟩
  · intro edge hedge
    obtain ⟨-, entry, source, target, -, hsource, htarget, -⟩ := h.mem_backEdges_iff.mp hedge
    exact h.exists_moves hsource htarget
  · -- Both lists are in order without repetitions, so that they need to be compared by their members only.
    refine Edge.eq_canonical hpairwise fun moved => ?_
    simp only [repairEdges, h.mem_backEdges_repaired_iff, List.mem_filterMap, moveEdge?_eq_some_iff]

/-- The sources of the three back edges lie in the middle of blocks, and two of the edges are the same. -/
theorem backEdges_repairEdges_overlapping :
    overlapping.Sorted ∧
      overlapping.repairEdges.1.backEdges = [⟨0x110, 0x110, .whenTrue⟩, ⟨0x120, 0x110, .switch⟩] := by
  have hsorted : overlapping.Sorted := by decide
  have hmoved : overlapping.backEdges.filterMap overlapping.moveEdge? =
      [⟨0x110, 0x110, .whenTrue⟩, ⟨0x120, 0x110, .switch⟩, ⟨0x120, 0x110, .switch⟩] := by decide +kernel
  obtain ⟨-, -, -, heq⟩ := backEdges_repairEdges hsorted
  refine ⟨hsorted, ?_⟩
  rw [heq, hmoved]
  exact (Edge.eq_canonical (by decide) (by simp)).symm

end Disassembly.Flow.Function
