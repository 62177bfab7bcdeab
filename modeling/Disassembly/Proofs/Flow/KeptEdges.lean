import Disassembly.Proofs.Flow.Block
import Disassembly.Proofs.Flow.Nearest
import Disassembly.Proofs.Flow.Repair

/-!
# Edges that repair keeps

Repair keeps an edge if for each endpoint the nearest block contains it. Where blocks are nested this is less than
that some block contains each endpoint: past the end of an inner block the outer one is not tried, and edges from or to
the rest of it are lost (`Function.repairEdges_not_keeps`). No edge is lost for which each endpoint lies in all the
blocks that start between the start of a block containing it and the endpoint (`Function.repairEdges_keeps`).
-/

namespace Disassembly.Flow.Function

variable {f : Function} {address : Address} {edge kept : Edge}

/-- Some block contains the address. -/
def Covers (f : Function) (address : Address) : Prop := ∃ block ∈ f.blocks, block.contains address = true

/-- Some block contains the address, and so do all blocks that start between the start of this one and the address. -/
def Unhidden (f : Function) (address : Address) : Prop :=
  ∃ block ∈ f.blocks, block.contains address = true ∧
    ∀ other ∈ f.blocks, block.start ≤ other.start → other.start ≤ address → other.contains address = true

instance (f : Function) (address : Address) : Decidable (f.Unhidden address) :=
  inferInstanceAs (Decidable (∃ block ∈ f.blocks, _ ∧ ∀ other ∈ f.blocks, _ → _ → _))

/-- After repair there is an edge of the same kind between the starts of blocks that contain the endpoints. -/
def HasCounterpart (f : Function) (edge : Edge) : Prop :=
  ∃ kept ∈ f.repairEdges.1.edges, kept.kind = edge.kind ∧
    (∃ block ∈ f.blocks, block.contains edge.source = true ∧ kept.source = block.start) ∧
      ∃ block ∈ f.blocks, block.contains edge.target = true ∧ kept.target = block.start

/-- The nearest block contains an address that is not hidden: it starts no earlier than the one that is known to. -/
theorem Unhidden.exists_locates (h : f.Unhidden address) : ∃ block, f.Locates address block := by
  obtain ⟨block, hmem, hcontains, hothers⟩ := h
  have hstart : block.start ≤ address := (Block.contains_iff.mp hcontains).1
  obtain ⟨nearest, hnearest⟩ := exists_nearest hmem hstart
  refine ⟨nearest, hnearest, hothers nearest hnearest.mem ?_ hnearest.start_le⟩
  exact hnearest.greatest hmem hstart

theorem moves_sortBlocks_iff : f.sortBlocks.Moves edge kept ↔ ∃ source target,
    f.Locates edge.source source ∧ f.Locates edge.target target ∧ kept = ⟨source.start, target.start, edge.kind⟩ := by
  simp only [Moves, blockAt?_sortBlocks_eq_some_iff]

/-- The edges after repair are those that run between the starts of two blocks in which the endpoints of an edge are
found, and have its kind. In particular an edge has its counterpart if neither endpoint is hidden. -/
theorem repairEdges_keeps (f : Function) :
    (∀ kept, kept ∈ f.repairEdges.1.edges ↔ ∃ edge ∈ f.edges, ∃ source target,
        f.Locates edge.source source ∧ f.Locates edge.target target ∧
          kept = ⟨source.start, target.start, edge.kind⟩) ∧
      ∀ edge ∈ f.edges, f.Unhidden edge.source → f.Unhidden edge.target → f.HasCounterpart edge := by
  have hmem (kept : Edge) : kept ∈ f.repairEdges.1.edges ↔ ∃ edge ∈ f.edges, ∃ source target,
      f.Locates edge.source source ∧ f.Locates edge.target target ∧
        kept = ⟨source.start, target.start, edge.kind⟩ := by
    simp only [repairEdges, mem_edges_repaired, moves_sortBlocks_iff]
  refine ⟨hmem, fun edge hedge hsource htarget => ?_⟩
  obtain ⟨source, hsource⟩ := hsource.exists_locates
  obtain ⟨target, htarget⟩ := htarget.exists_locates
  refine ⟨_, (hmem _).mpr ⟨edge, hedge, source, target, hsource, htarget, rfl⟩, rfl, ?_, ?_⟩
  · exact ⟨source, hsource.1.mem, hsource.2, rfl⟩
  · exact ⟨target, htarget.1.mem, htarget.2, rfl⟩

/-- Two blocks that overlap, the later one first. The edge runs from the one into the part that they share. -/
def staggered : Function where
  entry := 0x100
  blocks := [{ start := 0x108, stop := 0x118 }, { start := 0x100, stop := 0x110 }]
  edges := [⟨0x104, 0x10c, .whenTrue⟩]

theorem repairEdges_keeps_staggered :
    staggered.Unhidden 0x104 ∧ staggered.Unhidden 0x10c ∧ staggered.HasCounterpart ⟨0x104, 0x10c, .whenTrue⟩ :=
  ⟨by decide, by decide, (repairEdges_keeps staggered).2 _ List.mem_cons_self (by decide) (by decide)⟩

/-- A block inside another. The edge leads back to the start of the outer one from its part past the inner one. -/
def nested : Function where
  entry := 0x100
  blocks := [{ start := 0x100, stop := 0x140 }, { start := 0x110, stop := 0x118 }]
  edges := [⟨0x120, 0x100, .unconditional⟩]

/-- The edge in the outer block is lost: its source is looked for in the inner block only. -/
theorem repairEdges_not_keeps : ¬ ∀ f : Function, (∀ block ∈ f.blocks, block.start < block.stop) →
    ∀ edge ∈ f.edges, f.Covers edge.source → f.Covers edge.target → f.HasCounterpart edge := by
  intro h
  have houter (address : Address) (hcontains : Block.contains { start := 0x100, stop := 0x140 } address = true) :
      nested.Covers address := ⟨_, List.mem_cons_self, hcontains⟩
  obtain ⟨kept, hkept, -⟩ := h nested (by decide) ⟨0x120, 0x100, .unconditional⟩ List.mem_cons_self
    (houter 0x120 (by decide)) (houter 0x100 (by decide))
  obtain ⟨edge, hedge, source, -, hsource, -⟩ := mem_edges_repaired.mp hkept
  obtain rfl := List.mem_singleton.mp hedge
  -- The last block that does not start past the source is the inner one, which does not contain it.
  have hlost : nested.sortBlocks.blockAt? 0x120 = none := by
    rw [Sorted.sortBlocks_eq (by decide)]
    decide
  rw [hlost] at hsource
  cases hsource

end Disassembly.Flow.Function
