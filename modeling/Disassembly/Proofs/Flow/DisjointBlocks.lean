import Disassembly.Proofs.Flow.InstructionLookup
import Disassembly.Proofs.Flow.Nearest

/-!
# Disjoint blocks

Where no two blocks have an address in common, the nearest block to an address in a block is this block: it starts no
earlier, and so inside (`Function.Separate.locates_iff`). The look-ups in the sorted function then find a block for
just the addresses that lie in one, and an instruction where one starts (`Function.Separate.lookups_exact`).
-/

namespace Disassembly.Flow

variable {address : Address} {a b block : Block} {i : Instruction} {f : Function}

/-! ### Two blocks -/

namespace Block

/-- No address lies in both. -/
def Disjoint (a b : Block) : Prop := ∀ address, ¬(a.contains address = true ∧ b.contains address = true)

instance : Std.Symm Disjoint where
  symm _ _ h address hcontains := h address hcontains.symm

/-- Ranges that are not empty are compared by their bounds. -/
theorem Made.disjoint_iff (ha : a.Made) (hb : b.Made) : a.Disjoint b ↔ ¬a.Overlaps b := by
  constructor
  · rintro h ⟨hab, hba⟩
    -- The later of both starts lies in both.
    obtain hle | hle := UInt64.le_total a.start b.start
    · exact h b.start ⟨contains_iff.mpr ⟨hle, hba⟩, contains_iff.mpr ⟨UInt64.le_refl _, hb.start_lt_stop⟩⟩
    · exact h a.start ⟨contains_iff.mpr ⟨UInt64.le_refl _, ha.start_lt_stop⟩, contains_iff.mpr ⟨hle, hab⟩⟩
  · rintro h address ⟨hcontainsa, hcontainsb⟩
    obtain ⟨hstarta, hstopa⟩ := contains_iff.mp hcontainsa
    obtain ⟨hstartb, hstopb⟩ := contains_iff.mp hcontainsb
    exact h ⟨UInt64.lt_of_le_of_lt hstarta hstopb, UInt64.lt_of_le_of_lt hstartb hstopa⟩

/-- Of two disjoint blocks the one that starts first ends before the other starts. -/
theorem Made.stop_le_start (ha : a.Made) (hb : b.Made) (hdisjoint : a.Disjoint b) (hle : a.start ≤ b.start) :
    a.stop ≤ b.start := by
  refine UInt64.not_lt.mp fun hlt => (ha.disjoint_iff hb).mp hdisjoint ⟨?_, hlt⟩
  exact UInt64.lt_of_le_of_lt hle hb.start_lt_stop

/-- Instructions stand in the order of their addresses, and no address is there twice. -/
theorem Made.pairwise_instructions (h : block.Made) : block.instructions.Pairwise fun i j => i.address < j.address := by
  have hdistinct := List.pairwise_map.mp h.nodup
  obtain ⟨instructions, hmade, -⟩ := h
  have hsorted := pairwise_mergeSort_address Instruction.address instructions
  rw [← instructions_ofInstructions? hmade] at hsorted
  exact hsorted.imp₂ (fun _ _ hle hne => UInt64.lt_of_le_of_ne hle hne) hdistinct

end Block

/-! ### In a function -/

namespace Function

/-- Its blocks were made of instructions, and no two of them have an address in common. -/
structure Separate (f : Function) : Prop where
  /-- Every block was made of instructions. -/
  made : ∀ block ∈ f.blocks, block.Made
  /-- No address lies in two of them. -/
  disjoint : f.blocks.Pairwise Block.Disjoint

namespace Separate

variable (h : f.Separate)

include h

theorem eq_of_overlaps (ha : a ∈ f.blocks) (hb : b ∈ f.blocks) (hoverlaps : a.Overlaps b) : a = b := by
  by_contra hne
  exact ((h.made a ha).disjoint_iff (h.made b hb)).mp (h.disjoint.forall ha hb hne) hoverlaps

/-- The block that an address is found in is the one that contains it. -/
theorem locates_iff : f.Locates address block ↔ block ∈ f.blocks ∧ block.contains address = true := by
  constructor
  · rintro ⟨hnearest, hcontains⟩
    exact ⟨hnearest.mem, hcontains⟩
  · rintro ⟨hmem, hcontains⟩
    obtain ⟨hstart, hstop⟩ := Block.contains_iff.mp hcontains
    obtain ⟨nearest, hnearest⟩ := exists_nearest hmem hstart
    have hafter : block.start < nearest.stop :=
      UInt64.lt_of_le_of_lt (hnearest.greatest hmem hstart) (h.made nearest hnearest.mem).start_lt_stop
    have hbefore : nearest.start < block.stop := UInt64.lt_of_le_of_lt hnearest.start_le hstop
    obtain rfl := h.eq_of_overlaps hnearest.mem hmem ⟨hbefore, hafter⟩
    exact ⟨hnearest, hcontains⟩

theorem blockAt?_sortGraph_eq_some_iff :
    f.sortGraph.blockAt? address = some block ↔ block ∈ f.blocks ∧ block.contains address = true :=
  blockAt?_sortBlocks_eq_some_iff.trans h.locates_iff

/-- An instruction is looked for in the block that contains its address, which is the block that it is in. -/
theorem instructionAt?_sortGraph_eq_some_iff : f.sortGraph.instructionAt? address = some i ↔
    (∃ block ∈ f.blocks, i ∈ block.instructions) ∧ i.address = address := by
  simp only [instructionAt?, Option.bind_eq_some_iff, h.blockAt?_sortGraph_eq_some_iff]
  constructor
  · rintro ⟨block, ⟨hmem, -⟩, hi⟩
    obtain ⟨hi, haddress⟩ := (Block.instructionAt?_eq_some_iff (h.made block hmem).nodup).mp hi
    exact ⟨⟨block, hmem, hi⟩, haddress⟩
  · rintro ⟨⟨block, hmem, hi⟩, rfl⟩
    have hmade := h.made block hmem
    exact ⟨block, ⟨hmem, hmade.contains_of_mem hi⟩, (Block.instructionAt?_eq_some_iff hmade.nodup).mpr ⟨hi, rfl⟩⟩

/-- Sorted by their starts the blocks stand one behind the other. -/
theorem pairwise_sortGraph : f.sortGraph.blocks.Pairwise fun a b => a.stop ≤ b.start := by
  have hperm : f.sortGraph.blocks.Perm f.blocks := List.mergeSort_perm ..
  have hdisjoint := (hperm.pairwise_iff (Std.Symm.symm _ _)).mpr h.disjoint
  refine (f.sorted_sortBlocks.and hdisjoint).imp_of_mem fun ha hb hab => ?_
  exact (h.made _ (hperm.mem_iff.mp ha)).stop_le_start (h.made _ (hperm.mem_iff.mp hb)) hab.2 hab.1

end Separate

/-- Blocks that were made of instructions and are disjoint may be added in any order. Once the graph is sorted they
stand one behind the other, and in each the instructions by address. An address is found in the block that it lies in,
and only there, and an instruction at the address at which it starts. -/
theorem Separate.lookups_exact (h : f.Separate) :
    f.sortGraph.blocks.Perm f.blocks ∧ (f.sortGraph.blocks.Pairwise fun a b => a.stop ≤ b.start) ∧
      (∀ block ∈ f.sortGraph.blocks, block.instructions.Pairwise fun i j => i.address < j.address) ∧
      ∀ address,
        (∀ block, f.sortGraph.blockAt? address = some block ↔ block ∈ f.blocks ∧ block.contains address = true) ∧
        (f.sortGraph.blockAt? address = none ↔ ∀ block ∈ f.blocks, block.contains address = false) ∧
        (∀ i, f.sortGraph.instructionAt? address = some i ↔
          (∃ block ∈ f.blocks, i ∈ block.instructions) ∧ i.address = address) ∧
        (f.sortGraph.instructionAt? address = none ↔
          ∀ block ∈ f.blocks, ∀ i ∈ block.instructions, i.address ≠ address) := by
  have hperm : f.sortGraph.blocks.Perm f.blocks := List.mergeSort_perm ..
  refine ⟨hperm, h.pairwise_sortGraph, fun block hblock => ?_, fun address => ?_⟩
  · exact (h.made block (hperm.mem_iff.mp hblock)).pairwise_instructions
  · refine ⟨fun _ => h.blockAt?_sortGraph_eq_some_iff, ?_, fun _ => h.instructionAt?_sortGraph_eq_some_iff, ?_⟩
    · simp only [Option.eq_none_iff_forall_ne_some, ne_eq, h.blockAt?_sortGraph_eq_some_iff, not_and,
        Bool.not_eq_true]
    · simp only [Option.eq_none_iff_forall_ne_some, ne_eq, h.instructionAt?_sortGraph_eq_some_iff]
      constructor
      · intro hnone block hblock i hi haddress
        exact hnone i ⟨⟨block, hblock, hi⟩, haddress⟩
      · rintro hnone i ⟨⟨block, hblock, hi⟩, haddress⟩
        exact hnone block hblock i hi haddress

/-- A block right behind that with the gap. -/
def behind : Block := ⟨0x10c, 0x10e, [{ address := 0x10c, size := 2 }]⟩

/-- The block of an instruction that would reach past the end of the address space. -/
def top : Block := ⟨0xfffffffffffffffe, 0xffffffffffffffff, [{ address := 0xfffffffffffffffe, size := 4 }]⟩

/-- A function whose last block was added first. -/
def disordered : Function where
  entry := 0x100
  blocks := [top, FunctionTable.wide, behind]

theorem separate_disordered : disordered.Separate := by
  have htop : top.Made := ⟨top.instructions, Block.ofInstructions?_of_pairwise (by decide), by decide, by decide⟩
  have hwide : FunctionTable.wide.Made := FunctionTable.made_gapped _ List.mem_cons_self
  have hbehind : behind.Made :=
    ⟨behind.instructions, Block.ofInstructions?_of_pairwise (by decide), by decide, by decide⟩
  have hmade : ∀ block ∈ disordered.blocks, block.Made := by simp [disordered, htop, hwide, hbehind]
  have hoverlaps : disordered.blocks.Pairwise fun a b => ¬a.Overlaps b := by
    unfold Block.Overlaps
    decide
  exact ⟨hmade, hoverlaps.imp_of_mem fun ha hb => ((hmade _ ha).disjoint_iff (hmade _ hb)).mpr⟩

/-- At the bounds of the blocks: in the gap there is a block but no instruction, the block behind starts where the
one before it ends, and the last address lies in no block. -/
theorem lookups_exact_disordered :
    disordered.Separate ∧ disordered.sortGraph.blockAt? 0x104 = some FunctionTable.wide ∧
      disordered.sortGraph.instructionAt? 0x104 = none ∧
      disordered.sortGraph.instructionAt? 0x108 = some { address := 0x108, size := 4 } ∧
      disordered.sortGraph.blockAt? 0x10b = some FunctionTable.wide ∧
      disordered.sortGraph.blockAt? 0x10c = some behind ∧
      disordered.sortGraph.blockAt? 0x10e = none ∧
      disordered.sortGraph.blockAt? 0xfffffffffffffffe = some top ∧
      disordered.sortGraph.blockAt? 0xffffffffffffffff = none := by
  obtain ⟨-, -, -, hlookups⟩ := separate_disordered.lookups_exact
  have hblock (address : Address) (block : Block) :
      block ∈ disordered.blocks ∧ block.contains address = true → disordered.sortGraph.blockAt? address = some block :=
    ((hlookups address).1 block).mpr
  have hnone (address : Address) :
      (∀ block ∈ disordered.blocks, block.contains address = false) → disordered.sortGraph.blockAt? address = none :=
    (hlookups address).2.1.mpr
  refine ⟨separate_disordered, hblock _ _ (by decide), (hlookups 0x104).2.2.2.mpr (by decide), ?_,
    hblock _ _ (by decide), hblock _ _ (by decide), hnone _ (by decide), hblock _ _ (by decide), hnone _ (by decide)⟩
  exact ((hlookups 0x108).2.2.1 _).mpr (by decide)

end Function

end Disassembly.Flow
