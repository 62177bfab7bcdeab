import Disassembly.Proofs.Flow.Block
import Disassembly.Proofs.Flow.FunctionTable

/-!
# Looking up instructions

A table looks for an instruction in one block only: of the function that owns the address, the last block that does
not start past it. Where blocks overlap this may be another block than the one that holds the instruction, which then
is not found (`FunctionTable.instructionAt?_not_complete`). It is found as long as every block that overlaps its
block has an instruction at the address, too (`FunctionTable.instructionAt?_finalize`).
-/

namespace Disassembly.Flow

variable {address : Address} {i : Instruction} {block : Block} {f : Function}

/-- An instruction of the block starts at the address. -/
def Block.Holds (block : Block) (address : Address) : Prop := ∃ i ∈ block.instructions, i.address = address

/-- The blocks have an address in common, or one that is empty lies inside the other. -/
def Block.Overlaps (a b : Block) : Prop := a.start < b.stop ∧ b.start < a.stop

/-- What a block holds it contains. -/
theorem Block.Made.contains (h : block.Made) (hholds : block.Holds address) : block.contains address = true := by
  obtain ⟨i, hi, rfl⟩ := hholds
  exact h.contains_of_mem hi

/-! ### In a function -/

namespace Function.Sorted

variable (h : f.Sorted)

include h

/-- The instruction is looked for in the block that is found for the address. -/
theorem instructionAt?_eq_some_iff (hmade : ∀ block ∈ f.blocks, block.Made) : f.instructionAt? address = some i ↔
    ∃ k block, f.Finds address k ∧ f.blocks[k]? = some block ∧ i ∈ block.instructions ∧ i.address = address := by
  simp only [instructionAt?, blockAt?, Option.bind_eq_some_iff, h.blockIndex?_eq_some_iff]
  constructor
  · rintro ⟨block, ⟨k, hk, hblock⟩, hi⟩
    rw [Block.instructionAt?_eq_some_iff (hmade block (List.mem_of_getElem? hblock)).nodup] at hi
    exact ⟨k, block, hk, hblock, hi⟩
  · rintro ⟨k, block, hk, hblock, hi⟩
    rw [← Block.instructionAt?_eq_some_iff (hmade block (List.mem_of_getElem? hblock)).nodup] at hi
    exact ⟨block, ⟨k, hk, hblock⟩, hi⟩

end Function.Sorted

/-! ### In a table -/

namespace FunctionTable

variable {table : FunctionTable} {repair : Bool}

/-- The blocks of all functions were made of instructions. -/
def Made (table : FunctionTable) : Prop := ∀ f ∈ table.toList, ∀ block ∈ f.blocks, block.Made

theorem made_empty : empty.Made := by
  intro f hf
  cases hf

theorem Made.insert (h : table.Made) (hf : ∀ block ∈ f.blocks, block.Made) : (table.insert f).2.Made := by
  intro g hg
  obtain rfl | ⟨-, hg⟩ := mem_toList_insert.mp hg
  · exact hf
  · exact h g hg

theorem Made.finalize (h : table.Made) (hf : f ∈ table.toList) (repair : Bool) :
    ∀ block ∈ (f.finalize repair).1.blocks, block.Made := by
  intro block hblock
  exact h f hf block (Function.mem_blocks_finalize.mp hblock)

/-- An instruction is looked for in the function that owns the address, in its last block that does not start past
it. -/
theorem instructionAt?_eq_some_iff (h : table.Made) : (table.finalize repair).2.instructionAt? address = some i ↔
    ∃ f, table.Owns address f ∧ ∃ k block, (f.finalize repair).1.Finds address k ∧
      (f.finalize repair).1.blocks[k]? = some block ∧ i ∈ block.instructions ∧ i.address = address := by
  unfold instructionAt?
  obtain ⟨owner, howns, hfound⟩ | ⟨hnone, hfound⟩ := table.functionContaining?_cases repair address
  · have hsorted := (owner.final_finalize repair).sorted
    rw [hfound, Option.bind_some, hsorted.instructionAt?_eq_some_iff (h.finalize howns.mem repair)]
    refine ⟨fun hi => ⟨owner, howns, hi⟩, ?_⟩
    rintro ⟨f, hf, hi⟩
    rwa [howns.unique hf]
  · rw [hfound, Option.bind_none]
    refine iff_of_false (by simp) ?_
    rintro ⟨f, hf, -⟩
    obtain ⟨block, hmem, hcontains, -⟩ := hf.exists_block
    rw [hnone f hf.mem block hmem] at hcontains
    cases hcontains

/-- An instruction is found if every block that overlaps its block has one at the address. -/
theorem exists_instructionAt? (h : table.Made) (repair : Bool) (hf : f ∈ table.toList) (hblock : block ∈ f.blocks)
    (hholds : block.Holds address)
    (hoverlap : ∀ g ∈ table.toList, ∀ other ∈ g.blocks, other.Overlaps block → other.Holds address) :
    ∃ i, (table.finalize repair).2.instructionAt? address = some i := by
  have hcontains := (h f hf block hblock).contains hholds
  obtain ⟨hstart, hstop⟩ := Block.contains_iff.mp hcontains
  obtain ⟨owner, howns, -⟩ | ⟨hnone, -⟩ := table.functionContaining?_cases repair address
  · obtain ⟨greatest, hmem, hgreatest, hle⟩ := howns.exists_block
    obtain ⟨k, last, hlast, hlaststart, hgreatestlast, hafter⟩ :=
      (owner.final_finalize repair).sorted.exists_last (Function.mem_blocks_finalize.mpr hmem)
        (Block.contains_iff.mp hgreatest).1
    have hlastmade := h.finalize howns.mem repair last (List.mem_of_getElem? hlast)
    -- The last block overlaps the one that holds the instruction, as it starts no earlier.
    have hearlier : block.start ≤ last.start :=
      UInt64.le_trans (Span.start_le_of_le (hle f hf block hblock hcontains)) hgreatestlast
    have hoverlaps : last.Overlaps block :=
      ⟨UInt64.lt_of_le_of_lt hlaststart hstop, UInt64.lt_of_le_of_lt hearlier hlastmade.start_lt_stop⟩
    have hholdslast : last.Holds address := by
      apply hoverlap owner howns.mem last _ hoverlaps
      exact Function.mem_blocks_finalize.mp (List.mem_of_getElem? hlast)
    have hfinds : (owner.finalize repair).1.Finds address k := ⟨⟨last, hlast, hlastmade.contains hholdslast⟩, hafter⟩
    obtain ⟨i, hi, haddress⟩ := hholdslast
    exact ⟨i, (instructionAt?_eq_some_iff h).mpr ⟨owner, howns, k, last, hfinds, hlast, hi, haddress⟩⟩
  · rw [hnone f hf block hblock] at hcontains
    cases hcontains

/-- What is found in a table with blocks made of instructions is an instruction at the address, in the last block
that does not start past it of the function that owns it. It is found if every block that overlaps its block has an
instruction there. -/
theorem instructionAt?_finalize (h : table.Made) (repair : Bool) (address : Address) :
    (∀ i, (table.finalize repair).2.instructionAt? address = some i ↔
        ∃ f, table.Owns address f ∧ ∃ k block, (f.finalize repair).1.Finds address k ∧
          (f.finalize repair).1.blocks[k]? = some block ∧ i ∈ block.instructions ∧ i.address = address) ∧
      ∀ f ∈ table.toList, ∀ block ∈ f.blocks, block.Holds address →
        (∀ g ∈ table.toList, ∀ other ∈ g.blocks, other.Overlaps block → other.Holds address) →
        ∃ i, (table.finalize repair).2.instructionAt? address = some i ∧ i.address = address := by
  constructor
  · intro i
    exact instructionAt?_eq_some_iff h
  · intro f hf block hblock hholds hoverlap
    obtain ⟨i, hi⟩ := exists_instructionAt? h repair hf hblock hholds hoverlap
    obtain ⟨-, -, -, -, -, -, -, haddress⟩ := (instructionAt?_eq_some_iff h).mp hi
    exact ⟨i, hi, haddress⟩

/-- A block of two instructions. -/
def long : Block := ⟨0x100, 0x108, [{ address := 0x100, size := 4 }, { address := 0x104, size := 4 }]⟩

/-- The block of the second of them. -/
def short : Block := ⟨0x104, 0x108, [{ address := 0x104, size := 4 }]⟩

theorem made_long : long.Made :=
  ⟨long.instructions, Block.ofInstructions?_of_pairwise (by decide), by decide, by decide⟩

theorem made_short : short.Made :=
  ⟨short.instructions, Block.ofInstructions?_of_pairwise (by decide), by decide, by decide⟩

/-- The table of two functions that have one of these blocks each. -/
def shared : FunctionTable :=
  ((empty.insert { entry := 0x100, blocks := [long] }).2.insert { entry := 0x104, blocks := [short] }).2

theorem made_shared : shared.Made :=
  (made_empty.insert (List.forall_mem_singleton.mpr made_long)).insert (List.forall_mem_singleton.mpr made_short)

/-- The instruction that both functions have is found, though their blocks overlap. -/
theorem instructionAt?_finalize_shared :
    shared.Made ∧ ∃ i, (shared.finalize true).2.instructionAt? 0x104 = some i ∧ i.address = 0x104 := by
  have hmem (f : Function) (hf : f ∈ shared.toList) :
      f = { entry := 0x104, blocks := [short] } ∨ f = { entry := 0x100, blocks := [long] } := by
    simp only [shared, mem_toList_insert, toList_empty, List.not_mem_nil, and_false, or_false] at hf
    exact hf.imp_right And.right
  have hholds (f : Function) (hf : f ∈ shared.toList) (block : Block) (hblock : block ∈ f.blocks) :
      block.Holds 0x104 := by
    obtain rfl | rfl := hmem f hf
    · obtain rfl := List.mem_singleton.mp hblock
      exact ⟨_, List.mem_cons_self, rfl⟩
    · obtain rfl := List.mem_singleton.mp hblock
      exact ⟨_, List.mem_cons_of_mem _ List.mem_cons_self, rfl⟩
  have hfirst : { entry := 0x104, blocks := [short] } ∈ shared.toList := mem_toList_insert.mpr (.inl rfl)
  obtain ⟨-, hfound⟩ := instructionAt?_finalize made_shared true 0x104
  refine ⟨made_shared, hfound _ hfirst short List.mem_cons_self (hholds _ hfirst short List.mem_cons_self) ?_⟩
  intro g hg other hother _
  exact hholds g hg other hother

/-- A block with a gap between its instructions. -/
def wide : Block := ⟨0x100, 0x10c, [{ address := 0x100, size := 4 }, { address := 0x108, size := 4 }]⟩

/-- A block in this gap. -/
def narrow : Block := ⟨0x104, 0x106, [{ address := 0x104, size := 2 }]⟩

/-- The function of both blocks. -/
def gapped : Function where
  entry := 0x100
  blocks := [wide, narrow]

theorem made_gapped : ∀ block ∈ gapped.blocks, block.Made := by
  intro block hblock
  obtain rfl | hblock := List.mem_cons.mp hblock
  · exact ⟨wide.instructions, Block.ofInstructions?_of_pairwise (by decide), by decide, by decide⟩
  · obtain rfl := List.mem_singleton.mp hblock
    exact ⟨narrow.instructions, Block.ofInstructions?_of_pairwise (by decide), by decide, by decide⟩

/-- The table of this function alone. -/
def lone : FunctionTable := (empty.insert gapped).2

theorem made_lone : lone.Made := made_empty.insert made_gapped

theorem mem_lone_iff : f ∈ lone.toList ↔ f = gapped := by
  simp [lone, mem_toList_insert, toList_empty]

/-- An instruction past a gap is not found if another block starts in the gap: this is the last one that does not
start past the instruction, and does not contain it. -/
theorem instructionAt?_not_complete : ¬ ∀ (table : FunctionTable) (repair : Bool) (address : Address), table.Made →
    (∃ f ∈ table.toList, ∃ block ∈ f.blocks, block.Holds address) →
      ∃ i, (table.finalize repair).2.instructionAt? address = some i ∧ i.address = address := by
  intro h
  have hholds : wide.Holds 0x108 := ⟨_, List.mem_cons_of_mem _ List.mem_cons_self, rfl⟩
  obtain ⟨i, hi, -⟩ := h lone true 0x108 made_lone ⟨gapped, mem_lone_iff.mpr rfl, wide, List.mem_cons_self, hholds⟩
  obtain ⟨f, howns, k, block, ⟨⟨found, hfound, hcontains⟩, hlast⟩, -⟩ := (instructionAt?_eq_some_iff made_lone).mp hi
  obtain rfl := mem_lone_iff.mp howns.mem
  have hblocks : (gapped.finalize true).1.blocks = [wide, narrow] := by
    rw [Function.blocks_finalize]
    exact List.mergeSort_of_pairwise (by decide)
  rw [hblocks] at hfound hlast
  have hk : 1 ≤ k := hlast 1 narrow rfl (by decide)
  obtain rfl : k = 1 := by
    have := (List.getElem?_eq_some_iff.mp hfound).1
    simp only [List.length_cons, List.length_nil] at this
    omega
  obtain rfl : narrow = found := Option.some.inj hfound
  exact absurd hcontains (by decide)

end FunctionTable

end Disassembly.Flow
