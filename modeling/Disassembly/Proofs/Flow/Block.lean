import Mathlib.Data.List.Nodup
import Disassembly.Proofs.Flow.Lookup

/-!
# Blocks of instructions

A block made of instructions holds them in the order of their addresses and covers each of them
(`Block.covers_of_ofInstructions?`). What is found at an address is the last instruction that starts there
(`Block.instructionAt?_eq_some_iff_append`), which is the only one if addresses are distinct
(`Block.instructionAt?_eq_some_iff`).
-/

namespace Disassembly

theorem Address.max_le_iff {a b c : Address} : max a b ≤ c ↔ a ≤ c ∧ b ≤ c := by
  constructor
  · intro h
    exact ⟨UInt64.le_trans (le_max_left a b) h, UInt64.le_trans (le_max_right a b) h⟩
  · rintro ⟨ha, hb⟩
    rw [UInt64.max_def]
    split
    · exact hb
    · exact ha

namespace Flow.Block

variable {block : Block} {instructions rest : List Instruction} {i first : Instruction} {address stop bound : Address}

theorem contains_iff : block.contains address = true ↔ block.start ≤ address ∧ address < block.stop := by
  simp [contains]

/-- The farthest of an address and the ends of some instructions. -/
def farthest (stop : Address) (instructions : List Instruction) : Address :=
  instructions.foldl (fun stop i => max stop i.nextAddress) stop

theorem farthest_cons : farthest stop (first :: rest) = farthest (max stop first.nextAddress) rest := rfl

theorem farthest_le_iff :
    farthest stop instructions ≤ bound ↔ stop ≤ bound ∧ ∀ i ∈ instructions, i.nextAddress ≤ bound := by
  induction instructions generalizing stop with
  | nil => simp [farthest]
  | cons first rest ih => rw [farthest_cons, ih, Address.max_le_iff, List.forall_mem_cons, and_assoc]

theorem instructions_ofInstructions? (h : ofInstructions? instructions = some block) :
    block.instructions = instructions.mergeSort fun a b => a.address ≤ b.address := by
  unfold ofInstructions? at h
  split at h
  · cases h
  · rename_i hsort
    cases h
    exact hsort.symm

/-- No block is made of nothing, and of nothing else is none made. -/
theorem ofInstructions?_eq_none_iff : ofInstructions? instructions = none ↔ instructions = [] := by
  have hlength : (instructions.mergeSort fun a b => a.address ≤ b.address).length = instructions.length :=
    List.length_mergeSort instructions
  unfold ofInstructions?
  cases hsort : instructions.mergeSort fun a b => a.address ≤ b.address with
  | nil =>
    rw [hsort] at hlength
    simpa using List.eq_nil_of_length_eq_zero hlength.symm
  | cons first rest =>
    rw [hsort] at hlength
    refine iff_of_false (by simp) fun hnil => ?_
    rw [hnil] at hlength
    cases hlength

theorem exists_ofInstructions? (h : instructions ≠ []) : ∃ block, ofInstructions? instructions = some block :=
  Option.ne_none_iff_exists'.mp (mt ofInstructions?_eq_none_iff.mp h)

/-- Instructions that are in order already stay as they are. -/
theorem ofInstructions?_of_pairwise (h : (first :: rest).Pairwise fun a b => a.address ≤ b.address) :
    ofInstructions? (first :: rest) = some ⟨first.address, farthest first.nextAddress rest, first :: rest⟩ := by
  have hsort : (first :: rest).mergeSort (fun a b => decide (a.address ≤ b.address)) = first :: rest :=
    List.mergeSort_of_pairwise (h.imp fun hab => decide_eq_true hab)
  rw [ofInstructions?, hsort]
  rfl

theorem mem_ofInstructions? (h : ofInstructions? instructions = some block) :
    i ∈ block.instructions ↔ i ∈ instructions := by
  rw [instructions_ofInstructions? h]
  exact List.mem_mergeSort

/-- A block covers its instructions. -/
theorem covers_of_ofInstructions? (h : ofInstructions? instructions = some block) (hi : i ∈ block.instructions) :
    block.start ≤ i.address ∧ i.nextAddress ≤ block.stop := by
  have hsorted := pairwise_mergeSort_address Instruction.address instructions
  unfold ofInstructions? at h
  split at h
  · cases h
  · rename_i first rest hsort
    cases h
    rw [hsort] at hsorted
    obtain ⟨hfirst, hlater⟩ := farthest_le_iff.mp (UInt64.le_refl (farthest first.nextAddress rest))
    obtain rfl | hrest := List.mem_cons.mp hi
    · exact ⟨UInt64.le_refl _, hfirst⟩
    · exact ⟨(List.pairwise_cons.mp hsorted).1 i hrest, hlater i hrest⟩

/-- The instruction found is the last one that starts at the address. -/
theorem instructionAt?_eq_some_iff_append : block.instructionAt? address = some i ↔
    i.address = address ∧ ∃ before after, block.instructions = before ++ i :: after ∧
      ∀ other ∈ after, other.address ≠ address := by
  unfold instructionAt?
  rw [List.find?_eq_some_iff_append, beq_iff_eq]
  refine and_congr_right fun _ => ⟨?_, ?_⟩
  · rintro ⟨after, before, hsplit, hafter⟩
    refine ⟨before.reverse, after.reverse, ?_, fun other hother => ?_⟩
    · simpa using congrArg List.reverse hsplit
    · simpa using hafter other (List.mem_reverse.mp hother)
  · rintro ⟨before, after, hsplit, hafter⟩
    refine ⟨after.reverse, before.reverse, by simp [hsplit], fun other hother => ?_⟩
    simpa using hafter other (List.mem_reverse.mp hother)

theorem mem_of_instructionAt? (h : block.instructionAt? address = some i) :
    i ∈ block.instructions ∧ i.address = address := by
  obtain ⟨haddress, before, after, hsplit, -⟩ := instructionAt?_eq_some_iff_append.mp h
  exact ⟨by simp [hsplit], haddress⟩

/-- Where no two instructions share an address, the one found is the one that starts there. -/
theorem instructionAt?_eq_some_iff (hdistinct : (block.instructions.map Instruction.address).Nodup) :
    block.instructionAt? address = some i ↔ i ∈ block.instructions ∧ i.address = address := by
  refine ⟨mem_of_instructionAt?, ?_⟩
  rintro ⟨hi, rfl⟩
  obtain ⟨before, after, hsplit⟩ := List.append_of_mem hi
  refine instructionAt?_eq_some_iff_append.mpr ⟨rfl, before, after, hsplit, fun other hother heq => ?_⟩
  rw [hsplit, List.map_append, List.map_cons] at hdistinct
  have hfresh := (List.nodup_cons.mp (List.nodup_append.mp hdistinct).2.1).1
  exact hfresh (heq ▸ List.mem_map_of_mem hother)

/-- The block was made of instructions that have distinct addresses and take at least one byte each. -/
def Made (block : Block) : Prop :=
  ∃ instructions, ofInstructions? instructions = some block ∧ (instructions.map Instruction.address).Nodup ∧
    ∀ i ∈ instructions, i.address < i.nextAddress

namespace Made

variable (h : block.Made)

include h

theorem nodup : (block.instructions.map Instruction.address).Nodup := by
  obtain ⟨instructions, hmade, hdistinct, -⟩ := h
  rw [instructions_ofInstructions? hmade]
  exact ((List.mergeSort_perm ..).map _).nodup_iff.mpr hdistinct

/-- The address of an instruction lies in the block. -/
theorem contains_of_mem (hi : i ∈ block.instructions) : block.contains i.address = true := by
  obtain ⟨instructions, hmade, -, hsize⟩ := h
  obtain ⟨hstart, hstop⟩ := covers_of_ofInstructions? hmade hi
  exact contains_iff.mpr ⟨hstart, UInt64.lt_of_lt_of_le (hsize i ((mem_ofInstructions? hmade).mp hi)) hstop⟩

/-- The range is not empty. -/
theorem start_lt_stop : block.start < block.stop := by
  have hmem : ∃ i, i ∈ block.instructions := by
    obtain ⟨instructions, hmade, -⟩ := h
    unfold ofInstructions? at hmade
    split at hmade
    · cases hmade
    · rename_i first rest hsort
      cases hmade
      exact ⟨first, List.mem_cons_self⟩
  obtain ⟨i, hi⟩ := hmem
  obtain ⟨hstart, hstop⟩ := contains_iff.mp (h.contains_of_mem hi)
  exact UInt64.lt_of_le_of_lt hstart hstop

end Made

end Flow.Block

end Disassembly
