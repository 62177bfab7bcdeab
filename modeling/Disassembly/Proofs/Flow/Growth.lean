import Mathlib.Data.Set.Card
import Mathlib.Order.Interval.Finset.Nat
import Disassembly.Proofs.Flow.Block

/-!
# Blocks that grow

A block made of instructions is the narrowest that covers them (`Block.Tight`). However blocks are made and whatever is
pushed onto them, none ends before it starts, none loses an address, and the size of each is the number of its addresses
(`Block.range_of_grown`). Rows of instructions make a block each, but for the empty rows (`Block.forall₂_tight`). A push
changes the start of a block only if it is vacant; otherwise it moves the end as far as the instruction needs
(`Block.push_of_vacant`, `Block.push_of_not_vacant`).
-/

namespace Disassembly

namespace Address

/-- How many addresses there are from one up to another. -/
theorem ncard_range (start stop : Address) :
    {address : Address | start ≤ address ∧ address < stop}.ncard = stop.toNat - start.toNat := by
  have himage : UInt64.toNat '' {address | start ≤ address ∧ address < stop} = Finset.Ico start.toNat stop.toNat := by
    ext n
    simp only [Set.mem_image, Set.mem_ofPred_eq, Finset.coe_Ico, Set.mem_Ico]
    constructor
    · rintro ⟨address, ⟨hstart, hstop⟩, rfl⟩
      exact ⟨hstart, hstop⟩
    · rintro ⟨hstart, hstop⟩
      have hn : (UInt64.ofNat n).toNat = n := UInt64.toNat_ofNat_of_lt' (Nat.lt_trans hstop stop.toNat_lt)
      refine ⟨UInt64.ofNat n, ⟨UInt64.le_iff_toNat_le.mpr ?_, UInt64.lt_iff_toNat_lt.mpr ?_⟩, hn⟩
      · rwa [hn]
      · rwa [hn]
  rw [← Set.ncard_image_of_injective _ fun a b => UInt64.toNat_inj.mp, himage, Set.ncard_coe_finset, Nat.card_Ico]

end Address

namespace Flow.Block

variable {block : Block} {instructions : List Instruction} {address : Address}

/-- The farthest end is one of those that it is taken of. -/
theorem farthest_mem (stop : Address) (instructions : List Instruction) :
    farthest stop instructions = stop ∨ ∃ i ∈ instructions, i.nextAddress = farthest stop instructions := by
  induction instructions generalizing stop with
  | nil => exact .inl rfl
  | cons first rest ih =>
    rw [farthest_cons]
    obtain h | ⟨i, hi, h⟩ := ih (max stop first.nextAddress)
    · rw [h, UInt64.max_def]
      split
      · exact .inr ⟨first, List.mem_cons_self, rfl⟩
      · exact .inl rfl
    · exact .inr ⟨i, List.mem_cons_of_mem _ hi, h⟩

/-! ### What a block is made of -/

/-- The block holds just the given instructions, in the order of their addresses, and reaches from the first address to
the farthest end. -/
structure Tight (instructions : List Instruction) (block : Block) : Prop where
  /-- It holds the instructions and no others. -/
  perm : block.instructions.Perm instructions
  /-- They are in the order of their addresses. -/
  sorted : block.instructions.Pairwise fun a b => a.address ≤ b.address
  /-- Those with one address are in the order in which they were given. -/
  stable (address : Address) : block.instructions.filter (fun i => i.address = address) =
    instructions.filter fun i => i.address = address
  /-- The block starts with an instruction. -/
  start_mem : ∃ i ∈ instructions, i.address = block.start
  /-- None starts before it. -/
  start_le : ∀ i ∈ instructions, block.start ≤ i.address
  /-- The block ends with an instruction. -/
  stop_mem : ∃ i ∈ instructions, i.nextAddress = block.stop
  /-- None ends past it. -/
  le_stop : ∀ i ∈ instructions, i.nextAddress ≤ block.stop

theorem Tight.start_le_stop (h : block.Tight instructions) : block.start ≤ block.stop := by
  obtain ⟨i, hi, hstart⟩ := h.start_mem
  rw [← hstart]
  exact UInt64.le_trans (Address.le_advance i.address i.size) (h.le_stop i hi)

theorem tight_of_ofInstructions? (h : ofInstructions? instructions = some block) : block.Tight instructions := by
  have hinstructions := instructions_ofInstructions? h
  have hperm : block.instructions.Perm instructions := hinstructions ▸ List.mergeSort_perm ..
  have hcovers {i : Instruction} (hi : i ∈ instructions) := covers_of_ofInstructions? h (hperm.mem_iff.mpr hi)
  have hbounds : (∃ i ∈ block.instructions, i.address = block.start) ∧
      ∃ i ∈ block.instructions, i.nextAddress = block.stop := by
    unfold ofInstructions? at h
    split at h
    · cases h
    · rename_i first rest hsort
      cases h
      refine ⟨⟨first, List.mem_cons_self, rfl⟩, ?_⟩
      obtain hfirst | ⟨i, hi, hlast⟩ := farthest_mem first.nextAddress rest
      · exact ⟨first, List.mem_cons_self, hfirst.symm⟩
      · exact ⟨i, List.mem_cons_of_mem _ hi, hlast⟩
  obtain ⟨⟨i, hi, hstart⟩, j, hj, hstop⟩ := hbounds
  exact
    { perm := hperm
      sorted := hinstructions ▸ pairwise_mergeSort_address Instruction.address instructions
      stable := fun address => by rw [hinstructions, filter_mergeSort_address Instruction.address]
      start_mem := ⟨i, hperm.mem_iff.mp hi, hstart⟩
      start_le := fun i hi => (hcovers hi).1
      stop_mem := ⟨j, hperm.mem_iff.mp hj, hstop⟩
      le_stop := fun i hi => (hcovers hi).2 }

/-- Of rows of instructions, all but the empty ones make a block, which holds the row. -/
theorem forall₂_tight (rows : List (List Instruction)) :
    List.Forall₂ Tight (rows.filter fun row => !row.isEmpty) (rows.filterMap ofInstructions?) := by
  induction rows with
  | nil => exact .nil
  | cons row rows ih =>
    cases row with
    | nil =>
      rw [List.filterMap_cons_none (ofInstructions?_eq_none_iff.mpr rfl)]
      exact ih
    | cons first rest =>
      obtain ⟨block, hmade⟩ := exists_ofInstructions? (List.cons_ne_nil first rest)
      rw [List.filterMap_cons_some hmade]
      exact .cons (tight_of_ofInstructions? hmade) ih

/-- When the blocks are put into another order, so are the rows. -/
theorem exists_forall₂_tight {rows : List (List Instruction)} {blocks : List Block}
    (h : blocks.Perm (rows.filterMap ofInstructions?)) :
    ∃ kept, kept.Perm (rows.filter fun row => !row.isEmpty) ∧ List.Forall₂ Tight kept blocks := by
  obtain ⟨kept, hkept, hperm⟩ := List.perm_comp_forall₂ h (forall₂_tight rows).flip
  exact ⟨kept, hperm, hkept.flip⟩

/-! ### Pushing -/

/-- The block holds nothing and covers nothing. -/
def Vacant (block : Block) : Prop := block.instructions = [] ∧ block.start = block.stop

instance (block : Block) : Decidable block.Vacant := inferInstanceAs (Decidable (_ ∧ _))

/-- The block with some more instructions, pushed one after the other. -/
def pushAll (block : Block) (instructions : List Instruction) : Block := instructions.foldl push block

theorem push_of_vacant (h : block.Vacant) (i : Instruction) :
    block.push i = ⟨i.address, max block.stop i.nextAddress, [i]⟩ := by
  obtain ⟨hnone, heq⟩ := h
  simp [push, hnone, heq]

theorem push_of_not_vacant (h : ¬block.Vacant) (i : Instruction) :
    block.push i = ⟨block.start, max block.stop i.nextAddress, block.instructions ++ [i]⟩ := by
  have hmoves : ¬(block.instructions.isEmpty ∧ block.start = block.stop) := by
    rwa [List.isEmpty_iff]
  rw [push, if_neg hmoves]

theorem start_le_stop_push (h : block.start ≤ block.stop) (i : Instruction) :
    (block.push i).start ≤ (block.push i).stop := by
  by_cases hvacant : block.Vacant
  · rw [push_of_vacant hvacant]
    exact UInt64.le_trans (Address.le_advance i.address i.size) (Address.le_max_right ..)
  · rw [push_of_not_vacant hvacant]
    exact UInt64.le_trans h (Address.le_max_left ..)

theorem contains_push (h : block.contains address = true) (i : Instruction) :
    (block.push i).contains address = true := by
  obtain ⟨hstart, hstop⟩ := contains_iff.mp h
  have hvacant : ¬block.Vacant := by
    rintro ⟨-, heq⟩
    exact UInt64.not_lt.mpr hstart (heq ▸ hstop)
  rw [push_of_not_vacant hvacant]
  exact contains_iff.mpr ⟨hstart, UInt64.lt_of_lt_of_le hstop (Address.le_max_left ..)⟩

/-! ### All blocks -/

/-- How a block may come about: of instructions, or for a range that does not end before it starts; then more
instructions are pushed onto it. -/
inductive Grown : Block → Prop where
  /-- Of instructions. -/
  | made {instructions : List Instruction} {block : Block} : ofInstructions? instructions = some block → Grown block
  /-- For a range. -/
  | blank {start stop : Address} : start ≤ stop → Grown { start, stop }
  /-- By pushing. -/
  | push {block : Block} (i : Instruction) : Grown block → Grown (block.push i)

theorem Grown.pushAll (h : block.Grown) (instructions : List Instruction) : (block.pushAll instructions).Grown := by
  induction instructions generalizing block with
  | nil => exact h
  | cons first rest ih => exact ih (h.push first)

theorem Grown.start_le_stop (h : block.Grown) : block.start ≤ block.stop := by
  induction h with
  | made hmade => exact (tight_of_ofInstructions? hmade).start_le_stop
  | blank hle => exact hle
  | push i _ ih => exact start_le_stop_push ih i

theorem contains_pushAll (h : block.contains address = true) (instructions : List Instruction) :
    (block.pushAll instructions).contains address = true := by
  induction instructions generalizing block with
  | nil => exact h
  | cons first rest ih => exact ih (contains_push h first)

/-- The size is the number of addresses. -/
theorem exists_size? (h : block.start ≤ block.stop) :
    ∃ n, block.size? = some n ∧ n.toNat = {address | block.contains address = true}.ncard := by
  refine ⟨block.stop - block.start, if_pos h, ?_⟩
  simp only [contains_iff, Address.ncard_range]
  exact UInt64.toNat_sub_of_le _ _ h

/-- The block of some instructions is the narrowest that covers them, and it contains the address of each that takes a
byte. No block ends before it starts, whatever is pushed onto it. It contains what it did before, and its size is the
number of its addresses. -/
theorem range_of_grown :
    (∀ instructions : List Instruction, instructions ≠ [] → ∃ block, ofInstructions? instructions = some block ∧
        block.Tight instructions ∧
        ∀ i ∈ instructions, i.address < i.nextAddress → block.contains i.address = true) ∧
      ∀ block : Block, block.Grown → block.start ≤ block.stop ∧
        (∃ n, block.size? = some n ∧ n.toNat = {address | block.contains address = true}.ncard) ∧
        ∀ instructions, (block.pushAll instructions).Grown ∧
          ∀ address, block.contains address = true → (block.pushAll instructions).contains address = true := by
  refine ⟨fun instructions hsome => ?_, fun block h => ?_⟩
  · obtain ⟨block, hmade⟩ := exists_ofInstructions? hsome
    have htight := tight_of_ofInstructions? hmade
    refine ⟨block, hmade, htight, fun i hi hbytes => contains_iff.mpr ⟨htight.start_le i hi, ?_⟩⟩
    exact UInt64.lt_of_lt_of_le hbytes (htight.le_stop i hi)
  · refine ⟨h.start_le_stop, exists_size? h.start_le_stop, fun instructions => ⟨h.pushAll instructions, ?_⟩⟩
    exact fun address hcontains => contains_pushAll hcontains instructions

/-- Instructions out of order: one past which there is no address left, one that takes no byte, and two at one address. -/
def scattered : List Instruction :=
  [{ address := 0xfffffffffffffffe, size := 8 }, { address := 0x100, size := 0 },
    { address := 0x104, size := 2, mnemonic := "inc" }, { address := 0x104, size := 4, mnemonic := "dec" }]

/-- Made into a block, pushed onto a vacant one, and pushed onto one that covers some addresses and still does. -/
theorem range_of_grown_scattered :
    scattered ≠ [] ∧ (∃ block, ofInstructions? scattered = some block ∧ block.Tight scattered) ∧
      Grown { start := 0x104, stop := 0x104 } ∧ (pushAll { start := 0x104, stop := 0x104 } scattered).Grown ∧
      (∃ n, size? (pushAll { start := 0x102, stop := 0x106 } scattered) = some n ∧
        n.toNat = {address | contains (pushAll { start := 0x102, stop := 0x106 } scattered) address = true}.ncard) ∧
      contains (pushAll { start := 0x102, stop := 0x106 } scattered) 0x105 = true := by
  have hvacant : Grown { start := 0x104, stop := 0x104 } := .blank (by decide)
  have hwide : Grown { start := 0x102, stop := 0x106 } := .blank (by decide)
  obtain ⟨block, hmade, htight, -⟩ := range_of_grown.1 scattered (by decide)
  obtain ⟨-, -, hpushes⟩ := range_of_grown.2 _ hvacant
  obtain ⟨-, -, hkeeps⟩ := range_of_grown.2 _ hwide
  obtain ⟨-, hsize, -⟩ := range_of_grown.2 _ (hkeeps scattered).1
  exact ⟨by decide, ⟨block, hmade, htight⟩, hvacant, (hpushes scattered).1, hsize, (hkeeps scattered).2 _ (by decide)⟩

end Flow.Block

end Disassembly
