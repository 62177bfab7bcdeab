import Disassembly.Proofs.Flow.Growth

/-!
# Extending a block

What pushing should do (`Block.extend`), and when it does. An instruction that is pushed before the start of a block
stays outside, and a vacant block that moves back to an instruction still ends where it was (`Block.push_not_extends`).
So a block is extended as it should be exactly if nothing is pushed before its start, and a vacant one takes on the range
of what is pushed exactly if the first instruction is the lowest and one of them reaches up to the place where the block
was (`Block.range_of_pushes`).
-/

namespace Disassembly

/-! ### Greatest and least addresses -/

namespace Address

variable {a b : Address}

theorem eq_of_forall_le_iff (h : ∀ c, a ≤ c ↔ b ≤ c) : a = b :=
  UInt64.le_antisymm ((h b).mpr (UInt64.le_refl b)) ((h a).mp (UInt64.le_refl a))

theorem max_eq_right_iff : max a b = b ↔ a ≤ b := by
  refine ⟨fun h => h ▸ le_max_left a b, fun h => eq_of_forall_le_iff fun c => ?_⟩
  rw [max_le_iff]
  exact ⟨And.right, fun hb => ⟨UInt64.le_trans h hb, hb⟩⟩

theorem min_le_left (a b : Address) : min a b ≤ a := by
  rw [UInt64.min_def]
  split
  · exact UInt64.le_refl a
  · exact UInt64.le_of_lt (UInt64.not_le.mp ‹_›)

theorem min_le_right (a b : Address) : min a b ≤ b := by
  rw [UInt64.min_def]
  split
  · assumption
  · exact UInt64.le_refl b

theorem min_eq_left_iff : min a b = a ↔ a ≤ b := by
  refine ⟨fun h => ?_, fun h => by rw [UInt64.min_def, if_pos h]⟩
  rw [← h]
  exact min_le_right a b

end Address

namespace Flow.Block

variable {block : Block} {instructions rest : List Instruction} {i first : Instruction} {start stop bound : Address}

/-! ### What pushing does -/

theorem farthest_max : farthest (max start stop) instructions = max start (farthest stop instructions) := by
  refine Address.eq_of_forall_le_iff fun bound => ?_
  simp only [farthest_le_iff, Address.max_le_iff, and_assoc]

/-- Something ends at the given address or past it exactly if the farthest end does. -/
theorem le_farthest_iff :
    bound ≤ farthest first.nextAddress rest ↔ ∃ i ∈ first :: rest, bound ≤ i.nextAddress := by
  obtain ⟨hfirst, hrest⟩ := farthest_le_iff.mp (UInt64.le_refl (farthest first.nextAddress rest))
  constructor
  · intro h
    obtain hlast | ⟨i, hi, hlast⟩ := farthest_mem first.nextAddress rest
    · exact ⟨first, List.mem_cons_self, hlast ▸ h⟩
    · exact ⟨i, List.mem_cons_of_mem _ hi, hlast ▸ h⟩
  · rintro ⟨i, hi, h⟩
    obtain rfl | hi := List.mem_cons.mp hi
    · exact UInt64.le_trans h hfirst
    · exact UInt64.le_trans h (hrest i hi)

theorem not_vacant_push (block : Block) (i : Instruction) : ¬(block.push i).Vacant := by
  rintro ⟨hnone, -⟩
  exact List.append_ne_nil_of_right_ne_nil _ (List.cons_ne_nil i []) hnone

theorem pushAll_of_not_vacant (h : ¬block.Vacant) (instructions : List Instruction) : block.pushAll instructions =
    ⟨block.start, farthest block.stop instructions, block.instructions ++ instructions⟩ := by
  induction instructions generalizing block with
  | nil => simp [pushAll, farthest]
  | cons first rest ih =>
    rw [pushAll, List.foldl_cons, ← pushAll, ih (block.not_vacant_push first), push_of_not_vacant h, farthest_cons,
      List.append_assoc, List.singleton_append]

theorem pushAll_of_vacant (h : block.Vacant) (first : Instruction) (rest : List Instruction) :
    block.pushAll (first :: rest) = ⟨first.address, farthest block.stop (first :: rest), first :: rest⟩ := by
  rw [pushAll, List.foldl_cons, ← pushAll, pushAll_of_not_vacant (block.not_vacant_push first), push_of_vacant h,
    farthest_cons, List.singleton_append]

/-- A vacant block keeps its place as an end if nothing reaches past it. -/
theorem pushAll_of_vacant_eq (h : block.Vacant) (first : Instruction) (rest : List Instruction) :
    block.pushAll (first :: rest) =
      ⟨first.address, max block.stop (farthest first.nextAddress rest), first :: rest⟩ := by
  rw [pushAll_of_vacant h, farthest_cons, farthest_max]

/-! ### What pushing should do -/

/-- The block of one instruction. -/
def single (i : Instruction) : Block := ⟨i.address, i.nextAddress, [i]⟩

/-- The block with one more instruction at the end and a range to match: if the block is vacant, that of the
instruction, and else extended to both sides as far as the instruction needs. -/
def extend (block : Block) (i : Instruction) : Block :=
  if block.Vacant then single i
  else ⟨min block.start i.address, max block.stop i.nextAddress, block.instructions ++ [i]⟩

/-- The block extended by some instructions, one after the other. -/
def extendAll (block : Block) (instructions : List Instruction) : Block := instructions.foldl extend block

theorem not_vacant_single (i : Instruction) : ¬(single i).Vacant := by
  rintro ⟨hnone, -⟩
  cases hnone

theorem not_vacant_extend (block : Block) (i : Instruction) : ¬(block.extend i).Vacant := by
  unfold extend
  split
  · exact not_vacant_single i
  · rintro ⟨hnone, -⟩
    exact List.append_ne_nil_of_right_ne_nil _ (List.cons_ne_nil i []) hnone

/-- Only what is pushed before the start is left outside. -/
theorem push_eq_extend_iff (h : ¬block.Vacant) : block.push i = block.extend i ↔ block.start ≤ i.address := by
  rw [push_of_not_vacant h, extend, if_neg h, Block.mk.injEq, and_iff_left ⟨rfl, rfl⟩, eq_comm,
    Address.min_eq_left_iff]

/-- What is extended starts no later, and starts with nothing past its start. -/
theorem start_extendAll_le (h : ¬block.Vacant) (instructions : List Instruction) :
    (block.extendAll instructions).start ≤ block.start ∧
      ∀ i ∈ instructions, (block.extendAll instructions).start ≤ i.address := by
  induction instructions generalizing block with
  | nil => exact ⟨UInt64.le_refl _, by simp⟩
  | cons first rest ih =>
    obtain ⟨hblock, hrest⟩ := ih (block.not_vacant_extend first)
    have hstart : (block.extend first).start = min block.start first.address := by
      rw [extend, if_neg h]
    rw [hstart] at hblock
    refine ⟨UInt64.le_trans hblock (Address.min_le_left ..), List.forall_mem_cons.mpr ⟨?_, hrest⟩⟩
    exact UInt64.le_trans hblock (Address.min_le_right ..)

theorem pushAll_eq_extendAll_iff (h : ¬block.Vacant) :
    block.pushAll instructions = block.extendAll instructions ↔ ∀ i ∈ instructions, block.start ≤ i.address := by
  constructor
  · -- Pushing leaves the start where it was; extended, the block starts past nothing that was added.
    intro heq i hi
    have hstart : block.start = (block.extendAll instructions).start := by
      rw [← heq, pushAll_of_not_vacant h]
    rw [hstart]
    exact (start_extendAll_le h instructions).2 i hi
  · intro hle
    induction instructions generalizing block with
    | nil => rfl
    | cons first rest ih =>
      obtain ⟨hfirst, hrest⟩ := List.forall_mem_cons.mp hle
      have hstart : (block.push first).start = block.start := by
        rw [push_of_not_vacant h]
      show (block.push first).pushAll rest = (block.extend first).extendAll rest
      rw [← (push_eq_extend_iff h).mpr hfirst]
      exact ih (block.not_vacant_push first) fun i hi => hstart ▸ hrest i hi

theorem pushAll_single (first : Instruction) (rest : List Instruction) :
    (single first).pushAll rest = ⟨first.address, farthest first.nextAddress rest, first :: rest⟩ :=
  pushAll_of_not_vacant (not_vacant_single first) rest

theorem pushAll_eq_extendAll_iff_of_vacant (h : block.Vacant) :
    block.pushAll (first :: rest) = block.extendAll (first :: rest) ↔
      (∀ i ∈ rest, first.address ≤ i.address) ∧ ∃ i ∈ first :: rest, block.stop ≤ i.nextAddress := by
  have hsingle : ¬(single first).Vacant := not_vacant_single first
  -- From here on the extended block is one that is not vacant, and of the place where it was nothing is left.
  have hextend : block.extendAll (first :: rest) = (single first).extendAll rest := by
    show (block.extend first).extendAll rest = _
    rw [extend, if_pos h]
  rw [hextend, ← le_farthest_iff, pushAll_of_vacant_eq h]
  constructor
  · intro heq
    have hstart : first.address = ((single first).extendAll rest).start := congrArg Block.start heq
    have hle : ∀ i ∈ rest, first.address ≤ i.address :=
      fun i hi => hstart ▸ (start_extendAll_le hsingle rest).2 i hi
    rw [← (pushAll_eq_extendAll_iff hsingle).mpr hle, pushAll_single] at heq
    exact ⟨hle, Address.max_eq_right_iff.mp (congrArg Block.stop heq)⟩
  · rintro ⟨hle, hstop⟩
    rw [← (pushAll_eq_extendAll_iff hsingle).mpr hle, pushAll_single, Address.max_eq_right_iff.mpr hstop]

/-- What pushing makes of a block. The start of a block that is not vacant stays, and the end moves as far as needed,
so that the block is extended as it should be exactly if nothing is pushed before its start. A vacant block moves to the
first instruction but does not end before the place where it was, so that the range is that of the instructions exactly
if none of them is pushed before the first one and one of them reaches up to that place. If they are pushed in order,
this is the block made of them, with the end so far out if none of them reaches there. -/
theorem range_of_pushes (block : Block) :
    (∀ instructions : List Instruction, ¬block.Vacant →
        block.pushAll instructions =
            ⟨block.start, farthest block.stop instructions, block.instructions ++ instructions⟩ ∧
          (block.pushAll instructions = block.extendAll instructions ↔ ∀ i ∈ instructions, block.start ≤ i.address)) ∧
      (∀ (first : Instruction) (rest : List Instruction), block.Vacant →
        block.pushAll (first :: rest) = ⟨first.address, farthest block.stop (first :: rest), first :: rest⟩ ∧
          (block.pushAll (first :: rest) = block.extendAll (first :: rest) ↔
            (∀ i ∈ rest, first.address ≤ i.address) ∧ ∃ i ∈ first :: rest, block.stop ≤ i.nextAddress)) ∧
      ∀ instructions : List Instruction, block.Vacant → instructions ≠ [] →
        (instructions.Pairwise fun a b => a.address ≤ b.address) →
          ∃ made, ofInstructions? instructions = some made ∧
            block.pushAll instructions = { made with stop := max block.stop made.stop } ∧
            (block.pushAll instructions = made ↔ ∃ i ∈ instructions, block.stop ≤ i.nextAddress) := by
  refine ⟨fun instructions h => ⟨pushAll_of_not_vacant h instructions, pushAll_eq_extendAll_iff h⟩,
    fun first rest h => ⟨pushAll_of_vacant h first rest, pushAll_eq_extendAll_iff_of_vacant h⟩, ?_⟩
  rintro (_ | ⟨first, rest⟩) h hsome hsorted
  · exact absurd rfl hsome
  · refine ⟨_, ofInstructions?_of_pairwise hsorted, pushAll_of_vacant_eq h first rest, ?_⟩
    rw [pushAll_of_vacant_eq h, ← le_farthest_iff, Block.mk.injEq, and_iff_right rfl, and_iff_left rfl]
    exact Address.max_eq_right_iff

/-- A block made for a range, one that is vacant at the end of the first of two instructions, and these. -/
theorem range_of_pushes_adjacent :
    ¬Vacant { start := 0x100, stop := 0x102 } ∧ Vacant { start := 0x102, stop := 0x102 } ∧
      pushAll { start := 0x100, stop := 0x102 } [{ address := 0x102, size := 4 }, { address := 0x100, size := 2 }] =
        extendAll { start := 0x100, stop := 0x102 } [{ address := 0x102, size := 4 }, { address := 0x100, size := 2 }] ∧
      pushAll { start := 0x102, stop := 0x102 } [{ address := 0x100, size := 2 }] =
        extendAll { start := 0x102, stop := 0x102 } [{ address := 0x100, size := 2 }] ∧
      ∃ made, ofInstructions? [{ address := 0x100, size := 2 }, { address := 0x102, size := 4 }] = some made ∧
        pushAll { start := 0x102, stop := 0x102 } [{ address := 0x100, size := 2 }, { address := 0x102, size := 4 }] =
          made := by
  have hwide : ¬Vacant { start := 0x100, stop := 0x102 } := by decide
  have hvacant : Vacant { start := 0x102, stop := 0x102 } := by decide
  obtain ⟨hpushes, -, -⟩ := range_of_pushes { start := 0x100, stop := 0x102 }
  obtain ⟨-, hmoves, hmakes⟩ := range_of_pushes { start := 0x102, stop := 0x102 }
  obtain ⟨made, hmade, -, heq⟩ :=
    hmakes [{ address := 0x100, size := 2 }, { address := 0x102, size := 4 }] hvacant (by decide) (by decide)
  exact ⟨hwide, hvacant, (hpushes _ hwide).2.mpr (by decide), (hmoves _ [] hvacant).2.mpr (by decide), made, hmade,
    heq.mpr (by decide)⟩

/-- A vacant block that moves back to an instruction still ends where it was, and covers the gap; any other does not
cover what is pushed before its start. -/
theorem push_not_extends :
    (¬∀ (block : Block) (i : Instruction), block.start ≤ block.stop → block.Vacant → block.push i = block.extend i) ∧
      (¬∀ (block : Block) (i : Instruction), block.start ≤ block.stop → ¬block.Vacant →
        block.push i = block.extend i) ∧
      ¬∀ (start : Address) (instructions : List Instruction), instructions ≠ [] →
        (instructions.Pairwise fun a b => a.address ≤ b.address) →
          ofInstructions? instructions = some (pushAll { start, stop := start } instructions) := by
  refine ⟨fun h => ?_, fun h => ?_, fun h => ?_⟩
  · have heq := h { start := 0x3000, stop := 0x3000 } { address := 0x2000, size := 4 } (by decide) (by decide)
    exact absurd (congrArg Block.stop heq) (by decide)
  · have heq := h { start := 0x2000, stop := 0x3000 } { address := 0x1000, size := 4 } (by decide) (by decide)
    exact absurd (congrArg Block.start heq) (by decide)
  · have heq := h 0x3000 [{ address := 0x2000, size := 4 }] (by decide) (by decide)
    rw [ofInstructions?_of_pairwise (by decide), Option.some.injEq] at heq
    exact absurd (congrArg Block.stop heq) (by decide)

end Flow.Block

end Disassembly
