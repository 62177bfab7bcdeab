import Disassembly.Proofs.Attribution
import Disassembly.Proofs.Export.Run
import Disassembly.Proofs.Flow.Block

/-!
# Places inside an instruction

A reference may be attributed to the place before an operand, where there is no expression. This does not happen in a
pass: all instructions in its table were lifted (`Pass.Took.exists_lifts`), and a node under a memory access then has
the access before it in the same operand (`Lifts.inside`). So `-1` is exported only where no place was found
(`Pass.locate_inside`).
-/

namespace Disassembly

open Disassembly.Expression Disassembly.Flow

/-! ### Coordinates -/

namespace Position

theorem coordinate_ne_neg_one {n : Int} (h : 0 ≤ n) : coordinate n ≠ -1 := by
  unfold coordinate
  split
  · rename_i hfits
    rw [Int32.toInt_minValue, Int32.toInt_maxValue] at hfits
    rw [ne_eq, ← Int32.toInt_inj, Int32.toInt_ofInt_of_le hfits.1 (by omega)]
    show n ≠ -1
    omega
  · decide

/-- In the exported form `-1` stands in a coordinate only if there is no place, and then in both. -/
def Plain (found : Option Position) : Prop :=
  (coordinates found).1 = -1 ∨ (coordinates found).2 = -1 → found = none ∧ coordinates found = (-1, -1)

theorem plain_of_nonneg {found : Option Position} (h : ∀ position ∈ found, 0 ≤ position.expression) :
    Plain found := by
  intro hcoordinate
  cases found with
  | none => exact ⟨rfl, rfl⟩
  | some position =>
    obtain hoperand | hexpression := hcoordinate
    · exact absurd hoperand (coordinate_ne_neg_one (Int.natCast_nonneg _))
    · exact absurd hexpression (coordinate_ne_neg_one (h position rfl))

end Position

/-- The place is that of an expression of the instruction. An instruction whose only operand is empty has one place
all the same, the start of this operand. -/
structure Instruction.Inside (i : Instruction) (position : Position) : Prop where
  /-- There is such an operand. -/
  operand_lt : position.operand < i.operandCount
  /-- The place is not before its start, -/
  expression_nonneg : 0 ≤ position.expression
  /-- and there is an expression. -/
  expression_lt {operand : Operand} : i.operands[position.operand]? = some operand →
    position.expression < operand.length ∨ position = ⟨0, 0⟩ ∧ i.operands = [[]]

theorem Instruction.inside_of_getElem? {i : Instruction} {m n : Nat} {operand : Operand}
    (hoperand : i.operands[m]? = some operand) (hlt : n < operand.length) : i.Inside ⟨m, n⟩ where
  operand_lt := (List.getElem?_eq_some_iff.mp hoperand).1
  expression_nonneg := Int.natCast_nonneg n
  expression_lt {other} hother := by
    obtain rfl : operand = other := by simpa [hoperand] using hother
    exact .inl (Int.ofNat_lt.mpr hlt)

theorem Instruction.At.inside {i : Instruction} {store : Store} {position : Position} {node : Node}
    (h : i.At store position node) : i.Inside position := by
  obtain ⟨hoperand, hid, -⟩ := h
  exact inside_of_getElem? hoperand (List.getElem?_eq_some_iff.mp hid).1

namespace Export

/-! ### Lifted instructions -/

namespace Lifts

variable {s : Store} {decoded : DecodedInstruction} {i : Instruction} {target : Address} {position : Position}
  {node : Node}

/-- In an operand that was stored a node comes after its parent, and so does not open the operand. -/
theorem inside_before (h : Lifts s decoded i) (hstands : i.At s position node) (hunder : s.Under node) :
    i.Inside position.before := by
  obtain @⟨m, n, operand, id, _, hoperand, hid, hnode⟩ := hstands
  obtain ⟨parent, hparent, -⟩ := hunder
  obtain ⟨drafts, -, hspells⟩ := exists_of_mem_of_forall₂ h.operands.flip (List.mem_of_getElem? hoperand)
  obtain ⟨hlt, -⟩ := List.getElem?_eq_some_iff.mp hid
  have hdraft := List.getElem?_eq_getElem (hspells.length_eq ▸ hlt)
  obtain ⟨hearlier, id', node', hid', hnode', -, hplace⟩ := hspells.exists_node hdraft
  obtain rfl : id = id' := by simpa [hid] using hid'
  obtain rfl : node = node' := by simpa [hnode] using hnode'
  rw [Option.mem_def.mp hparent, eq_comm, Option.bind_eq_some_iff] at hplace
  obtain ⟨place, hdraftparent, -⟩ := hplace
  have hpos : 0 < n := Nat.zero_lt_of_lt (hearlier place hdraftparent)
  have hbefore : (⟨m, n⟩ : Position).before = ⟨m, (n - 1 : Nat)⟩ := by
    simp only [Position.before, Position.mk.injEq, true_and]
    omega
  rw [hbefore]
  exact Instruction.inside_of_getElem? hoperand (by omega)

/-- A place that the rules find in a lifted instruction lies inside. -/
theorem inside (h : Lifts s decoded i) (hplace : i.Attributes s target (some position)) : i.Inside position := by
  cases hplace with
  | exact hfirst => exact hfirst.stands.inside
  | underDereference _ hfirst =>
    split
    · exact hfirst.stands.inside
    · exact h.inside_before hfirst.stands hfirst.holds
  | onlyOperand _ _ hcount =>
    obtain ⟨operand, hoperands⟩ := List.length_eq_one_iff.mp hcount
    refine ⟨by rw [hcount]; exact Nat.one_pos, le_rfl, fun {other} hother => ?_⟩
    obtain rfl : operand = other := by simpa [hoperands] using hother
    obtain rfl | hne := eq_or_ne operand []
    · exact .inr ⟨rfl, hoperands⟩
    · exact .inl (Int.ofNat_lt.mpr (List.length_pos_iff.mpr hne))
  | firstImmediate _ _ _ hfirst => exact hfirst.stands.inside

end Lifts

/-! ### In a pass -/

/-- An instruction that is found stands in a block of a function of the table. -/
theorem exists_of_instructionAt? {table : FunctionTable} {address : Address} {i : Instruction}
    (h : table.instructionAt? address = some i) :
    ∃ entry f, table.get? entry = some f ∧ ∃ block ∈ f.blocks, i ∈ block.instructions := by
  obtain ⟨f, hf, hi⟩ := Option.bind_eq_some_iff.mp h
  obtain ⟨entry, -, hget⟩ := Option.bind_eq_some_iff.mp hf
  obtain ⟨block, hblock, hi⟩ := Option.bind_eq_some_iff.mp hi
  obtain ⟨n, -, hblock⟩ := Option.bind_eq_some_iff.mp hblock
  exact ⟨entry, f, hget, block, List.mem_of_getElem? hblock, (Block.mem_of_instructionAt? hi).1⟩

namespace Pass

variable {p start : Pass} {functions : List DecodedFunction} {lifted : List (List (List Instruction))}
  {i : Instruction}

theorem attributions_ensureFinalized (p : Pass) : p.ensureFinalized.attributions = p.attributions := by
  unfold ensureFinalized
  split <;> rfl

/-- The functions of the pass have the blocks that were made of them, in some order. -/
def BlocksKept (f g : Function) : Prop := g.blocks.Perm f.blocks

theorem BlocksKept.refl (f : Function) : BlocksKept f f := List.Perm.refl f.blocks

theorem BlocksKept.final {f g : Function} (h : BlocksKept f g) (settings : Settings) :
    BlocksKept f (settings.final g) := by
  unfold BlocksKept
  rw [settings.blocks_final]
  exact (List.mergeSort_perm ..).trans h

/-- All instructions in the table of a pass were lifted. -/
theorem Took.exists_lifts (h : Took BlocksKept start functions lifted p) {address : Address}
    (hi : p.table.instructionAt? address = some i) : ∃ decoded, Lifts p.store decoded i := by
  obtain ⟨entry, f, hget, block, hblock, hi⟩ := exists_of_instructionAt? hi
  obtain ⟨decoded, hdecoded, rfl⟩ := h.exists_mem entry f hget
  obtain ⟨blocks, -, hfiled⟩ := exists_of_mem_of_forall₂ h.filed hdecoded
  obtain ⟨g, hg, hkept⟩ := hfiled.exists_get?
  obtain rfl : f = g := by simpa [hget] using hg
  obtain ⟨instructions, hinstructions, hmade⟩ := List.mem_filterMap.mp (hkept.mem_iff.mp hblock)
  obtain ⟨decodedBlock, -, hlifts⟩ := exists_of_mem_of_forall₂ hfiled.lifts.flip hinstructions
  obtain ⟨raw, -, hraw⟩ := exists_of_mem_of_forall₂ hlifts.flip ((Block.mem_ofInstructions? hmade).mp hi)
  exact ⟨raw, hraw⟩

theorem Reachable.exists_took (h : p.Reachable) :
    ∃ start functions lifted, Took BlocksKept start functions lifted p := by
  obtain ⟨settings, store, calls, hstore, rfl⟩ := h
  obtain ⟨lifted, htook⟩ := (Took.nil (R := BlocksKept) settings hstore).after .refl
    (fun _ _ hkept => hkept.final settings) calls
  exact ⟨_, _, _, htook⟩

/-- A place that is found lies inside the instruction that the reference comes from. -/
theorem Reachable.inside (h : p.Reachable) {reference : Reference} {position : Position}
    (hlocate : (p.locate reference).1 = some position) :
    ∃ i, (p.locate reference).2.table.instructionAt? reference.source = some i ∧ i.Inside position := by
  obtain ⟨start, functions, lifted, htook⟩ := h.exists_took
  have hlocated := htook.locate (fun _ _ hkept => hkept.final start.settings) reference
  obtain ⟨i, hi, hplace⟩ := Option.bind_eq_some_iff.mp hlocate
  obtain ⟨decoded, hlifts⟩ := hlocated.exists_lifts hi
  exact ⟨i, hi, hlifts.inside (Instruction.locate?_eq_iff.mp hplace)⟩

theorem Reachable.plain (h : p.Reachable) (reference : Reference) : Position.Plain (p.locate reference).1 := by
  refine Position.plain_of_nonneg fun position hposition => ?_
  obtain ⟨i, -, hinside⟩ := h.inside hposition
  exact hinside.expression_nonneg

/-- A call records the place that it finds, if it is for a reference, and keeps what was recorded. -/
theorem plain_attributions_answer (h : p.Reachable)
    (hplain : ∀ attribution ∈ p.attributions, Position.Plain attribution.position) (call : Call) :
    ∀ attribution ∈ (p.answer call).2.attributions, Position.Plain attribution.position := by
  cases call with
  | add decoded =>
    obtain ⟨-, hadd⟩ | ⟨-, error, u, -, hadd⟩ | ⟨-, f, u, -, hadd⟩ := p.add_cases decoded
    · rwa [answer, hadd]
    · rwa [answer, hadd]
    · rwa [answer, hadd]
  | finalize => exact hplain
  | locate reference =>
    intro attribution hmem
    obtain hold | rfl := Array.mem_push.mp hmem
    · rw [attributions_ensureFinalized] at hold
      exact hplain attribution hold
    · exact h.plain reference

theorem Reachable.plain_attributions (h : p.Reachable) :
    ∀ attribution ∈ p.attributions, Position.Plain attribution.position := by
  obtain ⟨settings, store, calls, hstore, rfl⟩ := h
  induction calls using List.reverseRecOn with
  | nil =>
    intro attribution hmem
    cases Array.not_mem_empty attribution hmem
  | append_singleton calls call ih =>
    rw [after, List.foldl_append]
    exact plain_attributions_answer ⟨settings, store, calls, hstore, rfl⟩ ih call

/-- In a pass, whatever functions it took in and refused, a reference is attributed to a place inside the instruction
that it comes from, if to any. So its exported form has `-1` in a coordinate only if there is no place, and then in
both; and the same is true of all references in the model. -/
theorem Reachable.locate_inside (h : p.Reachable) :
    (∀ reference position, (p.locate reference).1 = some position →
        ∃ i, (p.locate reference).2.table.instructionAt? reference.source = some i ∧ i.Inside position) ∧
      (∀ reference, Position.Plain (p.locate reference).1) ∧
      ∀ attribution ∈ p.snapshot.attributions, Position.Plain attribution.position := by
  refine ⟨fun reference position => h.inside, h.plain, fun attribution hmem => ?_⟩
  refine h.plain_attributions attribution ?_
  rwa [← attributions_ensureFinalized]

/-- A function of one instruction whose only operand is empty. -/
def blank : DecodedFunction where
  entry := 0x5000
  blocks := [[{ address := 0x5000, size := 1, operands := [[]] }]]

/-- Both passes have refused a function. In the one a reference is attributed to the memory access, one before the
register under it, in the other to the start of the empty operand. -/
theorem locate_inside_nameless :
    let p := reused.after [.add nameless, .add (spin 0x3000)]
    let q := reused.after [.add nameless, .add blank]
    (p.locate ⟨0x3000, 0x7000⟩).1 = some ⟨1, 1⟩ ∧ (q.locate ⟨0x5000, 0x7000⟩).1 = some ⟨0, 0⟩ ∧
      (∃ i, (p.locate ⟨0x3000, 0x7000⟩).2.table.instructionAt? 0x3000 = some i ∧ i.Inside ⟨1, 1⟩) ∧
      ∃ i, (q.locate ⟨0x5000, 0x7000⟩).2.table.instructionAt? 0x5000 = some i ∧ i.Inside ⟨0, 0⟩ := by
  intro p q
  have hreach (calls : List Call) : (reused.after calls).Reachable :=
    ⟨_, _, calls, Store.Reachable.empty.step (.internOperand _ _), rfl⟩
  have haccess : (p.locate ⟨0x3000, 0x7000⟩).1 = some ⟨1, 1⟩ := by decide +kernel
  have hblank : (q.locate ⟨0x5000, 0x7000⟩).1 = some ⟨0, 0⟩ := by decide +kernel
  obtain ⟨hp, -, -⟩ := (hreach _).locate_inside
  obtain ⟨hq, -, -⟩ := (hreach _).locate_inside
  exact ⟨haccess, hblank, hp _ _ haccess, hq _ _ hblank⟩

end Pass

end Export

end Disassembly
