import Disassembly.Export.Lifting
import Disassembly.Proofs.Expression.Numbering
import Disassembly.Proofs.Expression.Rollback
import Disassembly.Proofs.Flow.Block

/-!
# What lifting does

Lifting is one loop inside another three times over, so that what a step of a loop does is stated once for any
loop (`each_lifted` if all steps succeed, `each_eq_error` if one fails) and then used for the operands of an
instruction, the instructions of a block and the blocks of a function. A function that is lifted consists of
instructions that stand for the decoded ones in the store (`function_eq_ok`).
-/

namespace Disassembly

open Disassembly.Expression Disassembly.Flow

/-- The ids in the operands of an instruction, in reading order. -/
def Instruction.ids (i : Instruction) : List NodeId := i.operands.flatten

namespace Export

/-! ### Decoded functions and what is made of them -/

/-- The drafts in the operands of a decoded instruction, in reading order. -/
def DecodedInstruction.drafts (decoded : DecodedInstruction) : List (Draft Nat) := decoded.operands.flatten

namespace DecodedFunction

/-- The operands of a decoded function, in reading order. -/
def operands (decoded : DecodedFunction) : List (List (Draft Nat)) :=
  decoded.blocks.flatMap fun block => block.flatMap DecodedInstruction.operands

/-- The drafts in the operands of a decoded function, in reading order. -/
def drafts (decoded : DecodedFunction) : List (Draft Nat) :=
  decoded.blocks.flatMap fun block => block.flatMap DecodedInstruction.drafts

/-- The function with the blocks of the given instructions; where there are none no block is made. -/
def assemble (decoded : DecodedFunction) (blocks : List (List Instruction)) : Function where
  entry := decoded.entry
  blocks := blocks.filterMap Block.ofInstructions?
  edges := decoded.edges
  name := decoded.name
  demangledName := decoded.demangledName
  moduleName := decoded.moduleName
  type := decoded.type.getD .unassigned
  libraryIndex := decoded.libraryIndex.getD (-1)

theorem mem_drafts {decoded : DecodedFunction} {operand : List (Draft Nat)} {draft : Draft Nat}
    (hdraft : draft ∈ operand) (hoperand : operand ∈ decoded.operands) : draft ∈ decoded.drafts := by
  simp only [operands, drafts, DecodedInstruction.drafts, List.mem_flatMap, List.mem_flatten] at *
  obtain ⟨block, hblock, i, hi, hoperand⟩ := hoperand
  exact ⟨block, hblock, i, hi, operand, hoperand, hdraft⟩

end DecodedFunction

/-- The instruction is the decoded one, and the store spells its operands. -/
structure Lifts (s : Store) (decoded : DecodedInstruction) (i : Instruction) : Prop where
  /-- It has the same address, -/
  address_eq : i.address = decoded.address
  /-- the same size -/
  size_eq : i.size = decoded.size
  /-- and the same mnemonic. -/
  mnemonic_eq : i.mnemonic = decoded.mnemonic
  /-- Its operands are those decoded, in order, and each has a node for every draft. -/
  operands : List.Forall₂ s.Spells decoded.operands i.operands

theorem Lifts.of_get? {s t : Store} {decoded : DecodedInstruction} {i : Instruction} (h : Lifts s decoded i)
    (hkeep : ∀ id node, s.get? id = some node → t.get? id = some node) : Lifts t decoded i :=
  { h with operands := h.operands.imp fun _ _ hspells => hspells.of_get? fun id _ => hkeep id }

namespace Lifting

variable {α β γ : Type} {step : Lifting → α → Except Expression.Error β × Lifting} {s t u : Lifting}
  {a : α} {b : β} {as : List α} {bs : List β} {error : Expression.Error}

/-! ### Loops -/

theorem each_cons_of_error (h : step s a = (.error error, u)) (as : List α) :
    s.each step (a :: as) = (.error error, u) := by
  rw [each, h]

theorem each_cons_of_ok (h : step s a = (.ok b, u)) (as : List α) :
    s.each step (a :: as) = ((u.each step as).1.map (b :: ·), (u.each step as).2) := by
  rw [each, h]
  dsimp only
  rcases u.each step as with ⟨rest, t⟩
  cases rest <;> rfl

theorem each_cons_eq_ok (h : s.each step (a :: as) = (.ok bs, t)) :
    ∃ b rest u, step s a = (.ok b, u) ∧ u.each step as = (.ok rest, t) ∧ bs = b :: rest := by
  rcases hstep : step s a with ⟨result, u⟩
  cases result with
  | error error =>
    rw [each_cons_of_error hstep] at h
    cases h
  | ok b =>
    rw [each_cons_of_ok hstep] at h
    rcases hrest : u.each step as with ⟨rest, t'⟩
    rw [hrest] at h
    cases rest with
    | error error => cases h
    | ok rest =>
      cases h
      exact ⟨b, rest, u, rfl, hrest, rfl⟩

/-- A loop that fails has succeeded up to the item at which a step fails. -/
theorem each_eq_error (h : s.each step as = (.error error, t)) :
    ∃ before a after bs u, as = before ++ a :: after ∧ s.each step before = (.ok bs, u) ∧
      step u a = (.error error, t) := by
  induction as generalizing s with
  | nil => cases h
  | cons a as ih =>
    rcases hstep : step s a with ⟨result, u⟩
    cases result with
    | error error =>
      rw [each_cons_of_error hstep] at h
      cases h
      exact ⟨[], a, as, [], s, rfl, rfl, hstep⟩
    | ok b =>
      rw [each_cons_of_ok hstep] at h
      rcases hrest : u.each step as with ⟨rest, t'⟩
      rw [hrest] at h
      cases rest with
      | ok rest => cases h
      | error error =>
        cases h
        obtain ⟨before, a', after, bs, v, rfl, hbefore, hfail⟩ := ih hrest
        refine ⟨a :: before, a', after, b :: bs, v, rfl, ?_, hfail⟩
        rw [each_cons_of_ok hstep, hbefore]
        rfl

/-- What is made of each result may as well be made of it in the loop. -/
theorem each_map {f : β → γ} (s : Lifting) (as : List α) :
    s.each (fun s a => ((step s a).1.map f, (step s a).2)) as =
      ((s.each step as).1.map (List.map f), (s.each step as).2) := by
  induction as generalizing s with
  | nil => rfl
  | cons a as ih =>
    rcases hstep : step s a with ⟨result, u⟩
    cases result with
    | error error =>
      rw [each_cons_of_error hstep]
      exact each_cons_of_error (by rw [hstep]; rfl) as
    | ok b =>
      rw [each_cons_of_ok hstep, each_cons_of_ok (b := f b) (u := u) (by rw [hstep]; rfl), ih]
      cases (u.each step as).1 <;> rfl

theorem each_grows (hstep : ∀ (s : Lifting) a, s.store.Grows (step s a).2.store) (s : Lifting)
    (as : List α) : s.store.Grows (s.each step as).2.store := by
  induction as generalizing s with
  | nil => exact .refl _
  | cons a as ih =>
    have hfirst := hstep s a
    rcases hresult : step s a with ⟨result, u⟩
    rw [hresult] at hfirst
    cases result with
    | error error =>
      rw [each_cons_of_error hresult]
      exact hfirst
    | ok b =>
      rw [each_cons_of_ok hresult]
      exact hfirst.trans (ih u)

/-- A loop all of whose steps succeed: the requests of the steps come one after the other, and what a step
gives stands for its item also in the store of the end. -/
theorem each_lifted (drafts : α → List (Draft Nat)) (ids : β → List NodeId) (Q : Store → α → β → Prop)
    (hgrows : ∀ (s : Lifting) a, s.store.Grows (step s a).2.store)
    (hkeep : ∀ {s t : Store} {a b}, Q s a b → s.Grows t → Q t a b)
    (hstep : ∀ {s t : Lifting} {a b}, s.store.Tidy → step s a = (.ok b, t) →
      s.store.Stored (drafts a) (ids b) t.store ∧ Q t.store a b)
    (hs : s.store.Tidy) (h : s.each step as = (.ok bs, t)) :
    s.store.Stored (as.flatMap drafts) (bs.flatMap ids) t.store ∧ List.Forall₂ (Q t.store) as bs := by
  induction as generalizing s bs with
  | nil =>
    cases h
    exact ⟨.nil _, .nil⟩
  | cons a as ih =>
    obtain ⟨b, rest, u, hfirst, hrest, rfl⟩ := each_cons_eq_ok h
    have hsu : s.store.Grows u.store := by simpa [hfirst] using hgrows s a
    have hut : u.store.Grows t.store := by simpa [hrest] using each_grows hgrows u as
    obtain ⟨hstored, hq⟩ := hstep hs hfirst
    obtain ⟨hstored', hqs⟩ := ih (hsu.tidy hs) hrest
    exact ⟨hstored.append hstored', .cons (hkeep hq hut) hqs⟩

/-- A loop succeeds if no step can fail as long as an invariant of the store holds that the steps keep. -/
theorem exists_each_eq_ok {Inv : Store → Prop} {Good : α → Prop}
    (hstep : ∀ {s : Lifting} {a}, Inv s.store → Good a → ∃ b t, step s a = (.ok b, t) ∧ Inv t.store)
    (hs : Inv s.store) (hgood : ∀ a ∈ as, Good a) :
    ∃ bs t, s.each step as = (.ok bs, t) ∧ Inv t.store := by
  induction as generalizing s with
  | nil => exact ⟨[], s, rfl, hs⟩
  | cons a as ih =>
    obtain ⟨ha, has⟩ := List.forall_mem_cons.mp hgood
    obtain ⟨b, u, hfirst, hu⟩ := hstep hs ha
    obtain ⟨bs, t, hrest, ht⟩ := ih hu has
    refine ⟨b :: bs, t, ?_, ht⟩
    rw [each_cons_of_ok hfirst, hrest]
    rfl

/-! ### Alike states -/

/-- The states agree in everything but how many requests were answered with a node that was there. -/
structure Alike (s t : Lifting) : Prop where
  /-- Their stores are alike, -/
  store : s.store.Alike t.store
  /-- and as many empty blocks were left out. -/
  emptyBlocks_eq : s.emptyBlocks = t.emptyBlocks

theorem each_alike
    (hstep : ∀ {s t : Lifting} (a), s.Alike t → (step s a).1 = (step t a).1 ∧ (step s a).2.Alike (step t a).2)
    (h : s.Alike t) (as : List α) :
    (s.each step as).1 = (t.each step as).1 ∧ (s.each step as).2.Alike (t.each step as).2 := by
  induction as generalizing s t with
  | nil => exact ⟨rfl, h⟩
  | cons a as ih =>
    obtain ⟨hresult, hnext⟩ := hstep a h
    rcases hs : step s a with ⟨result, s'⟩
    rcases ht : step t a with ⟨result', t'⟩
    rw [hs, ht] at hresult hnext
    obtain rfl : result = result' := hresult
    cases result with
    | error error =>
      rw [each_cons_of_error hs, each_cons_of_error ht]
      exact ⟨rfl, hnext⟩
    | ok b =>
      obtain ⟨hrest, hend⟩ := ih hnext
      rw [each_cons_of_ok hs, each_cons_of_ok ht, hrest]
      exact ⟨rfl, hend⟩

/-! ### Operands and instructions -/

variable {drafts : List (Draft Nat)} {ids : List NodeId} {decoded : DecodedInstruction} {i : Instruction}

theorem operand_grows (s : Lifting) (drafts : List (Draft Nat)) : s.store.Grows (s.operand drafts).2.store :=
  .internOperand _ drafts

theorem operand_alike (h : s.Alike t) (drafts : List (Draft Nat)) :
    (s.operand drafts).1 = (t.operand drafts).1 ∧ (s.operand drafts).2.Alike (t.operand drafts).2 :=
  ⟨(h.store.internOperand drafts).1, (h.store.internOperand drafts).2, h.emptyBlocks_eq⟩

theorem operand_eq_ok (hs : s.store.Tidy) (h : s.operand drafts = (.ok ids, t)) :
    s.store.Stored drafts ids t.store ∧ t.store.Spells drafts ids := by
  obtain ⟨hids, rfl⟩ := Prod.mk.injEq _ _ _ _ ▸ h
  have hintern : s.store.internOperand drafts = (.ok ids, (s.store.internOperand drafts).2) :=
    Prod.ext hids rfl
  refine ⟨hs.toWellFormed.stored hintern, ?_⟩
  have hspells := Store.Spells.nil.internAfter hs.toWellFormed (congrArg Prod.fst hintern)
  rwa [← Store.internOperand, hintern] at hspells

theorem instruction_grows (s : Lifting) (decoded : DecodedInstruction) :
    s.store.Grows (s.instruction decoded).2.store :=
  each_grows operand_grows s decoded.operands

theorem instruction_alike (decoded : DecodedInstruction) (h : s.Alike t) :
    (s.instruction decoded).1 = (t.instruction decoded).1 ∧
      (s.instruction decoded).2.Alike (t.instruction decoded).2 := by
  obtain ⟨hresult, hend⟩ := each_alike (fun drafts h => operand_alike h drafts) h decoded.operands
  exact ⟨congrArg (Except.map _) hresult, hend⟩

theorem instruction_eq_ok (hs : s.store.Tidy) (h : s.instruction decoded = (.ok i, t)) :
    s.store.Stored decoded.drafts i.ids t.store ∧ Lifts t.store decoded i := by
  unfold instruction at h
  rcases hrun : s.each operand decoded.operands with ⟨result, u⟩
  rw [hrun] at h
  cases result with
  | error error => cases h
  | ok operands =>
    cases h
    obtain ⟨hstored, hspells⟩ :=
      each_lifted id id Store.Spells operand_grows (fun h hgrows => h.of_get? fun _ _ _ => hgrows.get?)
        operand_eq_ok hs hrun
    rw [List.flatMap_id, List.flatMap_id] at hstored
    exact ⟨hstored, rfl, rfl, rfl, hspells⟩

/-! ### Blocks -/

variable {decodedBlock : DecodedBlock} {instructions : List Instruction}

/-- Lifts the instructions of a block, and counts the block if it has none. -/
def run (s : Lifting) (decoded : DecodedBlock) : Except Expression.Error (List Instruction) × Lifting :=
  ((s.each instruction decoded).1, {
    store := (s.each instruction decoded).2.store
    emptyBlocks := (s.each instruction decoded).2.emptyBlocks + if decoded.isEmpty then 1 else 0 })

/-- The block is made of the instructions of a run. -/
theorem block_eq_run :
    block = fun s decoded => ((run s decoded).1.map Block.ofInstructions?, (run s decoded).2) := by
  funext s decoded
  cases decoded with
  | nil =>
    have hnone : Block.ofInstructions? [] = none := Block.ofInstructions?_eq_none_iff.mpr rfl
    simp only [block, run, each, hnone, Except.map]
    rfl
  | cons first rest =>
    unfold block run
    rcases hrun : s.each instruction (first :: rest) with ⟨result, t⟩
    cases result with
    | error error => rfl
    | ok instructions =>
      obtain ⟨i, others, u, -, -, rfl⟩ := each_cons_eq_ok hrun
      dsimp only [Except.map]
      cases hblock : Block.ofInstructions? (i :: others) with
      | some block => rfl
      | none => cases Block.ofInstructions?_eq_none_iff.mp hblock

theorem run_grows (s : Lifting) (decoded : DecodedBlock) : s.store.Grows (s.run decoded).2.store :=
  each_grows instruction_grows s decoded

theorem run_alike (decoded : DecodedBlock) (h : s.Alike t) :
    (s.run decoded).1 = (t.run decoded).1 ∧ (s.run decoded).2.Alike (t.run decoded).2 := by
  obtain ⟨hresult, hend⟩ := each_alike (fun decoded h => instruction_alike decoded h) h decoded
  exact ⟨hresult, hend.store, congrArg (· + _) hend.emptyBlocks_eq⟩

theorem run_eq_ok (hs : s.store.Tidy) (h : s.run decodedBlock = (.ok instructions, t)) :
    s.store.Stored (decodedBlock.flatMap DecodedInstruction.drafts) (instructions.flatMap Instruction.ids)
        t.store ∧
      List.Forall₂ (Lifts t.store) decodedBlock instructions := by
  unfold run at h
  rcases hrun : s.each instruction decodedBlock with ⟨result, u⟩
  rw [hrun] at h
  cases h
  obtain ⟨hstored, hlifts⟩ := each_lifted DecodedInstruction.drafts Instruction.ids Lifts instruction_grows
    (fun h hgrows => h.of_get? fun _ _ => hgrows.get?) instruction_eq_ok hs hrun
  exact ⟨hstored, hlifts⟩

theorem emptyBlocks_operand (s : Lifting) (drafts : List (Draft Nat)) :
    (s.operand drafts).2.emptyBlocks = s.emptyBlocks := rfl

theorem emptyBlocks_each (hstep : ∀ (s : Lifting) a, (step s a).2.emptyBlocks = s.emptyBlocks) (s : Lifting)
    (as : List α) : (s.each step as).2.emptyBlocks = s.emptyBlocks := by
  induction as generalizing s with
  | nil => rfl
  | cons a as ih =>
    have hfirst := hstep s a
    rcases hresult : step s a with ⟨result, u⟩
    rw [hresult] at hfirst
    cases result with
    | error error =>
      rw [each_cons_of_error hresult]
      exact hfirst
    | ok b =>
      rw [each_cons_of_ok hresult]
      exact (ih u).trans hfirst

theorem emptyBlocks_instruction (s : Lifting) (decoded : DecodedInstruction) :
    (s.instruction decoded).2.emptyBlocks = s.emptyBlocks :=
  emptyBlocks_each emptyBlocks_operand s decoded.operands

theorem emptyBlocks_run (s : Lifting) (decoded : DecodedBlock) :
    (s.run decoded).2.emptyBlocks = s.emptyBlocks + if decoded.isEmpty then 1 else 0 :=
  congrArg (· + _) (emptyBlocks_each emptyBlocks_instruction s decoded)

/-- Of the blocks that are lifted those without instructions are counted. -/
theorem emptyBlocks_each_run {blocks : List DecodedBlock} {lifted : List (List Instruction)}
    (h : s.each run blocks = (.ok lifted, t)) :
    t.emptyBlocks = s.emptyBlocks + blocks.countP List.isEmpty := by
  induction blocks generalizing s lifted with
  | nil =>
    cases h
    rfl
  | cons decoded blocks ih =>
    obtain ⟨instructions, rest, u, hfirst, hrest, rfl⟩ := each_cons_eq_ok h
    have hu : u.emptyBlocks = s.emptyBlocks + if decoded.isEmpty then 1 else 0 := by
      rw [← emptyBlocks_run, hfirst]
    rw [ih hrest, hu, List.countP_cons, Nat.add_assoc, Nat.add_comm (List.countP _ _)]

/-! ### Functions -/

variable {decodedFunction : DecodedFunction} {f : Function}

theorem function_eq (s : Lifting) (decoded : DecodedFunction) :
    s.function decoded =
      ((s.each run decoded.blocks).1.map decoded.assemble, (s.each run decoded.blocks).2) := by
  unfold function
  rw [block_eq_run, each_map]
  cases (s.each run decoded.blocks).1 with
  | error error => rfl
  | ok lifted =>
    simp only [Except.map, DecodedFunction.assemble, List.filterMap_map]
    rfl

/-- Whatever became of its operands, a function that is lifted is assembled from what was decoded. -/
theorem exists_assemble (h : s.function decodedFunction = (.ok f, t)) :
    ∃ blocks, f = decodedFunction.assemble blocks := by
  rw [function_eq] at h
  cases hrun : (s.each run decodedFunction.blocks).1 with
  | error error => simp [hrun, Except.map] at h
  | ok blocks =>
    simp only [hrun, Except.map, Prod.mk.injEq, Except.ok.injEq] at h
    exact ⟨blocks, h.1.symm⟩

theorem function_grows (s : Lifting) (decoded : DecodedFunction) :
    s.store.Grows (s.function decoded).2.store := by
  rw [function_eq]
  exact each_grows run_grows s decoded.blocks

theorem function_alike (h : s.Alike t) (decoded : DecodedFunction) :
    (s.function decoded).1 = (t.function decoded).1 ∧ (s.function decoded).2.Alike (t.function decoded).2 := by
  obtain ⟨hresult, hend⟩ := each_alike (fun decoded h => run_alike decoded h) h decoded.blocks
  rw [function_eq, function_eq, hresult]
  exact ⟨rfl, hend⟩

/-- What is known of a function that is lifted: its drafts were stored, and its instructions stand for the
decoded ones, block by block. -/
theorem function_eq_ok (hs : s.store.Tidy) (h : s.function decodedFunction = (.ok f, t)) :
    ∃ blocks, f = decodedFunction.assemble blocks ∧
      s.store.Stored decodedFunction.drafts (blocks.flatMap fun block => block.flatMap Instruction.ids) t.store ∧
      List.Forall₂ (List.Forall₂ (Lifts t.store)) decodedFunction.blocks blocks ∧
      t.emptyBlocks = s.emptyBlocks + decodedFunction.blocks.countP List.isEmpty := by
  rw [function_eq] at h
  rcases hrun : s.each run decodedFunction.blocks with ⟨result, u⟩
  rw [hrun] at h
  cases result with
  | error error => cases h
  | ok blocks =>
    cases h
    obtain ⟨hstored, hlifts⟩ :=
      each_lifted (fun decoded => decoded.flatMap DecodedInstruction.drafts)
        (fun instructions => instructions.flatMap Instruction.ids) (fun store => List.Forall₂ (Lifts store))
        run_grows (fun h hgrows => h.imp fun _ _ hi => hi.of_get? fun _ _ => hgrows.get?) run_eq_ok hs hrun
    exact ⟨blocks, rfl, hstored, hlifts, emptyBlocks_each_run hrun⟩

/-- A function is not lifted if an operand of some block cannot be stored; the blocks before were lifted, and
those of them without instructions are counted. -/
theorem function_eq_error (h : s.function decodedFunction = (.error error, t)) :
    ∃ before faulty after blocks u, decodedFunction.blocks = before ++ faulty :: after ∧
      s.each block before = (.ok blocks, u) ∧ (u.block faulty).1 = .error error ∧
      t.emptyBlocks = s.emptyBlocks + before.countP List.isEmpty := by
  rw [function_eq] at h
  rcases hrun : s.each run decodedFunction.blocks with ⟨result, t'⟩
  rw [hrun] at h
  cases result with
  | ok blocks => cases h
  | error error =>
    cases h
    obtain ⟨before, faulty, after, lifted, u, hblocks, hbefore, hfaulty⟩ := each_eq_error hrun
    refine ⟨before, faulty, after, lifted.map Block.ofInstructions?, u, hblocks, ?_, ?_, ?_⟩
    · rw [block_eq_run, each_map, hbefore]
      rfl
    · rw [block_eq_run]
      show (u.run faulty).1.map _ = _
      rw [hfaulty]
      rfl
    · cases faulty with
      | nil => cases hfaulty
      | cons first rest =>
        have ht := emptyBlocks_run u (first :: rest)
        rw [hfaulty] at ht
        rw [ht, emptyBlocks_each_run hbefore]
        rfl

/-- A function is lifted if no operand of it can fail to be stored as long as an invariant of the store holds
that storing its operands keeps. -/
theorem exists_function_eq_ok {Inv : Store → Prop} {Good : List (Draft Nat) → Prop}
    (hoperand : ∀ {s : Store} {drafts}, Inv s → Good drafts →
      ∃ ids t, s.internOperand drafts = (.ok ids, t) ∧ Inv t)
    (hs : Inv s.store) (hgood : ∀ drafts ∈ decodedFunction.operands, Good drafts) :
    ∃ f t, s.function decodedFunction = (.ok f, t) ∧ Inv t.store := by
  have hinstruction {s : Lifting} {decoded : DecodedInstruction} (hs : Inv s.store)
      (hgood : ∀ drafts ∈ decoded.operands, Good drafts) :
      ∃ i t, s.instruction decoded = (.ok i, t) ∧ Inv t.store := by
    have hstep {s : Lifting} {drafts : List (Draft Nat)} (hs : Inv s.store) (hgood : Good drafts) :
        ∃ ids t, s.operand drafts = (.ok ids, t) ∧ Inv t.store := by
      obtain ⟨ids, t, hids, ht⟩ := hoperand hs hgood
      exact ⟨ids, { s with store := t }, by rw [operand, hids], ht⟩
    obtain ⟨operands, t, hrun, ht⟩ := exists_each_eq_ok hstep hs hgood
    exact ⟨_, t, by rw [instruction, hrun]; rfl, ht⟩
  have hblock {s : Lifting} {decoded : DecodedBlock} (hs : Inv s.store)
      (hgood : ∀ i ∈ decoded, ∀ drafts ∈ i.operands, Good drafts) :
      ∃ instructions t, s.run decoded = (.ok instructions, t) ∧ Inv t.store := by
    obtain ⟨instructions, t, hrun, ht⟩ := exists_each_eq_ok hinstruction hs hgood
    exact ⟨instructions, { t with emptyBlocks := t.emptyBlocks + if decoded.isEmpty then 1 else 0 },
      by rw [run, hrun], ht⟩
  have hblocks : ∀ block ∈ decodedFunction.blocks, ∀ i ∈ block, ∀ drafts ∈ i.operands, Good drafts :=
    fun block hmem i hi drafts hdrafts => hgood drafts
      (List.mem_flatMap.mpr ⟨block, hmem, List.mem_flatMap.mpr ⟨i, hi, hdrafts⟩⟩)
  obtain ⟨blocks, t, hrun, ht⟩ := exists_each_eq_ok hblock hs hblocks
  exact ⟨_, t, by rw [function_eq, hrun]; rfl, ht⟩

end Lifting

end Export

end Disassembly
