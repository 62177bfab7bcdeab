import Disassembly.Proofs.Export.Accepted

/-!
# Attribution of decoded instructions

The rules of attribution can be read off the drafts of a decoded instruction, with no store at all: a draft names its
parent by a place in the same operand (`DecodedInstruction.locate?`). A lifted instruction has nodes in their stead,
which it shares with other instructions, and which name their parents by ids. Still the rules find the same place in
it, whatever else is asked of the pass meanwhile (`Pass.locate?_lifted`).
-/

namespace Disassembly

open Disassembly.Expression Disassembly.Flow

/-! ### Lists that correspond item by item -/

theorem flatMap_zipIdx_congr {α β γ : Type} {R : α → β → Prop} {as : List α} {bs : List β} {f : α × Nat → List γ}
    {g : β × Nat → List γ} (h : List.Forall₂ R as bs) (hfg : ∀ a b n, R a b → f (a, n) = g (b, n)) (n : Nat) :
    (as.zipIdx n).flatMap f = (bs.zipIdx n).flatMap g := by
  induction h generalizing n with
  | nil => rfl
  | cons hab _ ih => rw [List.zipIdx_cons, List.zipIdx_cons, List.flatMap_cons, List.flatMap_cons, hfg _ _ _ hab, ih]

/-! ### What the rules look at in a draft -/

namespace Expression

/-- What the rules of attribution look at in a draft with the given parent. -/
def Draft.sight (draft : Draft Nat) (parent : Option (Draft Nat)) : Sight where
  isImmediate := draft.kind.isImmediate
  immediate := draft.immediate
  underDereference := parent.any (·.kind == .dereference)

namespace Store.Spells

variable {s : Store} {drafts : List (Draft Nat)} {ids : List NodeId}

/-- It is the same in a draft and in the node that stands for it. -/
theorem forall₂_sight (h : s.Spells drafts ids) :
    List.Forall₂ (fun draft id => (s.get? id).map s.sight = some (draft.sight (draft.parent.bind (drafts[·]?))))
      drafts ids := by
  refine List.forall₂_iff_get.mpr ⟨h.length_eq.symm, ?_⟩
  intro i hi hi'
  obtain ⟨hlt, id, node, hid, hnode, hlink, hparent⟩ := h.exists_node (List.getElem?_eq_getElem hi)
  obtain rfl : ids.get ⟨i, hi'⟩ = id := by simpa [List.getElem?_eq_getElem hi'] using hid
  have hkind : node.kind = drafts[i].kind := congrArg Link.kind hlink
  have himmediate : node.immediate = drafts[i].immediate := congrArg Link.immediate hlink
  have hunder : (s.parent? node).any Node.isDereference =
      (drafts[i].parent.bind (drafts[·]?)).any (·.kind == .dereference) := by
    rw [parent?, hparent]
    cases hp : drafts[i].parent with
    | none => rfl
    | some p =>
      have hpi : p < drafts.length := (hlt p hp).trans hi
      obtain ⟨-, id, above, hid, habove, hsame, -⟩ := h.exists_node (List.getElem?_eq_getElem hpi)
      simp only [Option.bind_some, hid, habove, List.getElem?_eq_getElem hpi, Option.any_some]
      exact congrArg (fun link : Link => link.kind == .dereference) hsame
  simp only [hnode, Option.map_some, sight, Draft.sight, hunder, Node.isImmediate, hkind, himmediate]
  rfl

end Store.Spells

end Expression

namespace Export

/-! ### The rules for decoded instructions -/

namespace DecodedInstruction

variable (decoded : DecodedInstruction) (target : Address)

/-- The drafts of an instruction with their places and the drafts of their parents, in reading order. -/
def placedDrafts : List (Position × Draft Nat × Option (Draft Nat)) :=
  decoded.operands.zipIdx.flatMap fun (drafts, i) =>
    drafts.zipIdx.map fun (draft, j) => (⟨i, j⟩, draft, draft.parent.bind (drafts[·]?))

/-- Rule 1: the first immediate that has the bits of the target. -/
def exactImmediate? : Option Position :=
  (decoded.placedDrafts.find? fun (_, draft, _) =>
    draft.kind.isImmediate && draft.immediate.toUInt64 == target).map (·.1)

/-- Rule 2: the first draft under a memory access, or the place before it if it is no immediate. -/
def underDereference? : Option Position :=
  (decoded.placedDrafts.find? fun (_, _, parent) =>
    parent.any (·.kind == .dereference)).map fun (position, draft, _) =>
      if draft.kind.isImmediate then position else position.before

/-- Rule 3: the start of the only operand. -/
def onlyOperand? : Option Position := if decoded.operands.length = 1 then some ⟨0, 0⟩ else none

/-- Rule 4: the first immediate. -/
def firstImmediate? : Option Position :=
  (decoded.placedDrafts.find? fun (_, draft, _) => draft.kind.isImmediate).map (·.1)

/-- The place in the decoded instruction that most plausibly refers to `target`. -/
def locate? : Option Position :=
  decoded.exactImmediate? target <|> decoded.underDereference? <|> decoded.onlyOperand? <|> decoded.firstImmediate?

/-- What the rules of attribution see of a decoded instruction, in reading order. -/
def sights : List (Position × Sight) :=
  decoded.placedDrafts.map fun (position, draft, parent) => (position, draft.sight parent)

end DecodedInstruction

namespace Lifts

variable {s : Store} {decoded : DecodedInstruction} {i : Instruction} (h : Lifts s decoded i)

include h

/-- The rules see the same of a lifted instruction. -/
theorem sights_eq : i.sights s = decoded.sights := by
  simp only [Instruction.sights, Instruction.placedNodes, DecodedInstruction.sights, DecodedInstruction.placedDrafts,
    List.map_flatMap, List.map_filterMap, List.map_map]
  refine (flatMap_zipIdx_congr h.operands (fun drafts ids n hspells => ?_) 0).symm
  rw [List.filterMap_eq_flatMap_toList, List.map_eq_flatMap]
  refine flatMap_zipIdx_congr hspells.forall₂_sight (fun draft id k hsight => ?_) 0
  have hplaced := congrArg (Option.map fun sight => ((⟨n, k⟩ : Position), sight)) hsight
  rw [Option.map_map] at hplaced
  rw [Option.map_map]
  exact (congrArg Option.toList hplaced).symm

/-- So they find the same place. -/
theorem locate?_eq (target : Address) : i.locate? s target = decoded.locate? target := by
  have hcount : i.operandCount = decoded.operands.length := h.operands.length_eq.symm
  simp only [Instruction.locate?, Instruction.exactImmediate?_eq_find?, Instruction.underDereference?_eq_find?,
    Instruction.firstImmediate?_eq_find?, Instruction.onlyOperand?, h.sights_eq, hcount, DecodedInstruction.sights,
    List.find?_map, Option.map_map]
  rfl

end Lifts

/-! ### In a pass -/

namespace Pass

variable {R : Function → Function → Prop} {start p q : Pass} {functions : List DecodedFunction}
  {lifted : List (List (List Instruction))} {decoded : DecodedFunction} {blocks : List (List Instruction)}

/-- A function that was taken in stays filed with the same instructions in its blocks. -/
theorem Took.filed_after (h : Took R start functions lifted p) (hrefl : ∀ f, R f f)
    (hR : ∀ f g, R f g → R f (start.settings.final g)) (hmem : (decoded, blocks) ∈ functions.zip lifted)
    (calls : List Call) : Filed R (p.after calls).store (p.after calls).table decoded blocks := by
  obtain ⟨more, hafter⟩ := h.after hrefl hR calls
  obtain ⟨-, hfiled⟩ := List.forall₂_iff_zip.mp hafter.filed
  refine hfiled ?_
  rw [List.zip_append h.filed.length_eq]
  exact List.mem_append_left _ hmem

/-- An accepted function has a lifted instruction for every one decoded, and its blocks are made of these. Whatever
is asked of the pass later, the rules of attribution find the same place in either, for every target. -/
theorem locate?_lifted (hp : p.Reachable) (hadd : p.add decoded = (.ok (), q)) :
    ∃ blocks : List (List Instruction), ∀ calls,
      List.Forall₂ (List.Forall₂ fun raw i => Lifts (q.after calls).store raw i ∧
        ∀ target, i.locate? (q.after calls).store target = raw.locate? target) decoded.blocks blocks ∧
      ∃ f, (q.after calls).table.get? decoded.entry = some f ∧
        f.blocks.Perm (blocks.filterMap Block.ofInstructions?) := by
  obtain ⟨settings, store, before, hstore, rfl⟩ := hp
  -- What is kept up about a filed function is that its blocks are those that were made of it, in some order.
  let R (f g : Function) : Prop := g.blocks.Perm f.blocks
  have hrefl (f : Function) : R f f := List.Perm.refl f.blocks
  have hR (f g : Function) (h : R f g) : R f (settings.final g) := by
    show (settings.final g).blocks.Perm f.blocks
    rw [settings.blocks_final]
    exact (List.mergeSort_perm ..).trans h
  obtain ⟨lifted, htook⟩ := (Took.nil (R := R) settings hstore).after hrefl hR before
  obtain ⟨hnew, f, u, hlift, rfl⟩ := add_eq_ok hadd
  obtain ⟨blocks, rfl, hstored, hlifts, -⟩ := Lifting.function_eq_ok htook.reachable.tidy hlift
  have hnext := htook.accept (hrefl _) hnew (grows_of_function hlift) hstored.introduces hlifts
  have hmem : (decoded, blocks) ∈ (([] ++ (onStore settings store).accepted before) ++ [decoded]).zip
      (([] ++ lifted) ++ [blocks]) := by
    rw [List.zip_append htook.filed.length_eq]
    exact List.mem_append_right _ List.mem_cons_self
  refine ⟨blocks, fun calls => ?_⟩
  have hfiled := hnext.filed_after hrefl hR hmem calls
  exact ⟨hfiled.lifts.imp fun _ _ hblock => hblock.imp fun _ _ hi => ⟨hi, hi.locate?_eq⟩, hfiled.exists_get?⟩

/-- In `spin`, whose memory access has the stack pointer for its address, a reference is always attributed to the
access, one place before the register. -/
theorem locate?_lifted_spin : ∃ (q : Pass) (i : Instruction), reused.add (spin 0x1000) = (.ok (), q) ∧
    ∀ calls target, i.locate? (q.after calls).store target = some ⟨1, 1⟩ := by
  have hadd : reused.add (spin 0x1000) = (.ok (), (reused.add (spin 0x1000)).2) := Prod.ext (by decide +kernel) rfl
  obtain ⟨blocks, hblocks⟩ := locate?_lifted reachable_reused hadd
  -- There is one block, with one instruction.
  obtain ⟨i, rfl⟩ : ∃ i, blocks = [[i]] := by
    obtain ⟨hall, -⟩ := hblocks []
    obtain _ | @⟨_, block, _, _, hblock, hrest⟩ := hall
    obtain _ | @⟨_, i, _, _, -, hnil⟩ := hblock
    cases hrest
    cases hnil
    exact ⟨i, rfl⟩
  refine ⟨_, i, hadd, fun calls target => ?_⟩
  obtain ⟨hall, -⟩ := hblocks calls
  obtain _ | ⟨hblock, -⟩ := hall
  obtain _ | ⟨⟨-, hlocate⟩, -⟩ := hblock
  exact hlocate target

end Pass

end Export

end Disassembly
