import Disassembly.Proofs.Export.DroppedEdges
import Disassembly.Proofs.Export.Order

/-!
# The accounts of a run balance

Nodes, functions, blocks, edges and references are counted in different places: where a draft is stored, where a
block is left out, where the table is finalized, where a reference is located. In a run that succeeds the counts
add up to what went in (`Snapshot.Balanced`, `Pass.balanced_of_run`). The functions in the table are those that
were assembled, in another order (`Pass.Built.toList_perm`), and what a finalization counts of them follows from
what went in; the references are attributed one by one and change nothing else (`Pass.locateAll_of_finalized`).
-/

namespace Disassembly.Export

open Disassembly.Expression Disassembly.Flow

/-- A reference with the place that the rules of attribution find for it. -/
def Reference.attribute (reference : Reference) (store : Store) (table : FunctionTable) : Attribution where
  source := reference.source
  target := reference.target
  position := (table.instructionAt? reference.source).bind fun i => i.locate? store reference.target

/-- The accounts of a model add up to the functions and references that it was made of. -/
structure Snapshot.Balanced (functions : List DecodedFunction) (references : List Reference) (s : Snapshot) :
    Prop where
  /-- A new node was counted for every node that there is. -/
  created_eq : s.stats.store.created = s.store.size
  /-- Every draft was answered with a new node or with one that was there. -/
  answered_eq : s.stats.store.created + s.stats.store.deduplicated =
    (functions.flatMap DecodedFunction.drafts).length
  /-- Every function was finalized. -/
  functions_eq : s.stats.finalize.functions = functions.length
  /-- Every block is in the model or was left out, -/
  blocks_eq : s.stats.finalize.basicBlocks + s.stats.emptyBlocks =
    (functions.flatMap DecodedFunction.blocks).length
  /-- the latter if it has no instructions. -/
  emptyBlocks_eq : s.stats.emptyBlocks = (functions.flatMap DecodedFunction.blocks).countP List.isEmpty
  /-- Every edge is in the model or was dropped. -/
  edges_eq : s.stats.finalize.edges + s.stats.finalize.edgesDropped =
    (functions.flatMap DecodedFunction.edges).length
  /-- The back edges are those of all functions. -/
  backEdges_eq : s.stats.backEdges = (s.table.toList.flatMap Function.backEdges).length
  /-- Every reference was attributed, -/
  references_eq : s.stats.references = references.length
  /-- in the order of the references, -/
  attributions_eq : s.attributions.toList = references.map fun reference => reference.attribute s.store s.table
  /-- and counted if no place was found for it. -/
  unresolved_eq : s.stats.unresolved = s.attributions.toList.countP fun attribution => attribution.position.isNone

namespace Pass

variable {p start : Pass} {functions : List DecodedFunction} {lifted : List (List (List Instruction))}
  {R : Function → Function → Prop} {settings : Settings} {references : List Reference} {store : Store}
  {table : FunctionTable} {s : Snapshot}

/-! ### References -/

/-- The pass after some references were attributed. -/
def record (p : Pass) (attributions : List Attribution) : Pass :=
  { p with
    attributions := p.attributions ++ attributions.toArray
    stats := { p.stats with
      references := p.stats.references + attributions.length
      unresolved := p.stats.unresolved + attributions.countP fun attribution => attribution.position.isNone } }

@[simp] theorem record_nil (p : Pass) : p.record [] = p := by simp [record]

theorem record_record (p : Pass) (before after : List Attribution) :
    (p.record before).record after = p.record (before ++ after) := by
  simp [record, Nat.add_assoc]

theorem locate_of_finalized (hp : p.finalized = true) (reference : Reference) :
    (p.locate reference).2 = p.record [reference.attribute p.store p.table] := by
  rw [locate, ensureFinalized, if_pos hp, record, List.countP_singleton]
  simp only [Reference.attribute, List.length_singleton, Array.push_eq_append]
  rfl

/-- References that are located in finalized functions are attributed one by one, and nothing else is done. -/
theorem locateAll_of_finalized (hp : p.finalized = true) (references : List Reference) :
    p.locateAll references = p.record (references.map fun reference => reference.attribute p.store p.table) := by
  induction references generalizing p with
  | nil => exact p.record_nil.symm
  | cons reference references ih =>
    show (p.locate reference).2.locateAll references = _
    rw [locate_of_finalized hp, ih (by exact hp), record_record]
    rfl

/-! ### Functions -/

/-- The functions with the blocks of the given instructions, in order. -/
def assembled (functions : List DecodedFunction) (lifted : List (List (List Instruction))) : List Function :=
  (functions.zip lifted).map fun (decoded, blocks) => decoded.assemble blocks

/-- What does not depend on instructions is that of the decoded functions. -/
theorem map_assembled {α : Type} {f : Function → α} {g : DecodedFunction → α}
    (hfg : ∀ decoded blocks, f (DecodedFunction.assemble decoded blocks) = g decoded)
    (hlength : functions.length = lifted.length) : (assembled functions lifted).map f = functions.map g := by
  conv_rhs => rw [← List.map_fst_zip hlength.le]
  rw [assembled, List.map_map, List.map_map]
  apply List.map_congr_left
  rintro ⟨decoded, blocks⟩ -
  exact hfg decoded blocks

/-- The table holds the functions that were assembled. -/
theorem Built.toList_perm (h : Built start functions lifted p) :
    p.table.toList.Perm (assembled functions lifted) := by
  obtain ⟨hlength, hfiled⟩ := List.forall₂_iff_zip.mp h.filed
  have hentries : (assembled functions lifted).map Function.entry = functions.map DecodedFunction.entry :=
    map_assembled (fun _ _ => rfl) hlength
  have hnodup : (assembled functions lifted).Nodup := List.Nodup.of_map Function.entry (hentries ▸ h.nodup)
  have hget {decoded : DecodedFunction} {blocks : List (List Instruction)}
      (hmem : (decoded, blocks) ∈ functions.zip lifted) :
      p.table.get? decoded.entry = some (decoded.assemble blocks) := by
    obtain ⟨f, hf, rfl⟩ := (hfiled hmem).exists_get?
    exact hf
  -- No function is repeated on either side, so that only membership is left to compare.
  refine (List.perm_ext_iff_of_nodup p.table.nodup_toList hnodup).mpr fun f => ?_
  rw [FunctionTable.mem_toList_iff, assembled, List.mem_map]
  constructor
  · intro hf
    obtain ⟨decoded, hmem, hentry⟩ := h.exists_mem _ _ hf
    rw [← List.map_fst_zip hlength.le] at hmem
    obtain ⟨⟨decoded, blocks⟩, hpair, rfl⟩ := List.mem_map.mp hmem
    refine ⟨(decoded, blocks), hpair, ?_⟩
    rw [← hentry, hget hpair] at hf
    exact Option.some.inj hf
  · rintro ⟨⟨decoded, blocks⟩, hmem, rfl⟩
    exact hget hmem

/-- Of the blocks of a function those without instructions are left out. -/
theorem length_filterMap_ofInstructions? {decoded : List DecodedBlock} {blocks : List (List Instruction)}
    (h : List.Forall₂ (List.Forall₂ (Lifts store)) decoded blocks) :
    (blocks.filterMap Block.ofInstructions?).length + decoded.countP List.isEmpty = decoded.length := by
  induction h with
  | nil => rfl
  | @cons block is _ _ hblock _ ih =>
    rw [List.filterMap_cons, List.countP_cons, List.length_cons, ← ih]
    cases hblock with
    | nil =>
      rw [Block.ofInstructions?_eq_none_iff.mpr rfl]
      rfl
    | cons =>
      obtain ⟨made, hmade⟩ := Block.exists_ofInstructions? (List.cons_ne_nil _ _)
      rw [hmade]
      exact Nat.add_right_comm _ _ _

theorem length_blocks_assembled (h : List.Forall₂ (Filed R store table) functions lifted) :
    ((assembled functions lifted).flatMap Function.blocks).length +
        (functions.flatMap DecodedFunction.blocks).countP List.isEmpty =
      (functions.flatMap DecodedFunction.blocks).length := by
  induction h with
  | nil => rfl
  | cons hfiled _ ih =>
    have hfirst := length_filterMap_ofInstructions? hfiled.lifts
    simp only [assembled, DecodedFunction.assemble, List.zip_cons_cons, List.map_cons, List.flatMap_cons,
      List.length_append, List.countP_append] at ih ⊢
    omega

/-! ### Finalization -/

theorem toList_finalize (p : Pass) : p.finalize.2.table.toList = p.table.toList.map p.settings.final := by
  have hfunctions : p.finalize.2.table.functions = p.table.functions.map fun _ => p.settings.final := by
    apply Std.ExtTreeMap.ext_getElem?
    intro entry
    rw [Std.ExtTreeMap.getElem?_map]
    exact p.get?_finalize entry
  rw [FunctionTable.toList, FunctionTable.toList, hfunctions, values_map]

/-- A finalization counts the functions that there are, their blocks, and their edges with those that it drops. -/
theorem totals_finalize (p : Pass) :
    p.finalize.1.functions = p.table.toList.length ∧
      p.finalize.1.basicBlocks = (p.table.toList.flatMap Function.blocks).length ∧
      p.finalize.1.edges + p.finalize.1.edgesDropped = (p.table.toList.flatMap Function.edges).length := by
  obtain ⟨hindex, hfunctions, hblocks, hedges⟩ := p.counts_finalize
  refine ⟨?_, ?_, ?_⟩
  · rw [hfunctions, ← FunctionTable.length_toList, toList_finalize, List.length_map]
  · rw [hblocks, hindex, AddressIndex.size_ofSpans, FunctionTable.length_spans, toList_finalize]
    simp only [List.length_flatMap, List.map_map, Function.comp_def, Settings.blocks_final, List.length_mergeSort]
  · rw [hedges, edgeCount_finalize, FunctionTable.edgeCount_eq]

/-! ### Whole runs -/

theorem Built.totals (h : Built start functions lifted p) :
    p.finalize.1.functions = functions.length ∧
      p.finalize.1.basicBlocks + (functions.flatMap DecodedFunction.blocks).countP List.isEmpty =
        (functions.flatMap DecodedFunction.blocks).length ∧
      p.finalize.1.edges + p.finalize.1.edgesDropped = (functions.flatMap DecodedFunction.edges).length := by
  obtain ⟨hfunctions, hblocks, hedges⟩ := p.totals_finalize
  have hlength : functions.length = lifted.length := h.filed.length_eq
  refine ⟨?_, ?_, ?_⟩
  · rw [hfunctions, h.toList_perm.length_eq, assembled, List.length_map, List.length_zip, hlength, Nat.min_self]
  · rw [hblocks, (h.toList_perm.flatMap_right _).length_eq]
    exact length_blocks_assembled h.filed
  · rw [hedges, (h.toList_perm.flatMap_right _).length_eq, List.flatMap_def, List.flatMap_def,
      map_assembled (g := DecodedFunction.edges) (fun _ _ => rfl) hlength]

/-- In a run that succeeds the accounts balance. -/
theorem balanced_of_run (h : run settings functions references = .ok s) : s.Balanced functions references := by
  obtain ⟨p, hp, rfl⟩ := run_eq_ok_iff.mp h
  obtain ⟨lifted, hbuilt⟩ := (Built.nil settings).addAll hp
  rw [List.nil_append, List.nil_append] at hbuilt
  obtain ⟨hfunctions, hblocks, hedges⟩ := hbuilt.totals
  have hanswered := hbuilt.answered_eq
  rw [store_start] at hanswered
  have hstats : p.stats = { emptyBlocks := (functions.flatMap DecodedFunction.blocks).countP List.isEmpty } := by
    rw [hbuilt.stats_eq]
    exact congrArg (fun n => ({ emptyBlocks := n } : PassStats)) (Nat.zero_add _)
  have hattributions : p.attributions = #[] := hbuilt.attributions_eq
  -- The pass is finalized once, when all functions are there; the references find it finalized.
  rw [locateAll_of_finalized (p := p.finalize.2) rfl]
  exact {
    created_eq := hbuilt.reachable.wellFormed.created_eq
    answered_eq := hanswered.trans (Nat.zero_add _)
    functions_eq := hfunctions
    blocks_eq := by
      show p.finalize.1.basicBlocks + p.stats.emptyBlocks = _
      rw [hstats]
      exact hblocks
    emptyBlocks_eq := congrArg PassStats.emptyBlocks hstats
    edges_eq := hedges
    backEdges_eq := total_length Function.backEdges _
    references_eq := by
      show p.stats.references + (List.map _ references).length = _
      rw [hstats, List.length_map]
      exact Nat.zero_add _
    attributions_eq := by
      show (p.attributions ++ (List.map _ references).toArray).toList = _
      rw [hattributions, Array.empty_append]
      rfl
    unresolved_eq := by
      show p.stats.unresolved + (List.map _ references).countP _ =
        (p.attributions ++ (List.map _ references).toArray).toList.countP _
      rw [hstats, hattributions, Array.empty_append]
      exact Nat.zero_add _ }

/-- Of four blocks one is empty, and one of two edges leads nowhere. -/
theorem balanced_of_run_stray :
    ∃ s, run {} [stray, leaf, spin 0x5000] [⟨0x5000, 0⟩, ⟨0x9000, 0⟩] = .ok s ∧
      s.stats.store.created + s.stats.store.deduplicated = 6 ∧ s.stats.finalize.functions = 3 ∧
      s.stats.finalize.basicBlocks = 3 ∧ s.stats.emptyBlocks = 1 ∧
      s.stats.finalize.edges + s.stats.finalize.edgesDropped = 2 ∧ s.stats.references = 2 := by
  have hok : (run {} [stray, leaf, spin 0x5000] [⟨0x5000, 0⟩, ⟨0x9000, 0⟩]).isOk = true := by decide +kernel
  cases hrun : run {} [stray, leaf, spin 0x5000] [⟨0x5000, 0⟩, ⟨0x9000, 0⟩] with
  | error error =>
    rw [hrun] at hok
    cases hok
  | ok s =>
    have hbalanced := balanced_of_run hrun
    have hempty : s.stats.emptyBlocks = 1 := hbalanced.emptyBlocks_eq
    have hblocks : s.stats.finalize.basicBlocks + s.stats.emptyBlocks = 4 := hbalanced.blocks_eq
    rw [hempty] at hblocks
    exact ⟨s, rfl, hbalanced.answered_eq, hbalanced.functions_eq, Nat.succ.inj hblocks, hempty,
      hbalanced.edges_eq, hbalanced.references_eq⟩

end Pass

end Disassembly.Export
