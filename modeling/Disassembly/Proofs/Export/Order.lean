import Disassembly.Proofs.Export.Run

/-!
# The order of functions does not matter

A run on the same functions in another order succeeds as well, and ends in the same model with its nodes renamed
(`run_perm`). Which node a request adds depends on the requests before it, but the chains that are asked for do
not: so either store has the chains of the other, and the renaming carries each node to the one with its chain.
-/

namespace Disassembly

open Disassembly.Expression Disassembly.Flow

namespace Export

variable {s t : Store} {is js : List Instruction} {decoded : DecodedFunction}
  {blocks blocks' : List (List Instruction)}

/-! ### Functions over two stores -/

/-- What stands for the same items is the same up to a change that carries the one over to the other. -/
theorem eq_map_of_forall₂ {α β : Type} {P Q : α → β → Prop} {f : β → β} {as : List α} {bs cs : List β}
    (h : List.Forall₂ P as bs) (h' : List.Forall₂ Q as cs) (hPQ : ∀ a b c, P a b → Q a c → c = f b) :
    cs = bs.map f := by
  induction h generalizing cs with
  | nil =>
    cases h'
    rfl
  | cons hab _ ih =>
    obtain _ | ⟨hac, hrest⟩ := h'
    rw [List.map_cons, hPQ _ _ _ hab hac, ih hrest]

theorem Lifts.eq_rename {decoded : DecodedInstruction} {i j : Instruction} (h : s.SameChains t)
    (hi : Lifts s decoded i) (hj : Lifts t decoded j) : j = i.rename (s.translate t) := by
  have hoperands : j.operands = i.operands.map (List.map (s.translate t)) :=
    eq_map_of_forall₂ hi.operands hj.operands fun _ _ _ => h.spells
  have haddress := hj.address_eq.trans hi.address_eq.symm
  have hsize := hj.size_eq.trans hi.size_eq.symm
  have hmnemonic := hj.mnemonic_eq.trans hi.mnemonic_eq.symm
  cases i
  cases j
  simp_all [Instruction.rename]

theorem DecodedFunction.assemble_rename (σ : NodeId → NodeId) :
    decoded.assemble (blocks.map (List.map (Instruction.rename σ))) = (decoded.assemble blocks).rename σ := by
  simp only [assemble, Function.rename, List.filterMap_map, List.map_filterMap, Function.comp_def,
    Block.ofInstructions?_rename]

theorem assemble_eq_rename (h : s.SameChains t)
    (hs : List.Forall₂ (List.Forall₂ (Lifts s)) decoded.blocks blocks)
    (ht : List.Forall₂ (List.Forall₂ (Lifts t)) decoded.blocks blocks') :
    decoded.assemble blocks' = (decoded.assemble blocks).rename (s.translate t) := by
  have hblocks : blocks' = blocks.map (List.map (Instruction.rename (s.translate t))) :=
    eq_map_of_forall₂ hs ht fun _ _ _ hs ht => eq_map_of_forall₂ hs ht fun _ _ _ => Lifts.eq_rename h
  rw [hblocks, DecodedFunction.assemble_rename]

namespace Pass

variable {start p q : Pass} {settings : Settings} {functions functions' : List DecodedFunction}
  {lifted lifted' : List (List (List Instruction))}

/-! ### Adding in another order -/

/-- The table of functions taken in in another order. -/
theorem Built.get?_eq (hp : Built start functions lifted p) (hq : Built start functions' lifted' q)
    (hperm : functions.Perm functions') (hsame : p.store.SameChains q.store) (entry : Address) :
    q.table.get? entry = (p.table.get? entry).map (Function.rename (p.store.translate q.store)) := by
  have hmem (decoded : DecodedFunction) (hdecoded : decoded ∈ functions) :
      q.table.get? decoded.entry =
        (p.table.get? decoded.entry).map (Function.rename (p.store.translate q.store)) := by
    obtain ⟨blocks, hlifts, hget⟩ := hp.get?_of_mem hdecoded
    obtain ⟨blocks', hlifts', hget'⟩ := hq.get?_of_mem (hperm.mem_iff.mp hdecoded)
    rw [hget, hget', Option.map_some, assemble_eq_rename hsame hlifts hlifts']
  cases hget : p.table.get? entry with
  | some f =>
    obtain ⟨decoded, hdecoded, rfl⟩ := hp.exists_mem entry f hget
    rw [hmem decoded hdecoded, hget]
  | none =>
    cases hget' : q.table.get? entry with
    | none => rfl
    | some g =>
      obtain ⟨decoded, hdecoded, rfl⟩ := hq.exists_mem entry g hget'
      rw [hmem decoded (hperm.mem_iff.mpr hdecoded), hget] at hget'
      cases hget'

theorem Built.renames (hp : Built start functions lifted p) (hq : Built start functions' lifted' q)
    (hperm : functions.Perm functions') (hsame : p.store.SameChains q.store) :
    Renames (p.store.translate q.store) p q where
  settings_eq := hq.settings_eq.trans hp.settings_eq.symm
  store := hsame.renames
  table := {
    functions_eq := Std.ExtTreeMap.ext_getElem? fun entry => by
      rw [Std.ExtTreeMap.getElem?_map]
      exact hp.get?_eq hq hperm hsame entry
    index_eq := hq.index_eq.trans hp.index_eq.symm }
  attributions_eq := hq.attributions_eq.trans hp.attributions_eq.symm
  finalize_eq := by rw [hp.stats_eq, hq.stats_eq]
  backEdges_eq := by rw [hp.stats_eq, hq.stats_eq]
  references_eq := by rw [hp.stats_eq, hq.stats_eq]
  unresolved_eq := by rw [hp.stats_eq, hq.stats_eq]
  finalized_eq := hq.finalized_eq.trans hp.finalized_eq.symm

/-- The accounts do not depend on the order. -/
theorem Built.stats_perm (hp : Built start functions lifted p) (hq : Built start functions' lifted' q)
    (hperm : functions.Perm functions') (hsame : p.store.SameChains q.store) :
    q.store.stats = p.store.stats ∧ q.stats = p.stats ∧
      ∀ name, name ∈ q.table.modules.slots ↔ name ∈ p.table.modules.slots := by
  have hcreated : q.store.stats.created = p.store.stats.created := by
    rw [hsame.left.created_eq, hsame.right.created_eq, hsame.size_eq]
  have hanswered := hq.answered_eq
  rw [(hperm.flatMap_right _).symm.length_eq, ← hp.answered_eq, hcreated] at hanswered
  have hempty := (hperm.flatMap_right DecodedFunction.blocks).countP_eq List.isEmpty
  refine ⟨?_, ?_, fun name => ?_⟩
  · exact StoreStats.mk.injEq .. ▸ ⟨hcreated, Nat.add_left_cancel hanswered⟩
  · rw [hp.stats_eq, hq.stats_eq, hempty]
  · rw [hp.mem_modules, hq.mem_modules]
    simp only [hperm.mem_iff]

/-- The functions are also accepted in another order, and then the store has no other chains. -/
theorem Built.exists_addAll_perm (h : Built (Pass.start settings) functions lifted p)
    (hperm : functions.Perm functions') :
    ∃ q, (Pass.start settings).addAll functions' = .ok q ∧ q.store.chains ⊆ p.store.chains := by
  refine exists_addAll h.reachable.wellFormed (reachable_onStore .empty settings).tidy ?_ ?_ ?_ ?_
  · rw [store_start]
    simp [Store.chains, Store.size]
  · intro decoded _
    rfl
  · exact (hperm.map _).nodup_iff.mp h.nodup
  · exact fun decoded hmem operand hoperand => h.spells_of_mem (hperm.mem_iff.mpr hmem) hoperand

/-- The functions are added in either order, and the stores have the same chains. -/
theorem exists_addAll_perm (hp : (Pass.start settings).addAll functions = .ok p)
    (hperm : functions.Perm functions') :
    ∃ q lifted lifted', (Pass.start settings).addAll functions' = .ok q ∧
      Built (Pass.start settings) functions lifted p ∧ Built (Pass.start settings) functions' lifted' q ∧
      p.store.SameChains q.store := by
  obtain ⟨lifted, hbuilt⟩ := (Built.nil settings).addAll hp
  obtain ⟨q, hq, hsub⟩ := hbuilt.exists_addAll_perm hperm
  obtain ⟨lifted', hbuilt'⟩ := (Built.nil settings).addAll hq
  rw [List.nil_append, List.nil_append] at hbuilt hbuilt'
  obtain ⟨p', hp', hsuper⟩ := hbuilt'.exists_addAll_perm hperm.symm
  rw [hp] at hp'
  cases hp'
  exact ⟨q, lifted, lifted', hq, hbuilt, hbuilt',
    hbuilt.reachable.wellFormed, hbuilt'.reachable.wellFormed, hsuper, hsub⟩

/-! ### Whole runs -/

/-- The pass after some references were located. -/
def locateAll (p : Pass) (references : List Reference) : Pass :=
  references.foldl (fun p reference => (p.locate reference).2) p

/-- A run succeeds if all functions are accepted, and goes on with the references then. -/
theorem run_eq_ok_iff {references : List Reference} {s : Snapshot} :
    run settings functions references = .ok s ↔
      ∃ p, (Pass.start settings).addAll functions = .ok p ∧
        (p.finalize.2.locateAll references).snapshot = s := by
  unfold run
  cases (Pass.start settings).addAll functions with
  | error error => exact iff_of_false (fun h => by cases h) fun ⟨p, h, _⟩ => by cases h
  | ok p => exact ⟨fun h => ⟨p, rfl, Except.ok.inj h⟩, fun ⟨_, rfl, h⟩ => congrArg Except.ok h⟩

theorem Renames.locateAll {σ : NodeId → NodeId} (h : Renames σ p q) (references : List Reference) :
    Renames σ (p.locateAll references) (q.locateAll references) := by
  induction references generalizing p q with
  | nil => exact h
  | cons reference references ih => exact ih (h.locate reference).2

/-- References change neither the nodes nor the functions of a pass that is finalized. -/
theorem locateAll_eq (hp : p.finalized = true) (references : List Reference) :
    (p.locateAll references).finalized = true ∧ (p.locateAll references).store = p.store ∧
      (p.locateAll references).table = p.table ∧
      (p.locateAll references).stats.emptyBlocks = p.stats.emptyBlocks := by
  induction references generalizing p with
  | nil => exact ⟨hp, rfl, rfl, rfl⟩
  | cons reference references ih =>
    have hfinal : p.ensureFinalized = p := if_pos hp
    have hlocate : (p.locate reference).2.finalized = true ∧ (p.locate reference).2.store = p.store ∧
        (p.locate reference).2.table = p.table ∧
        (p.locate reference).2.stats.emptyBlocks = p.stats.emptyBlocks := by
      unfold locate
      rw [hfinal]
      exact ⟨hp, rfl, rfl, rfl⟩
    obtain ⟨hfinalized, hstore, htable, hempty⟩ := hlocate
    obtain ⟨hfinalized', hstore', htable', hempty'⟩ := ih hfinalized
    exact ⟨hfinalized', hstore'.trans hstore, htable'.trans htable, hempty'.trans hempty⟩

end Pass

/-- The second model is the first with its nodes renamed. -/
structure Snapshot.Renames (σ : NodeId → NodeId) (s t : Snapshot) : Prop where
  /-- No two ids are renamed to one, and every id is the new name of one. -/
  bijective : Function.Bijective σ
  /-- The ids of nodes are renamed to ids of nodes. -/
  lt_size_iff (id : NodeId) : (σ id).index < t.store.size ↔ id.index < s.store.size
  /-- A node has the same kind, position, immediate and hash of its symbol, and its parent is renamed. -/
  nodes : Store.Renames σ s.store t.store
  /-- Functions are the same but for the ids in the operands of their instructions. -/
  table : FunctionTable.Renames σ s.table t.table
  /-- They have the same back edges. -/
  backEdges_eq (entry : Address) :
    (t.table.get? entry).map Function.backEdges = (s.table.get? entry).map Function.backEdges
  /-- The same modules are named. -/
  mem_modules_iff (name : String) : name ∈ t.table.modules.slots ↔ name ∈ s.table.modules.slots
  /-- References are attributed to the same places. -/
  attributions_eq : t.attributions = s.attributions
  /-- Everything was counted alike. -/
  stats_eq : t.stats = s.stats

namespace Pass

variable {p q : Pass} {settings : Settings} {functions functions' : List DecodedFunction}

theorem Renames.snapshot {σ : NodeId → NodeId} (h : Renames σ p q) (hfinal : p.finalized = true)
    (hbijective : Function.Bijective σ) (hlive : ∀ id, (σ id).index < q.store.size ↔ id.index < p.store.size)
    (hmodules : ∀ name, name ∈ q.table.modules.slots ↔ name ∈ p.table.modules.slots)
    (hstore : q.store.stats = p.store.stats) (hempty : q.stats.emptyBlocks = p.stats.emptyBlocks) :
    Snapshot.Renames σ p.snapshot q.snapshot := by
  have hp : p.ensureFinalized = p := if_pos hfinal
  have hq : q.ensureFinalized = q := if_pos (h.finalized_eq.trans hfinal)
  unfold Pass.snapshot
  rw [hp, hq]
  exact {
    bijective := hbijective
    lt_size_iff := hlive
    nodes := h.store
    table := h.table
    backEdges_eq := fun entry => by
      rw [h.table.get?_eq, Option.map_map]
      exact congrArg (Option.map · _) (funext fun f => f.backEdges_rename)
    mem_modules_iff := hmodules
    attributions_eq := h.attributions_eq
    stats_eq := PassStats.mk.injEq .. ▸
      ⟨hstore, h.finalize_eq, hempty, h.backEdges_eq, h.references_eq, h.unresolved_eq⟩ }

theorem exists_run_perm (hperm : functions.Perm functions') {references : List Reference}
    (h : ∃ s, run settings functions references = .ok s) : ∃ t, run settings functions' references = .ok t := by
  obtain ⟨s, hs⟩ := h
  obtain ⟨p, hp, -⟩ := run_eq_ok_iff.mp hs
  obtain ⟨q, -, -, hq, -⟩ := exists_addAll_perm hp hperm
  exact ⟨_, run_eq_ok_iff.mpr ⟨q, hq, rfl⟩⟩

/-- The order of functions does not matter to a run: it succeeds in both orders or in none, and the models that
it ends in are the same but for the names of nodes, with the same statistics. -/
theorem run_perm (hperm : functions.Perm functions') (settings : Settings) (references : List Reference) :
    ((∃ s, run settings functions references = .ok s) ↔ ∃ t, run settings functions' references = .ok t) ∧
      ∀ s t, run settings functions references = .ok s → run settings functions' references = .ok t →
        ∃ σ, Snapshot.Renames σ s t := by
  refine ⟨⟨exists_run_perm hperm, exists_run_perm hperm.symm⟩, ?_⟩
  intro s t hs ht
  obtain ⟨p, hp, rfl⟩ := run_eq_ok_iff.mp hs
  obtain ⟨q, hq, rfl⟩ := run_eq_ok_iff.mp ht
  obtain ⟨q', lifted, lifted', hq', hbuilt, hbuilt', hsame⟩ := exists_addAll_perm hp hperm
  obtain rfl : q = q' := Except.ok.inj (hq.symm.trans hq')
  obtain ⟨hstore, hstats, hmodules⟩ := hbuilt.stats_perm hbuilt' hperm hsame
  have hrenames := ((hbuilt.renames hbuilt' hperm hsame).finalize.2).locateAll references
  obtain ⟨hfinal, hpstore, hptable, hpempty⟩ := locateAll_eq (p := p.finalize.2) rfl references
  obtain ⟨-, hqstore, hqtable, hqempty⟩ := locateAll_eq (p := q.finalize.2) rfl references
  refine ⟨p.store.translate q.store, hrenames.snapshot hfinal hsame.bijective ?_ ?_ ?_ ?_⟩
  · intro id
    rw [hpstore, hqstore]
    exact hsame.translate_lt_iff
  · intro name
    rw [hptable, hqtable, modules_finalize, modules_finalize]
    exact hmodules name
  · rw [hpstore, hqstore]
    exact hstore
  · rw [hpempty, hqempty]
    show q.stats.emptyBlocks = p.stats.emptyBlocks
    rw [hstats]

/-- A function of one instruction with two registers; `spin` has the one under a memory access and the other as
it is here. -/
def leaf : DecodedFunction where
  entry := 0x3000
  name := "leaf"
  blocks := [[], [{ address := 0x3000, size := 2, operands := [[.register "esp"], [.register "edx"]] }]]

theorem run_perm_swap :
    ∃ s t σ, run {} [spin 0x1000, leaf] [⟨0x1000, 0⟩] = .ok s ∧ run {} [leaf, spin 0x1000] [⟨0x1000, 0⟩] = .ok t ∧
      s.store.nodes ≠ t.store.nodes ∧ Snapshot.Renames σ s t := by
  have hperm : [spin 0x1000, leaf].Perm [leaf, spin 0x1000] := .swap _ _ _
  have hnodes : (run {} [spin 0x1000, leaf] [⟨0x1000, 0⟩]).toOption.map (·.store.nodes) ≠
      (run {} [leaf, spin 0x1000] [⟨0x1000, 0⟩]).toOption.map (·.store.nodes) := by decide +kernel
  have hok : (run {} [spin 0x1000, leaf] [⟨0x1000, 0⟩]).isOk = true := by decide +kernel
  obtain ⟨hiff, hrenames⟩ := run_perm hperm {} [⟨0x1000, 0⟩]
  obtain ⟨s, hs⟩ : ∃ s, run {} [spin 0x1000, leaf] [⟨0x1000, 0⟩] = .ok s := by
    cases hrun : run {} [spin 0x1000, leaf] [⟨0x1000, 0⟩] with
    | ok s => exact ⟨s, rfl⟩
    | error error =>
      rw [hrun] at hok
      cases hok
  obtain ⟨t, ht⟩ := hiff.mp ⟨s, hs⟩
  obtain ⟨σ, hσ⟩ := hrenames s t hs ht
  refine ⟨s, t, σ, hs, ht, fun heq => hnodes ?_, hσ⟩
  rw [hs, ht]
  exact congrArg some heq

end Pass

end Export

end Disassembly
