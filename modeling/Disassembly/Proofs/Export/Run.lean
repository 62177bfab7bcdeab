import Disassembly.Proofs.Export.Accepted
import Disassembly.Proofs.Expression.Chains

/-!
# Functions that are all accepted

A run adds functions until one is refused. If none is, the pass has taken them all in as they were made, and its
accounts are the sums over them (`Built`). They are all accepted if there is some larger store that has their
operands, if their entry points are distinct, and if no symbol is missing (`exists_addAll`).
-/

namespace Disassembly.Export

open Disassembly.Expression Disassembly.Flow

/-- An item of the first list has a partner in the second. -/
theorem exists_of_mem_of_forall₂ {α β : Type} {R : α → β → Prop} {as : List α} {bs : List β} {a : α}
    (h : List.Forall₂ R as bs) (ha : a ∈ as) : ∃ b ∈ bs, R a b := by
  induction h with
  | nil => cases ha
  | cons hab _ ih =>
    obtain rfl | ha := List.mem_cons.mp ha
    · exact ⟨_, List.mem_cons_self, hab⟩
    · obtain ⟨b, hb, hab⟩ := ih ha
      exact ⟨b, List.mem_cons_of_mem _ hb, hab⟩

namespace Pass

variable {start p q : Pass} {functions more : List DecodedFunction} {lifted : List (List (List Instruction))}
  {decoded : DecodedFunction} {settings : Settings} {big : Store}

/-- A run starts without nodes, whether its store is emptied or not. -/
theorem store_start (settings : Settings) : (Pass.start settings).store = {} := by
  unfold Pass.start onStore
  split <;> rfl

/-- Functions are all accepted if the first is, and the others are after it. -/
theorem addAll_cons_eq_ok_iff : p.addAll (decoded :: more) = .ok q ↔
    p.table.contains decoded.entry = false ∧ ∃ f u,
      Lifting.function { store := p.store } decoded = (.ok f, u) ∧ (p.accept decoded f u).addAll more = .ok q := by
  obtain ⟨hknown, hadd⟩ | ⟨-, error, u, hfail, hadd⟩ | ⟨hnew, f, u, hlift, hadd⟩ := p.add_cases decoded
  · rw [addAll, hadd]
    exact iff_of_false (fun h => by cases h) fun ⟨hnew, _⟩ => by rw [hknown] at hnew; cases hnew
  · rw [addAll, hadd]
    exact iff_of_false (fun h => by cases h) fun ⟨_, f, u, hlift, _⟩ => by rw [hfail] at hlift; cases hlift
  · rw [addAll, hadd]
    refine ⟨fun h => ⟨hnew, f, u, hlift, h⟩, ?_⟩
    rintro ⟨-, f', u', hlift', h⟩
    rw [hlift] at hlift'
    cases hlift'
    exact h

/-- All the functions were added since the start, and nothing else was done. -/
structure Built (start : Pass) (functions : List DecodedFunction) (lifted : List (List (List Instruction)))
    (p : Pass) : Prop extends Took (fun f g => g = f) start functions lifted p where
  /-- Every draft was a request. -/
  answered_eq : p.store.stats.created + p.store.stats.deduplicated =
    start.store.stats.created + start.store.stats.deduplicated +
      (functions.flatMap DecodedFunction.drafts).length
  /-- No symbol was missing. -/
  hasSymbol : ∀ decoded ∈ functions, ∀ draft ∈ decoded.drafts, draft.lacksSymbol = false
  /-- No entry point occurs twice. -/
  nodup : (functions.map DecodedFunction.entry).Nodup
  /-- The modules named were interned. -/
  mem_modules : ∀ name, name ∈ p.table.modules.slots ↔
    name ∈ start.table.modules.slots ∨ ∃ decoded ∈ functions, decoded.moduleName = some name
  /-- The empty blocks were counted, and nothing else was. -/
  stats_eq : p.stats = { start.stats with
    emptyBlocks := start.stats.emptyBlocks + (functions.flatMap DecodedFunction.blocks).countP List.isEmpty }
  /-- The index is that of the start. -/
  index_eq : p.table.index = start.table.index
  /-- No reference was attributed. -/
  attributions_eq : p.attributions = start.attributions
  /-- Nothing was finalized. -/
  finalized_eq : p.finalized = false

namespace Built

theorem nil (settings : Settings) : Built (Pass.start settings) [] [] (Pass.start settings) where
  toTook := Took.nil settings .empty
  answered_eq := rfl
  hasSymbol := by simp
  nodup := .nil
  mem_modules := by simp
  stats_eq := rfl
  index_eq := rfl
  attributions_eq := rfl
  finalized_eq := rfl

theorem accept (h : Built start functions lifted p) (hnew : p.table.contains decoded.entry = false) {f : Function}
    {u : Lifting} (hlift : Lifting.function { store := p.store } decoded = (.ok f, u)) :
    ∃ blocks, Built start (functions ++ [decoded]) (lifted ++ [blocks]) (p.accept decoded f u) := by
  obtain ⟨blocks, rfl, hstored, hlifts, hempty⟩ := Lifting.function_eq_ok h.reachable.tidy hlift
  refine ⟨blocks, {
    toTook := h.toTook.accept rfl hnew (grows_of_function hlift) hstored.introduces hlifts
    answered_eq := ?_
    hasSymbol := List.forall_mem_append.mpr ⟨h.hasSymbol, by simpa using hstored.hasSymbol⟩
    nodup := ?_
    mem_modules := fun name => ?_
    stats_eq := ?_
    index_eq := ?_
    attributions_eq := h.attributions_eq
    finalized_eq := rfl }⟩
  · rw [List.flatMap_append, List.flatMap_singleton, List.length_append, ← Nat.add_assoc, ← h.answered_eq]
    exact hstored.answered_eq
  · rw [List.map_append, List.map_singleton, List.nodup_append_comm, List.singleton_append, List.nodup_cons]
    refine ⟨fun hmem => ?_, h.nodup⟩
    obtain ⟨other, hother, hentry⟩ := List.mem_map.mp hmem
    obtain ⟨_, -, hfiled⟩ := exists_of_mem_of_forall₂ h.filed hother
    obtain ⟨f, hf, -⟩ := hfiled.exists_get?
    rw [FunctionTable.contains_eq_isSome, ← hentry, hf] at hnew
    cases hnew
  · rw [show (p.accept decoded _ u).table.modules = (p.table.nameModule decoded.moduleName).modules from rfl,
      FunctionTable.mem_modules_nameModule, h.mem_modules, or_assoc]
    simp
  · show { p.stats with emptyBlocks := p.stats.emptyBlocks + u.emptyBlocks } = _
    rw [hempty, h.stats_eq, List.flatMap_append, List.flatMap_singleton, List.countP_append, Nat.zero_add,
      Nat.add_assoc]
  · exact (FunctionTable.index_nameModule (s := p.table)).trans h.index_eq

/-- Functions that are added without a refusal are taken in. -/
theorem addAll (h : Built start functions lifted p) (hok : p.addAll more = .ok q) :
    ∃ rest, Built start (functions ++ more) (lifted ++ rest) q := by
  induction more generalizing p functions lifted with
  | nil =>
    cases hok
    exact ⟨[], by rwa [List.append_nil, List.append_nil]⟩
  | cons decoded more ih =>
    obtain ⟨hnew, f, u, hlift, hrest⟩ := addAll_cons_eq_ok_iff.mp hok
    obtain ⟨blocks, hnext⟩ := h.accept hnew hlift
    obtain ⟨rest, hend⟩ := ih hnext hrest
    refine ⟨blocks :: rest, ?_⟩
    rwa [List.append_assoc, List.append_assoc] at hend

/-- A function that was taken in is filed as it was made. -/
theorem get?_of_mem (h : Built start functions lifted p) (hmem : decoded ∈ functions) :
    ∃ blocks, List.Forall₂ (List.Forall₂ (Lifts p.store)) decoded.blocks blocks ∧
      p.table.get? decoded.entry = some (decoded.assemble blocks) := by
  obtain ⟨blocks, -, hfiled⟩ := exists_of_mem_of_forall₂ h.filed hmem
  obtain ⟨f, hget, rfl⟩ := hfiled.exists_get?
  exact ⟨blocks, hfiled.lifts, hget⟩

/-- The operands of the functions are in the store, and lack no symbol. -/
theorem spells_of_mem (h : Built start functions lifted p) (hmem : decoded ∈ functions)
    {operand : List (Draft Nat)} (hoperand : operand ∈ decoded.operands) :
    (∃ ids, p.store.Spells operand ids) ∧ ∀ draft ∈ operand, draft.lacksSymbol = false := by
  refine ⟨?_, fun draft hdraft => h.hasSymbol decoded hmem draft (DecodedFunction.mem_drafts hdraft hoperand)⟩
  obtain ⟨blocks, hlifts, -⟩ := h.get?_of_mem hmem
  obtain ⟨block, hblock, hoperand⟩ := List.mem_flatMap.mp hoperand
  obtain ⟨i, hi, hoperand⟩ := List.mem_flatMap.mp hoperand
  obtain ⟨_, -, hblocks⟩ := exists_of_mem_of_forall₂ hlifts hblock
  obtain ⟨_, -, hinstruction⟩ := exists_of_mem_of_forall₂ hblocks hi
  obtain ⟨ids, -, hspells⟩ := exists_of_mem_of_forall₂ hinstruction.operands hoperand
  exact ⟨ids, hspells⟩

end Built

/-- Functions with new entry points are all accepted if a larger store has their operands. -/
theorem exists_addAll (hbig : big.WellFormed) (hp : p.store.Tidy) (hsub : p.store.chains ⊆ big.chains)
    (hnew : ∀ decoded ∈ more, p.table.contains decoded.entry = false)
    (hnodup : (more.map DecodedFunction.entry).Nodup)
    (hgood : ∀ decoded ∈ more, ∀ operand ∈ decoded.operands,
      (∃ ids, big.Spells operand ids) ∧ ∀ draft ∈ operand, draft.lacksSymbol = false) :
    ∃ q, p.addAll more = .ok q ∧ q.store.chains ⊆ big.chains := by
  induction more generalizing p with
  | nil => exact ⟨p, rfl, hsub⟩
  | cons decoded more ih =>
    obtain ⟨hfirst, hmore⟩ := List.forall_mem_cons.mp hgood
    obtain ⟨hnewfirst, hnewmore⟩ := List.forall_mem_cons.mp hnew
    rw [List.map_cons, List.nodup_cons] at hnodup
    have hoperand {s : Store} {operand : List (Draft Nat)} (hs : s.Tidy ∧ s.chains ⊆ big.chains)
        (hoperand : (∃ ids, big.Spells operand ids) ∧ ∀ draft ∈ operand, draft.lacksSymbol = false) :
        ∃ ids t, s.internOperand operand = (.ok ids, t) ∧ t.Tidy ∧ t.chains ⊆ big.chains := by
      obtain ⟨⟨ids, hspells⟩, hsymbol⟩ := hoperand
      obtain ⟨out, t, hout, ht⟩ := hs.1.toWellFormed.exists_internOperand hbig hs.2 hspells hsymbol
      have htidy := (Store.Grows.internOperand s operand).tidy hs.1
      rw [hout] at htidy
      exact ⟨out, t, hout, htidy, ht⟩
    obtain ⟨f, u, hlift, hu, husub⟩ :=
      Lifting.exists_function_eq_ok (s := { store := p.store }) hoperand ⟨hp, hsub⟩ hfirst
    have hnext (other : DecodedFunction) (hother : other ∈ more) :
        (p.accept decoded f u).table.contains other.entry = false := by
      obtain ⟨blocks, rfl, -⟩ := Lifting.function_eq_ok hp hlift
      have hne : decoded.entry ≠ other.entry := fun heq =>
        hnodup.1 (List.mem_map.mpr ⟨other, hother, heq.symm⟩)
      rw [FunctionTable.contains_eq_isSome, get?_accept, if_neg hne, ← FunctionTable.contains_eq_isSome]
      exact hnewmore other hother
    obtain ⟨q, hq, hqsub⟩ := ih hu husub hnext hnodup.2 hmore
    exact ⟨q, addAll_cons_eq_ok_iff.mpr ⟨hnewfirst, f, u, hlift, hq⟩, hqsub⟩

end Pass

end Disassembly.Export
