import Disassembly.Proofs.Export.Accepted

/-!
# When a pass is finalized

A pass can be finalized at any time and more than once, and so it is if references are located between functions
that are added. What it ends in depends on the functions alone (`Pass.snapshot_deferred`). A pass that puts
finalizations off has the same functions as one that does not, though in another form (`Pass.Defers`); and
everything that a finalization sets is read off functions in their final form (`Pass.Settled`), in which they stay
when finalized again.
-/

namespace Disassembly

open Disassembly.Expression Disassembly.Flow

namespace Flow.FunctionTable

variable {s t : FunctionTable} {name : Option String}

theorem modules_nameModule_congr (h : s.modules = t.modules) :
    (s.nameModule name).modules = (t.nameModule name).modules := by
  cases name with
  | none => exact h
  | some name =>
    simp only [nameModule, internModule, h]

/-! ### Changes to functions that stay where they are -/

variable (table : FunctionTable) (change : Function → Function) (hentry : ∀ f, (change f).entry = f.entry)

include hentry

theorem toList_map : (table.map change).toList = table.toList.map change := by
  have hfunctions : (table.map change).functions = table.functions.map fun _ => change := by
    refine Std.ExtTreeMap.ext_getElem? fun entry => ?_
    show (table.map change).get? entry = _
    rw [get?_map, Std.ExtTreeMap.getElem?_map]
    refine Option.map_congr fun f hf => ?_
    obtain rfl := table.entry_eq hf
    exact congrArg (fun entry => { change f with entry }) (hentry f).symm
  rw [toList, toList, hfunctions, values_map]

theorem spans_map (hblocks : ∀ f, (change f).blocks = f.blocks) : (table.map change).spans = table.spans := by
  simp only [spans, toList_map table change hentry, List.flatMap_map, hentry, hblocks]

theorem edgeCount_map (hedges : ∀ f, (change f).edges = f.edges) :
    (table.map change).edgeCount = table.edgeCount := by
  simp only [edgeCount, toList_map table change hentry, List.map_map, Function.comp_def, hedges]

end Flow.FunctionTable

namespace Export.Pass

variable {p q : Pass}

/-! ### What a finalization sets -/

/-- All that a finalization sets is read off the functions, which are in their final form. Of edges that were
dropped nothing is said: they are not there any more. -/
structure Settled (p : Pass) : Prop where
  /-- To finalize a function again changes nothing. -/
  final_eq : ∀ entry f, p.table.get? entry = some f → p.settings.final f = f
  /-- The index is that of the blocks. -/
  index_eq : p.table.index = .ofSpans p.table.spans
  /-- The functions were counted, -/
  functions_eq : p.stats.finalize.functions = p.table.size
  /-- so were their blocks, -/
  basicBlocks_eq : p.stats.finalize.basicBlocks = p.table.index.size
  /-- their edges -/
  edges_eq : p.stats.finalize.edges = p.table.edgeCount
  /-- and their back edges. -/
  backEdges_eq : p.stats.backEdges = (p.table.toList.map fun f => f.backEdges.length).foldr (· + ·) 0

/-- The index and the counts are those of the functions afterwards. Their types are assigned only then, but nothing
here depends on them. -/
theorem counts_finalize (p : Pass) :
    p.finalize.2.table.index = .ofSpans p.finalize.2.table.spans ∧
      p.finalize.1.functions = p.finalize.2.table.size ∧
      p.finalize.1.basicBlocks = p.finalize.2.table.index.size ∧
      p.finalize.1.edges = p.finalize.2.table.edgeCount := by
  let sorted := (p.table.finalize p.settings.repairEdges).2
  let classified (f : Function) : Function := { f with type := f.classify }
  have htable : p.finalize.2.table = if p.settings.classifyTypes then sorted.map classified else sorted := rfl
  have hfunctions : p.finalize.1.functions = sorted.size := rfl
  have hbasicBlocks : p.finalize.1.basicBlocks = sorted.index.size := rfl
  have hedges : p.finalize.1.edges = sorted.edgeCount := rfl
  rw [htable, hfunctions, hbasicBlocks, hedges]
  split
  · have hspans := sorted.spans_map classified (fun _ => rfl) fun _ => rfl
    have hedgeCount := sorted.edgeCount_map classified (fun _ => rfl) fun _ => rfl
    refine ⟨?_, Std.ExtTreeMap.size_map.symm, rfl, hedgeCount.symm⟩
    rw [hspans]
    rfl
  · exact ⟨rfl, rfl, rfl, rfl⟩

theorem settled_finalize (p : Pass) : p.finalize.2.Settled := by
  obtain ⟨hindex, hfunctions, hbasicBlocks, hedges⟩ := p.counts_finalize
  refine ⟨?_, hindex, hfunctions, hbasicBlocks, hedges, rfl⟩
  intro entry f hf
  rw [get?_finalize] at hf
  obtain ⟨g, -, rfl⟩ := Option.map_eq_some_iff.mp hf
  exact p.settings.final_final g

namespace Settled

/-- It does not matter which modules are named, which nodes there are, and what references were attributed. -/
theorem congr (h : p.Settled) (hsettings : q.settings = p.settings)
    (htable : q.table.functions = p.table.functions ∧ q.table.index = p.table.index)
    (hfinalize : q.stats.finalize = p.stats.finalize) (hbackEdges : q.stats.backEdges = p.stats.backEdges) :
    q.Settled := by
  have hsame : FunctionTable.Renames id p.table q.table := FunctionTable.renames_id_iff.mpr htable
  have hsize : q.table.size = p.table.size := congrArg Std.ExtTreeMap.size htable.1
  exact {
    final_eq := by
      intro entry f hf
      rw [hsettings]
      apply h.final_eq entry
      rwa [FunctionTable.get?, ← htable.1]
    index_eq := by rw [hsame.index_eq, hsame.spans_eq, h.index_eq]
    functions_eq := by rw [hfinalize, hsize, h.functions_eq]
    basicBlocks_eq := by rw [hfinalize, hsame.index_eq, h.basicBlocks_eq]
    edges_eq := by rw [hfinalize, hsame.edgeCount_eq, h.edges_eq]
    backEdges_eq := by rw [hbackEdges, hsame.backEdges_eq, h.backEdges_eq] }

/-- Settled passes with the same functions and modules agree in all that a finalization sets. -/
theorem eq_of_get?_eq (hp : p.Settled) (hq : q.Settled) (hget : ∀ entry, q.table.get? entry = p.table.get? entry)
    (hmodules : q.table.modules = p.table.modules) :
    q.table = p.table ∧ q.stats.finalize.functions = p.stats.finalize.functions ∧
      q.stats.finalize.basicBlocks = p.stats.finalize.basicBlocks ∧
      q.stats.finalize.edges = p.stats.finalize.edges ∧ q.stats.backEdges = p.stats.backEdges := by
  have hspans : q.table.spans = p.table.spans := by
    have hfunctions : q.table.functions = p.table.functions := Std.ExtTreeMap.ext_getElem? hget
    rw [FunctionTable.spans, FunctionTable.spans, FunctionTable.toList, FunctionTable.toList, hfunctions]
  have htable : q.table = p.table :=
    FunctionTable.ext_get? hget hmodules (by rw [hp.index_eq, hq.index_eq, hspans])
  refine ⟨htable, ?_, ?_, ?_, ?_⟩
  · rw [hp.functions_eq, hq.functions_eq, htable]
  · rw [hp.basicBlocks_eq, hq.basicBlocks_eq, htable]
  · rw [hp.edges_eq, hq.edges_eq, htable]
  · rw [hp.backEdges_eq, hq.backEdges_eq, htable]

end Settled

theorem settled_ensureFinalized (h : p.finalized = true → p.Settled) : p.ensureFinalized.Settled := by
  unfold ensureFinalized
  split
  · exact h ‹_›
  · exact p.settled_finalize

/-- Every call leaves a pass that is settled if it is marked as finalized. -/
theorem settled_answer (h : p.finalized = true → p.Settled) (call : Call)
    (hfinalized : (p.answer call).2.finalized = true) : (p.answer call).2.Settled := by
  cases call with
  | add decoded =>
    obtain ⟨-, hadd⟩ | ⟨-, error, u, -, hadd⟩ | ⟨-, f, u, -, hadd⟩ := p.add_cases decoded
    · rw [answer, hadd] at hfinalized ⊢
      exact h hfinalized
    · rw [answer, hadd] at hfinalized ⊢
      exact (h hfinalized).congr rfl ⟨FunctionTable.functions_nameModule, FunctionTable.index_nameModule⟩ rfl rfl
    · rw [answer, hadd] at hfinalized
      cases hfinalized
  | finalize => exact p.settled_finalize
  | locate reference => exact (settled_ensureFinalized h).congr rfl ⟨rfl, rfl⟩ rfl rfl

theorem settled_after (h : p.finalized = true → p.Settled) (calls : List Call)
    (hfinalized : (p.after calls).finalized = true) : (p.after calls).Settled := by
  induction calls generalizing p with
  | nil => exact h hfinalized
  | cons call calls ih => exact ih (settled_answer h call) hfinalized

/-! ### Passes that put finalizations off -/

/-- Whether a function is to be added. -/
def Call.isAdd : Call → Bool
  | .add _ => true
  | _ => false

/-- The second pass is the first but for finalizations that it puts off, and references that it leaves out. -/
structure Defers (p q : Pass) : Prop where
  /-- They are asked to do the same. -/
  settings_eq : q.settings = p.settings
  /-- They have the same nodes. -/
  store_eq : q.store = p.store
  /-- The same modules are named. -/
  modules_eq : q.table.modules = p.table.modules
  /-- Their functions have the same final form. -/
  final_get?_eq (entry : Address) :
    (q.table.get? entry).map p.settings.final = (p.table.get? entry).map p.settings.final

namespace Defers

theorem refl (p : Pass) : Defers p p where
  settings_eq := rfl
  store_eq := rfl
  modules_eq := rfl
  final_get?_eq _ := rfl

variable (h : Defers p q)

include h

theorem contains_eq (entry : Address) : q.table.contains entry = p.table.contains entry := by
  have hsome := congrArg Option.isSome (h.final_get?_eq entry)
  rwa [Option.isSome_map, Option.isSome_map, ← FunctionTable.contains_eq_isSome,
    ← FunctionTable.contains_eq_isSome] at hsome

theorem finalize_left : Defers p.finalize.2 q where
  settings_eq := h.settings_eq
  store_eq := h.store_eq
  modules_eq := h.modules_eq.trans p.modules_finalize.symm
  final_get?_eq entry := by
    show _ = (p.finalize.2.table.get? entry).map p.settings.final
    rw [get?_finalize, Option.map_map, Function.comp_def]
    simp only [Settings.final_final]
    exact h.final_get?_eq entry

theorem ensureFinalized_left : Defers p.ensureFinalized q := by
  unfold ensureFinalized
  split
  · exact h
  · exact h.finalize_left

theorem refuse (decoded : DecodedFunction) (lifting : Lifting) :
    Defers (p.refuse decoded lifting) (q.refuse decoded lifting) where
  settings_eq := h.settings_eq
  store_eq := by rw [Pass.refuse, Pass.refuse, h.store_eq]
  modules_eq := FunctionTable.modules_nameModule_congr h.modules_eq
  final_get?_eq entry := by
    show ((q.table.nameModule _).get? entry).map _ = ((p.table.nameModule _).get? entry).map _
    rw [FunctionTable.get?_nameModule, FunctionTable.get?_nameModule]
    exact h.final_get?_eq entry

theorem accept (decoded : DecodedFunction) (f : Function) (lifting : Lifting) :
    Defers (p.accept decoded f lifting) (q.accept decoded f lifting) where
  settings_eq := h.settings_eq
  store_eq := rfl
  modules_eq := FunctionTable.modules_nameModule_congr h.modules_eq
  final_get?_eq entry := by
    show (((q.table.nameModule _).insert f).2.get? entry).map _ =
      (((p.table.nameModule _).insert f).2.get? entry).map _
    rw [FunctionTable.get?_insert, FunctionTable.get?_insert, FunctionTable.get?_nameModule,
      FunctionTable.get?_nameModule]
    split
    · rfl
    · exact h.final_get?_eq entry

/-- A function is added to both or refused by both. -/
theorem add (decoded : DecodedFunction) : Defers (p.add decoded).2 (q.add decoded).2 := by
  have hadd (r : Pass) : (r.add decoded).2 = if r.table.contains decoded.entry then r else
      match Lifting.function { store := r.store } decoded with
      | (.error _, lifting) => r.refuse decoded lifting
      | (.ok f, lifting) => r.accept decoded f lifting := by
    obtain ⟨hknown, hr⟩ | ⟨hnew, error, lifting, hlift, hr⟩ | ⟨hnew, f, lifting, hlift, hr⟩ := r.add_cases decoded
    · rw [hr, hknown, if_pos rfl]
    · rw [hr, hnew, if_neg Bool.false_ne_true, hlift]
    · rw [hr, hnew, if_neg Bool.false_ne_true, hlift]
  -- The entry points taken are the same, and so is the store, so that both go the same way.
  rw [hadd p, hadd q, h.contains_eq, h.store_eq]
  split
  · exact h
  · rcases Lifting.function { store := p.store } decoded with ⟨result, lifting⟩
    cases result with
    | error error => exact h.refuse decoded lifting
    | ok f => exact h.accept decoded f lifting

/-- Calls that add no function can be left out of the second pass. -/
theorem after (calls : List Call) : Defers (p.after calls) (q.after (calls.filter Call.isAdd)) := by
  induction calls generalizing p q with
  | nil => exact h
  | cons call calls ih =>
    cases call with
    | add decoded => exact ih (h.add decoded)
    | finalize => exact ih h.finalize_left
    | locate reference => exact ih { h.ensureFinalized_left with }

end Defers

/-- A model depends only on the functions that are added, and on their order: not on when the pass was finalized,
how often, or which references were located in between. -/
theorem snapshot_deferred (settings : Settings) (store : Store) (calls : List Call) :
    let start := onStore settings store
    let s := (start.after calls).snapshot
    let t := (start.after (calls.filter Call.isAdd ++ [.finalize])).snapshot
    s.store = t.store ∧ s.table = t.table ∧ s.stats.finalize.functions = t.stats.finalize.functions ∧
      s.stats.finalize.basicBlocks = t.stats.finalize.basicBlocks ∧
      s.stats.finalize.edges = t.stats.finalize.edges ∧ s.stats.backEdges = t.stats.backEdges := by
  intro start s t
  let p := (start.after calls).ensureFinalized
  let q := start.after (calls.filter Call.isAdd)
  have hdefers : Defers p q := ((Defers.refl start).after calls).ensureFinalized_left
  have hp : p.Settled := settled_ensureFinalized (settled_after (fun h => by cases h) calls)
  have hq : q.finalize.2.Settled := q.settled_finalize
  -- To put the functions of `p` into their final form changes nothing, and those of `q` become the same by it.
  have hget (entry : Address) : p.table.get? entry = q.finalize.2.table.get? entry := by
    have hfinal : (p.table.get? entry).map p.settings.final = p.table.get? entry := by
      cases hf : p.table.get? entry with
      | none => rfl
      | some f => rw [Option.map_some, hp.final_eq entry f hf]
    rw [get?_finalize, hdefers.settings_eq, hdefers.final_get?_eq, hfinal]
  have hmodules : p.table.modules = q.finalize.2.table.modules := by
    rw [modules_finalize, hdefers.modules_eq]
  have ht : t = q.finalize.2.snapshot := by
    show (start.after (calls.filter Call.isAdd ++ [.finalize])).snapshot = _
    rw [Pass.after, List.foldl_append]
    rfl
  rw [ht]
  exact ⟨hdefers.store_eq.symm, hq.eq_of_get?_eq hp hget hmodules⟩

end Export.Pass

end Disassembly
