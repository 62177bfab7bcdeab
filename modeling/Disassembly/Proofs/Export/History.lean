import Disassembly.Export.Pass
import Disassembly.Proofs.Export.Lifting
import Disassembly.Proofs.Expression.Renaming

/-!
# Histories of a pass

What a pass is asked for before its end, and what it answers: functions are added, it is finalized, references
are located, in any order (`Pass.history`). One lemma says what each way of adding a function does
(`Pass.add_cases`). Passes whose functions differ only in the names of nodes answer the same when finalized or
asked for the place of a reference, and go on like that (`Pass.Renames.finalize`, `Pass.Renames.locate`).
-/

namespace Disassembly

open Disassembly.Expression Disassembly.Flow

namespace Flow.FunctionTable

/-- The table after the name of a module was interned, if there is one. -/
def nameModule (table : FunctionTable) : Option String → FunctionTable
  | none => table
  | some name => (table.internModule name).2

variable {σ : NodeId → NodeId} {s t : FunctionTable} {name : Option String} {text : String}

@[simp] theorem functions_nameModule : (s.nameModule name).functions = s.functions := by
  cases name <;> rfl

@[simp] theorem index_nameModule : (s.nameModule name).index = s.index := by
  cases name <;> rfl

/-- The modules interned are those that were, and the one named. -/
theorem mem_modules_nameModule :
    text ∈ (s.nameModule name).modules.slots ↔ text ∈ s.modules.slots ∨ name = some text := by
  cases name with
  | none => simp [nameModule]
  | some name =>
    simp only [nameModule, internModule, Std.ExtTreeMap.mem_iff_isSome_getElem?, Text.Pool.slots_intern]
    by_cases htext : name = text
    · simp [htext]
    · simp [htext]

theorem renames_id_iff : Renames id s t ↔ t.functions = s.functions ∧ t.index = s.index := by
  have hmap : (s.functions.map fun _ f => f.rename id) = s.functions := by
    simp only [Function.rename_id, id_eq, Std.ExtTreeMap.map_id]
  refine ⟨fun h => ⟨by rw [h.functions_eq, hmap], h.index_eq⟩, fun h => ⟨by rw [h.1, hmap], h.2⟩⟩

theorem Renames.insert (h : Renames σ s t) (f : Function) :
    Renames σ (s.insert f).2 (t.insert (f.rename σ)).2 where
  functions_eq := Std.ExtTreeMap.ext_getElem? fun entry => by
    simp only [FunctionTable.insert, h.functions_eq, Std.ExtTreeMap.getElem?_insert, Std.ExtTreeMap.getElem?_map]
    show (if compare f.entry entry = .eq then _ else _) = _
    split <;> rfl
  index_eq := h.index_eq

end Flow.FunctionTable

namespace Export.Pass

variable {σ : NodeId → NodeId} {p q r : Pass} {decoded : DecodedFunction} {f : Function} {t : Lifting}

/-! ### Calls and answers -/

/-- What a pass may be asked for before it ends. -/
inductive Call where
  /-- To add a function. -/
  | add (decoded : DecodedFunction)
  /-- To finalize all functions. -/
  | finalize
  /-- To find the place of a reference. -/
  | locate (reference : Reference)
  deriving DecidableEq, Repr

/-- What a pass answers. -/
inductive Answer where
  /-- The function was added, or refused. -/
  | added (result : Except Error Unit)
  /-- The outcome of the finalization. -/
  | finalized (stats : FinalizeStats)
  /-- The place, if one was found. -/
  | located (position : Option Position)

/-- Whether a function was refused. -/
def Answer.isRefusal : Answer → Bool
  | .added (.error _) => true
  | _ => false

/-- The answer to a call, and the pass after it. -/
def answer (p : Pass) : Call → Answer × Pass
  | .add decoded => (.added (p.add decoded).1, (p.add decoded).2)
  | .finalize => (.finalized p.finalize.1, p.finalize.2)
  | .locate reference => (.located (p.locate reference).1, (p.locate reference).2)

/-- Some calls one after the other, each with its answer. -/
def history (p : Pass) : List Call → List (Call × Answer)
  | [] => []
  | call :: calls => (call, (p.answer call).1) :: (p.answer call).2.history calls

/-- The pass after some calls. -/
def after (p : Pass) (calls : List Call) : Pass := calls.foldl (fun p call => (p.answer call).2) p

theorem after_cons (p : Pass) (call : Call) (calls : List Call) :
    p.after (call :: calls) = (p.answer call).2.after calls := rfl

/-- A pass that calls lead to from its start on a reachable store. -/
def Reachable (p : Pass) : Prop :=
  ∃ settings store calls, Store.Reachable store ∧ p = (onStore settings store).after calls

/-! ### Adding a function -/

/-- The pass after a function was lifted. -/
def accept (p : Pass) (decoded : DecodedFunction) (f : Function) (lifting : Lifting) : Pass :=
  { p with
    store := lifting.store
    table := ((p.table.nameModule decoded.moduleName).insert f).2
    stats := { p.stats with emptyBlocks := p.stats.emptyBlocks + lifting.emptyBlocks }
    finalized := false }

/-- The pass after a function could not be lifted. -/
def refuse (p : Pass) (decoded : DecodedFunction) (lifting : Lifting) : Pass :=
  { p with
    store := lifting.store.rollback p.store.checkpoint
    table := p.table.nameModule decoded.moduleName
    stats := { p.stats with emptyBlocks := p.stats.emptyBlocks + lifting.emptyBlocks } }

/-- A function is refused because there is one with its entry point or because it cannot be lifted, or else it
is accepted. -/
theorem add_cases (p : Pass) (decoded : DecodedFunction) :
    (p.table.contains decoded.entry = true ∧
        p.add decoded = (.error (.duplicateFunction decoded.entry), p)) ∨
      (p.table.contains decoded.entry = false ∧ ∃ error lifting,
        Lifting.function { store := p.store } decoded = (.error error, lifting) ∧
          p.add decoded = (.error (.expression error), p.refuse decoded lifting)) ∨
      (p.table.contains decoded.entry = false ∧ ∃ f lifting,
        Lifting.function { store := p.store } decoded = (.ok f, lifting) ∧
          p.add decoded = (.ok (), p.accept decoded f lifting)) := by
  unfold add
  cases p.table.contains decoded.entry with
  | true => exact .inl ⟨rfl, rfl⟩
  | false =>
    rcases Lifting.function { store := p.store } decoded with ⟨result, lifting⟩
    cases result with
    | error error => exact .inr (.inl ⟨rfl, error, lifting, rfl, rfl⟩)
    | ok f => exact .inr (.inr ⟨rfl, f, lifting, rfl, rfl⟩)

theorem add_eq_ok (h : p.add decoded = (.ok (), q)) : p.table.contains decoded.entry = false ∧
    ∃ f lifting, Lifting.function { store := p.store } decoded = (.ok f, lifting) ∧
      q = p.accept decoded f lifting := by
  obtain ⟨-, hadd⟩ | ⟨-, error, lifting, -, hadd⟩ | ⟨hnew, f, lifting, hlift, hadd⟩ := p.add_cases decoded
  · rw [hadd] at h
    cases h
  · rw [hadd] at h
    cases h
  · rw [hadd] at h
    cases h
    exact ⟨hnew, f, lifting, hlift, rfl⟩

theorem grows_of_function {result : Except Expression.Error Function}
    (h : Lifting.function { store := p.store } decoded = (result, t)) : p.store.Grows t.store := by
  have hgrows := Lifting.function_grows { store := p.store } decoded
  rwa [h] at hgrows

theorem store_ensureFinalized (p : Pass) : p.ensureFinalized.store = p.store := by
  unfold ensureFinalized
  split <;> rfl

theorem reachable_answer (h : p.store.Reachable) (call : Call) : (p.answer call).2.store.Reachable := by
  cases call with
  | add decoded =>
    obtain ⟨-, hadd⟩ | ⟨-, error, t, hlift, hadd⟩ | ⟨-, f, t, hlift, hadd⟩ := p.add_cases decoded
    · rwa [answer, hadd]
    · rw [answer, hadd]
      exact ((grows_of_function hlift).reachable h).step (.rollback _ h)
    · rw [answer, hadd]
      exact (grows_of_function hlift).reachable h
  | finalize => exact h
  | locate reference =>
    show p.ensureFinalized.store.Reachable
    rwa [store_ensureFinalized]

theorem reachable_after (h : p.store.Reachable) (calls : List Call) : (p.after calls).store.Reachable := by
  induction calls generalizing p with
  | nil => exact h
  | cons call calls ih => exact ih (reachable_answer h call)

theorem reachable_onStore {store : Store} (h : store.Reachable) (settings : Settings) :
    (onStore settings store).store.Reachable := by
  unfold onStore
  split
  · exact .empty
  · exact h

/-- The store of a pass is reachable, so that another pass may start on it. -/
theorem Reachable.store (h : p.Reachable) : p.store.Reachable := by
  obtain ⟨settings, store, calls, hstore, rfl⟩ := h
  exact reachable_after (reachable_onStore hstore settings) calls

/-! ### Passes that differ in the names of nodes -/

/-- The second pass is the first with its nodes renamed. Nothing is said of the names of modules, of the empty
blocks left out, and of how requests to the store were answered. -/
structure Renames (σ : NodeId → NodeId) (p q : Pass) : Prop where
  /-- They are asked to do the same. -/
  settings_eq : q.settings = p.settings
  /-- Their stores hold the same nodes under other ids. -/
  store : Store.Renames σ p.store q.store
  /-- Their functions are the same but for the ids. -/
  table : FunctionTable.Renames σ p.table q.table
  /-- References were attributed alike. -/
  attributions_eq : q.attributions = p.attributions
  /-- The last finalization had the same outcome, -/
  finalize_eq : q.stats.finalize = p.stats.finalize
  /-- with as many back edges. -/
  backEdges_eq : q.stats.backEdges = p.stats.backEdges
  /-- As many references were attributed, -/
  references_eq : q.stats.references = p.stats.references
  /-- and for as many no place was found. -/
  unresolved_eq : q.stats.unresolved = p.stats.unresolved
  /-- No function was added to either since, or one to both. -/
  finalized_eq : q.finalized = p.finalized

namespace Renames

variable (h : Renames σ p q)

include h

theorem finalize : q.finalize.1 = p.finalize.1 ∧ Renames σ p.finalize.2 q.finalize.2 := by
  obtain ⟨hstats, htable⟩ := h.table.finalize p.settings.repairEdges
  have hclassified : FunctionTable.Renames σ
      (if p.settings.classifyTypes then (p.table.finalize p.settings.repairEdges).2.map
        fun f => { f with type := f.classify } else (p.table.finalize p.settings.repairEdges).2)
      (if p.settings.classifyTypes then (q.table.finalize p.settings.repairEdges).2.map
        fun f => { f with type := f.classify } else (q.table.finalize p.settings.repairEdges).2) := by
    split
    · refine htable.map fun f => ?_
      rw [Function.classify_rename]
      rfl
    · exact htable
  unfold Pass.finalize
  rw [h.settings_eq]
  exact ⟨hstats, {
    settings_eq := rfl
    store := h.store
    table := hclassified
    attributions_eq := h.attributions_eq
    finalize_eq := hstats
    backEdges_eq := congrArg (List.foldr (· + ·) 0) hclassified.backEdges_eq
    references_eq := h.references_eq
    unresolved_eq := h.unresolved_eq
    finalized_eq := rfl }⟩

theorem ensureFinalized : Renames σ p.ensureFinalized q.ensureFinalized := by
  unfold Pass.ensureFinalized
  rw [h.finalized_eq]
  split
  · exact h
  · exact h.finalize.2

theorem locate (reference : Reference) : (q.locate reference).1 = (p.locate reference).1 ∧
    Renames σ (p.locate reference).2 (q.locate reference).2 := by
  have hfinal := h.ensureFinalized
  have hposition : (q.locate reference).1 = (p.locate reference).1 := by
    show (q.ensureFinalized.table.instructionAt? reference.source).bind _ =
      (p.ensureFinalized.table.instructionAt? reference.source).bind _
    rw [hfinal.table.instructionAt?_eq, Option.bind_map]
    refine congrArg _ (funext fun i => ?_)
    exact i.locate?_rename hfinal.store
  refine ⟨hposition, {
    settings_eq := hfinal.settings_eq
    store := hfinal.store
    table := hfinal.table
    attributions_eq := ?_
    finalize_eq := hfinal.finalize_eq
    backEdges_eq := hfinal.backEdges_eq
    references_eq := congrArg (· + 1) hfinal.references_eq
    unresolved_eq := ?_
    finalized_eq := hfinal.finalized_eq }⟩
  · show q.ensureFinalized.attributions.push ⟨_, _, (q.locate reference).1⟩ =
      p.ensureFinalized.attributions.push ⟨_, _, (p.locate reference).1⟩
    rw [hposition, hfinal.attributions_eq]
  · show q.ensureFinalized.stats.unresolved + (if (q.locate reference).1.isNone then 1 else 0) =
      p.ensureFinalized.stats.unresolved + if (p.locate reference).1.isNone then 1 else 0
    rw [hposition, hfinal.unresolved_eq]

end Renames

end Export.Pass

end Disassembly
