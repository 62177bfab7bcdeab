import Disassembly.Proofs.Export.History

/-!
# Refused functions

A function that is refused leaves the pass as it was, so far as later answers and the exported model go: the
requests made for it are taken back (`Pass.alike_of_refusal`). Hence the calls that were refused can be struck
from a history without a change to the other answers and to the model (`Pass.history_without_refusals`). It
does leave something behind in the accounts of the pass: the name of its module, and the count of the empty
blocks before its fault (`Pass.accounts_of_refusal`).
-/

namespace Disassembly.Export.Pass

open Disassembly.Expression Disassembly.Flow

variable {p q r : Pass} {decoded : DecodedFunction} {f : Function} {t u : Lifting} {call : Call}
  {calls : List Call} {error : Error}

/-! ### Alike passes -/

/-- The passes agree in everything but the names of modules, the empty blocks left out, and the count of
requests that were answered with a node that was there. -/
structure Alike (p q : Pass) : Prop extends Renames id p q where
  /-- Their stores are alike. -/
  alike : p.store.Alike q.store

namespace Alike

theorem refl (p : Pass) : p.Alike p where
  settings_eq := rfl
  store := .of_get?_eq fun _ => rfl
  table := FunctionTable.renames_id_iff.mpr ⟨rfl, rfl⟩
  attributions_eq := rfl
  finalize_eq := rfl
  backEdges_eq := rfl
  references_eq := rfl
  unresolved_eq := rfl
  finalized_eq := rfl
  alike := .refl _

theorem functions_eq (h : p.Alike q) : q.table.functions = p.table.functions :=
  (FunctionTable.renames_id_iff.mp h.table).1

theorem index_eq (h : p.Alike q) : q.table.index = p.table.index := h.table.index_eq

theorem trans (h : p.Alike q) (h' : q.Alike r) : p.Alike r where
  settings_eq := h'.settings_eq.trans h.settings_eq
  store := .of_get?_eq (h.alike.trans h'.alike).get?_eq
  table := FunctionTable.renames_id_iff.mpr
    ⟨h'.functions_eq.trans h.functions_eq, h'.index_eq.trans h.index_eq⟩
  attributions_eq := h'.attributions_eq.trans h.attributions_eq
  finalize_eq := h'.finalize_eq.trans h.finalize_eq
  backEdges_eq := h'.backEdges_eq.trans h.backEdges_eq
  references_eq := h'.references_eq.trans h.references_eq
  unresolved_eq := h'.unresolved_eq.trans h.unresolved_eq
  finalized_eq := h'.finalized_eq.trans h.finalized_eq
  alike := h.alike.trans h'.alike

/-- Functions accepted by both with the same outcome. -/
theorem accept (h : p.Alike q) (hlifting : t.Alike u) :
    (p.accept decoded f t).Alike (q.accept decoded f u) where
  settings_eq := h.settings_eq
  store := .of_get?_eq hlifting.store.get?_eq
  table := by
    have hnamed : FunctionTable.Renames id (p.table.nameModule decoded.moduleName)
        (q.table.nameModule decoded.moduleName) := FunctionTable.renames_id_iff.mpr (by
      simp [h.functions_eq, h.index_eq])
    have hinsert := hnamed.insert f
    rwa [Function.rename_id] at hinsert
  attributions_eq := h.attributions_eq
  finalize_eq := h.finalize_eq
  backEdges_eq := h.backEdges_eq
  references_eq := h.references_eq
  unresolved_eq := h.unresolved_eq
  finalized_eq := rfl
  alike := hlifting.store

theorem ensureFinalized (h : p.Alike q) : p.ensureFinalized.Alike q.ensureFinalized where
  toRenames := h.toRenames.ensureFinalized
  alike := by
    unfold Pass.ensureFinalized
    split <;> split <;> exact h.alike

/-- Alike passes give the same answer to a call that is not refused, and are alike after it. -/
theorem answer (h : p.Alike q) (hok : (p.answer call).1.isRefusal = false) :
    (q.answer call).1 = (p.answer call).1 ∧ (p.answer call).2.Alike (q.answer call).2 := by
  cases call with
  | add decoded =>
    have hcontains := h.table.contains_eq decoded.entry
    obtain ⟨-, hp⟩ | ⟨-, error, t, -, hp⟩ | ⟨hnew, f, t, hlift, hp⟩ := p.add_cases decoded
    · rw [Pass.answer, hp] at hok
      cases hok
    · rw [Pass.answer, hp] at hok
      cases hok
    · obtain ⟨hresult, hlifting⟩ :=
        Lifting.function_alike (s := { store := p.store }) (t := { store := q.store }) ⟨h.alike, rfl⟩ decoded
      obtain ⟨hknown, -⟩ | ⟨-, error, u, hfail, -⟩ | ⟨-, g, u, hlift', hq⟩ := q.add_cases decoded
      · rw [hcontains, hnew] at hknown
        cases hknown
      · rw [hlift, hfail] at hresult
        cases hresult
      · rw [hlift, hlift'] at hresult hlifting
        cases hresult
        rw [Pass.answer, Pass.answer, hp, hq]
        exact ⟨rfl, h.accept hlifting⟩
  | finalize =>
    obtain ⟨hstats, hnext⟩ := h.toRenames.finalize
    exact ⟨congrArg Answer.finalized hstats, hnext, h.alike⟩
  | locate reference =>
    obtain ⟨hposition, hnext⟩ := h.toRenames.locate reference
    exact ⟨congrArg Answer.located hposition, hnext, h.ensureFinalized.alike⟩

end Alike

/-! ### What a refusal leaves behind -/

/-- Going back to where a function was begun makes up for all requests made for it. -/
theorem refuse_alike (hp : p.store.Tidy) (hgrows : p.store.Grows t.store) : (p.refuse decoded t).Alike p where
  settings_eq := rfl
  store := .of_get?_eq (hgrows.alike_rollback hp).get?_eq
  table := FunctionTable.renames_id_iff.mpr ⟨by simp [refuse], by simp [refuse]⟩
  attributions_eq := rfl
  finalize_eq := rfl
  backEdges_eq := rfl
  references_eq := rfl
  unresolved_eq := rfl
  finalized_eq := rfl
  alike := hgrows.alike_rollback hp

theorem alike_of_refusal (hp : p.store.Tidy) (hrefused : (p.answer call).1.isRefusal = true) :
    (p.answer call).2.Alike p := by
  cases call with
  | add decoded =>
    obtain ⟨-, hadd⟩ | ⟨-, error, t, hlift, hadd⟩ | ⟨-, f, t, -, hadd⟩ := p.add_cases decoded
    · rw [answer, hadd]
      exact .refl p
    · rw [answer, hadd]
      exact refuse_alike hp (grows_of_function hlift)
    · rw [answer, hadd] at hrefused
      cases hrefused
  | finalize => cases hrefused
  | locate reference => cases hrefused

/-- Alike passes stay so if one of them is spared the calls that the other refuses. -/
theorem Alike.history (h : p.Alike q) (hp : p.store.Reachable) (calls : List Call) :
    let kept := (p.history calls).filter fun (_, answer) => !answer.isRefusal
    q.history (kept.map Prod.fst) = kept ∧ (p.after calls).Alike (q.after (kept.map Prod.fst)) := by
  induction calls generalizing p q with
  | nil => exact ⟨rfl, h⟩
  | cons call calls ih =>
    have hnext := reachable_answer hp call
    cases hrefused : (p.answer call).1.isRefusal with
    | true =>
      obtain ⟨hhistory, hafter⟩ := ih ((alike_of_refusal hp.tidy hrefused).trans h) hnext
      simp only [Pass.history, List.filter_cons, hrefused]
      exact ⟨hhistory, hafter⟩
    | false =>
      obtain ⟨hanswer, hboth⟩ := h.answer hrefused
      obtain ⟨hhistory, hafter⟩ := ih hboth hnext
      simp only [Pass.history, List.filter_cons, hrefused, Bool.not_false, if_true, List.map_cons, hanswer]
      exact ⟨congrArg _ hhistory, hafter⟩

/-- The calls that were refused can be left out of a history: the others are answered as before, and the pass
ends with the same nodes under the same ids, the same signatures and interned symbols, the same functions and
attributions, and the same outcome of the finalization. -/
theorem history_without_refusals (hp : p.Reachable) (calls : List Call) :
    let kept := (p.history calls).filter fun (_, answer) => !answer.isRefusal
    let s := (p.after calls).snapshot
    let t := (p.after (kept.map Prod.fst)).snapshot
    p.history (kept.map Prod.fst) = kept ∧ t.store.nodes = s.store.nodes ∧
      t.store.bySignature = s.store.bySignature ∧ t.store.symbols = s.store.symbols ∧
      t.table.functions = s.table.functions ∧ t.table.index = s.table.index ∧
      t.attributions = s.attributions ∧ t.stats.finalize = s.stats.finalize ∧
      t.stats.backEdges = s.stats.backEdges := by
  intro kept s t
  obtain ⟨hhistory, hafter⟩ := (Alike.refl p).history hp.store calls
  have hend := hafter.ensureFinalized
  exact ⟨hhistory, hend.alike.nodes_eq.symm, hend.alike.bySignature_eq.symm, hend.alike.symbols_eq.symm,
    hend.functions_eq, hend.index_eq, hend.attributions_eq, hend.finalize_eq, hend.backEdges_eq⟩

/-- A function of one instruction, which reads memory and jumps to itself. -/
def spin (entry : Address) : DecodedFunction where
  entry
  blocks := [[{ address := entry, size := 3, operands := [[.register "edx"], Store.access] }]]
  edges := [⟨entry, entry, .unconditional⟩]

/-- A function with an empty block before one whose only instruction has a register without a name. -/
def nameless : DecodedFunction where
  entry := 0x2000
  moduleName := some "libc"
  blocks := [[], [{ address := 0x2000, size := 2, operands := [[.register "ebx"], [.register ""]] }]]

/-- A pass on a store that was used before. -/
def reused : Pass := onStore { clearStore := false } (({} : Store).internOperand [.register "eax"]).2

/-- Calls of which two are refused: a register has no name, and an entry point is taken. -/
def mixed : List Call :=
  [.add (spin 0x1000), .add nameless, .locate ⟨0x1000, 0⟩, .add (spin 0x1000), .add (spin 0x3000), .finalize]

theorem reachable_reused : reused.Reachable :=
  ⟨_, _, [], Store.Reachable.empty.step (.internOperand _ _), rfl⟩

theorem history_without_refusals_mixed :
    let kept := (reused.history mixed).filter fun (_, answer) => !answer.isRefusal
    kept.map Prod.fst =
        [.add (spin 0x1000), .locate ⟨0x1000, 0⟩, .add (spin 0x3000), .finalize] ∧
      (reused.after mixed).snapshot.stats.backEdges = 2 ∧
      reused.history (kept.map Prod.fst) = kept ∧
      (reused.after (kept.map Prod.fst)).snapshot.store.nodes = (reused.after mixed).snapshot.store.nodes := by
  intro kept
  obtain ⟨hhistory, hnodes, -⟩ := history_without_refusals reachable_reused mixed
  exact ⟨by decide +kernel, by decide +kernel, hhistory, hnodes⟩

theorem add_nameless : (start {}).add nameless =
    (.error (.expression (.emptySymbol .register)), ((start {}).add nameless).2) :=
  Prod.ext (by decide +kernel) rfl

/-- A function that is refused for its entry point leaves no trace. One that cannot be lifted leaves the name of
its module interned and the empty blocks before its fault counted: no trace in the accounts of the pass exactly
if the module was known, or none was named, and no block before the fault is empty. -/
theorem accounts_of_refusal (h : p.add decoded = (.error error, q)) :
    (error = .duplicateFunction decoded.entry ∧ q = p) ∨
      ∃ cause before faulty after blocks u, error = .expression cause ∧
        decoded.blocks = before ++ faulty :: after ∧
        Lifting.each Lifting.block { store := p.store } before = (.ok blocks, u) ∧
        (u.block faulty).1 = .error cause ∧
        (∀ name, name ∈ q.table.modules.slots ↔
          name ∈ p.table.modules.slots ∨ decoded.moduleName = some name) ∧
        q.stats = { p.stats with emptyBlocks := p.stats.emptyBlocks + before.countP List.isEmpty } ∧
        ((∀ name, name ∈ q.table.modules.slots ↔ name ∈ p.table.modules.slots) ∧ q.stats = p.stats ↔
          (∀ name ∈ decoded.moduleName, name ∈ p.table.modules.slots) ∧ [] ∉ before) := by
  obtain ⟨-, hadd⟩ | ⟨-, cause, t, hlift, hadd⟩ | ⟨-, f, t, -, hadd⟩ := p.add_cases decoded
  · rw [hadd] at h
    cases h
    exact .inl ⟨rfl, rfl⟩
  · rw [hadd] at h
    cases h
    obtain ⟨before, faulty, after, blocks, u, hblocks, hbefore, hfaulty, hcount⟩ := Lifting.function_eq_error hlift
    have hmodules (name : String) : name ∈ (p.refuse decoded t).table.modules.slots ↔
        name ∈ p.table.modules.slots ∨ decoded.moduleName = some name := FunctionTable.mem_modules_nameModule
    have hstats : (p.refuse decoded t).stats =
        { p.stats with emptyBlocks := p.stats.emptyBlocks + before.countP List.isEmpty } := by
      simp only [refuse, hcount, Nat.zero_add]
    refine .inr ⟨cause, before, faulty, after, blocks, u, rfl, hblocks, hbefore, hfaulty, hmodules, hstats,
      and_congr ?_ ?_⟩
    · simp only [hmodules, or_iff_left_iff_imp]
      exact forall_congr' fun name => by rw [Option.mem_def]
    · have hcountP : before.countP List.isEmpty = 0 ↔ [] ∉ before := by
        rw [List.countP_eq_zero]
        exact ⟨fun hnone hmem => hnone _ hmem rfl, fun hmem block hblock hempty =>
          hmem (List.isEmpty_iff.mp hempty ▸ hblock)⟩
      rw [hstats, ← hcountP]
      refine ⟨fun heq => ?_, fun heq => by rw [heq, Nat.add_zero]⟩
      exact Nat.add_left_cancel (congrArg PassStats.emptyBlocks heq)
  · rw [hadd] at h
    cases h

/-- In an empty pass a trace is left by a function with a register that has no name: its module, and the
empty block before the fault. -/
theorem accounts_of_refusal_nameless :
    (∀ name, name ∈ ((start {}).add nameless).2.table.modules.slots ↔ name = "libc") ∧
      ((start {}).add nameless).2.stats = { emptyBlocks := 1 } := by
  obtain ⟨herror, -⟩ | ⟨-, -, -, -, -, -, -, -, -, -, hmodules, -, -⟩ := accounts_of_refusal add_nameless
  · cases herror
  · refine ⟨fun name => (hmodules name).trans ?_, by decide +kernel⟩
    simp [start, onStore, nameless, eq_comm]

theorem accounts_not_kept : ¬ ∀ (p : Pass) (decoded : DecodedFunction) (error : Error) (q : Pass),
    p.Reachable → p.add decoded = (.error error, q) →
      (∀ name, name ∈ q.table.modules.slots ↔ name ∈ p.table.modules.slots) ∧ q.stats = p.stats := by
  intro h
  have hstats := (h _ _ _ _ ⟨{}, {}, [], .empty, rfl⟩ add_nameless).2
  exact absurd hstats (by decide +kernel)

end Disassembly.Export.Pass
