import Disassembly.Proofs.Export.Refusal
import Disassembly.Proofs.Expression.Calls

/-!
# Requests for refused functions

What was asked of the store for a function that is then refused: nodes for its drafts in reading order, up to the
first that cannot be stored (`Lifting.exists_answered_function`). When these requests are taken back the statistics
of the store are restored only if one of them was answered with a new node. If all were answered with nodes that were
there, they stay counted (`Pass.stats_of_taking_back`).
-/

namespace Disassembly

open Disassembly.Expression Disassembly.Flow

namespace Export

namespace Lifting

variable {α β : Type} {step : Lifting → α → Except Expression.Error β × Lifting}

/-! ### Ids given out while lifting -/

/-- If every step of a loop asks for nodes of the drafts of its item, the loop asks for those of all items. -/
theorem exists_answered_each (drafts : α → List (Draft Nat))
    (hstep : ∀ (s : Lifting) a, ∃ ids, s.store.Answered ids (step s a).2.store ∧
      Store.Covers (step s a).1 ids (drafts a)) (s : Lifting) (as : List α) :
    ∃ ids, s.store.Answered ids (s.each step as).2.store ∧
      Store.Covers (s.each step as).1 ids (as.flatMap drafts) := by
  induction as generalizing s with
  | nil => exact ⟨[], .nil _, rfl⟩
  | cons a as ih =>
    obtain ⟨ids, hanswered, hcovers⟩ := hstep s a
    rcases hresult : step s a with ⟨result, u⟩
    rw [hresult] at hanswered hcovers
    rw [List.flatMap_cons]
    cases result with
    | error error =>
      rw [each_cons_of_error hresult]
      exact ⟨ids, hanswered, hcovers.error_append⟩
    | ok b =>
      obtain ⟨ids', hanswered', hcovers'⟩ := ih u
      rw [each_cons_of_ok hresult]
      exact ⟨ids ++ ids', hanswered.append hanswered', Store.covers_map.mpr (.append hcovers hcovers')⟩

theorem exists_answered_operand (s : Lifting) (drafts : List (Draft Nat)) :
    ∃ ids, s.store.Answered ids (s.operand drafts).2.store ∧ Store.Covers (s.operand drafts).1 ids drafts :=
  s.store.exists_answered_internAfter #[] drafts

theorem exists_answered_instruction (s : Lifting) (decoded : DecodedInstruction) :
    ∃ ids, s.store.Answered ids (s.instruction decoded).2.store ∧
      Store.Covers (s.instruction decoded).1 ids decoded.drafts := by
  obtain ⟨ids, hanswered, hcovers⟩ := exists_answered_each id exists_answered_operand s decoded.operands
  rw [List.flatMap_id] at hcovers
  exact ⟨ids, hanswered, Store.covers_map.mpr hcovers⟩

theorem exists_answered_run (s : Lifting) (decoded : DecodedBlock) :
    ∃ ids, s.store.Answered ids (s.run decoded).2.store ∧
      Store.Covers (s.run decoded).1 ids (decoded.flatMap DecodedInstruction.drafts) :=
  exists_answered_each _ exists_answered_instruction s decoded

theorem exists_answered_function (s : Lifting) (decoded : DecodedFunction) :
    ∃ ids, s.store.Answered ids (s.function decoded).2.store ∧
      Store.Covers (s.function decoded).1 ids decoded.drafts := by
  obtain ⟨ids, hanswered, hcovers⟩ := exists_answered_each _ exists_answered_run s decoded.blocks
  rw [function_eq]
  exact ⟨ids, hanswered, Store.covers_map.mpr hcovers⟩

end Lifting

namespace Pass

/-! ### What stays counted -/

/-- When a store goes back to a mark after requests, the ids given out since stay counted if all of them are of nodes
that were there, and none does otherwise. So the statistics are what they were exactly if no id was given out or one
was of a new node. The same holds when a function is refused: for each of its drafts before the fault an id was given
out, unless its entry point is taken, and nothing asked for. -/
theorem stats_of_taking_back {s : Store} {p : Pass} (hs : s.Reachable) (hp : p.Reachable) :
    (∀ calls : List Store.Call, (∀ call ∈ calls, call.isRequest = true) →
      ∃ ids, s.Answered ids (s.after calls) ∧
        let r := (s.after calls).rollback s.checkpoint
        r.stats = { s.stats with deduplicated := s.stats.deduplicated + s.leftover ids } ∧
          (r.stats = s.stats ↔ ids = [] ∨ ∃ id ∈ ids, s.get? id = none)) ∧
      ∀ (decoded : DecodedFunction) (error : Error) (q : Pass), p.add decoded = (.error error, q) →
        (error = .duplicateFunction decoded.entry ∧ q = p) ∨
          ∃ cause lifting ids, error = .expression cause ∧
            Lifting.function { store := p.store } decoded = (.error cause, lifting) ∧
            p.store.Answered ids lifting.store ∧ ids.length < decoded.drafts.length ∧
            q.store.stats =
              { p.store.stats with deduplicated := p.store.stats.deduplicated + p.store.leftover ids } ∧
            (q.store.stats = p.store.stats ↔ ids = [] ∨ ∃ id ∈ ids, p.store.get? id = none) := by
  refine ⟨fun calls hcalls => ?_, fun decoded error q hadd => ?_⟩
  · obtain ⟨ids, hanswered⟩ := s.exists_answered_after hcalls
    exact ⟨ids, hanswered, hanswered.stats_rollback hs, hanswered.stats_rollback_eq_iff hs⟩
  · obtain ⟨-, hsame⟩ | ⟨-, cause, lifting, hlift, hrefuse⟩ | ⟨-, f, lifting, -, haccept⟩ := p.add_cases decoded
    · rw [hsame] at hadd
      cases hadd
      exact .inl ⟨rfl, rfl⟩
    · rw [hrefuse] at hadd
      cases hadd
      obtain ⟨ids, hanswered, hcovers⟩ := Lifting.exists_answered_function { store := p.store } decoded
      rw [hlift] at hanswered hcovers
      exact .inr ⟨cause, lifting, ids, rfl, hlift, hanswered, hcovers, hanswered.stats_rollback hp.store,
        hanswered.stats_rollback_eq_iff hp.store⟩
    · rw [haccept] at hadd
      cases hadd

/-- A pass that knows the function `spin`. -/
def spun : Pass := ((start {}).add (spin 0x1000)).2

/-- A function with a register of `spin`, and then one without a name. -/
def echo : DecodedFunction where
  entry := 0x2000
  blocks := [[{ address := 0x2000, size := 2, operands := [[.register "edx"], [.register ""]] }]]

theorem reachable_spun : spun.Reachable := ⟨{}, {}, [.add (spin 0x1000)], .empty, rfl⟩

theorem add_echo : spun.add echo = (.error (.expression (.emptySymbol .register)), (spun.add echo).2) :=
  Prod.ext (by decide +kernel) rfl

/-- The nodes of the memory access are asked for again, and so is the register of `spin`: they are all there, and stay
counted. -/
theorem stats_of_taking_back_echo :
    ((Store.accessed.after [.internOperand Store.access]).rollback Store.accessed.checkpoint).stats = ⟨3, 3⟩ ∧
      (∃ ids, Store.accessed.Answered ids (Store.accessed.after [.internOperand Store.access]) ∧
        Store.accessed.leftover ids = 3) ∧
      (spun.add echo).2.store.stats = ⟨4, 1⟩ ∧
      ∃ (lifting : Lifting) (ids : List NodeId), spun.store.Answered ids lifting.store ∧
        ids.length < echo.drafts.length ∧ spun.store.leftover ids = 1 := by
  have haccessed : Store.accessed.stats = ⟨3, 0⟩ := by decide +kernel
  have hspun : spun.store.stats = ⟨4, 0⟩ := by decide +kernel
  have hreturned :
      ((Store.accessed.after [.internOperand Store.access]).rollback Store.accessed.checkpoint).stats = ⟨3, 3⟩ := by
    decide +kernel
  have hrefused : (spun.add echo).2.store.stats = ⟨4, 1⟩ := by decide +kernel
  obtain ⟨hrollback, hrefusal⟩ := stats_of_taking_back Store.reachable_accessed reachable_spun
  refine ⟨hreturned, ?_, hrefused, ?_⟩
  · obtain ⟨ids, hanswered, hstats, -⟩ :=
      hrollback [.internOperand Store.access] (by simp [Store.Call.isRequest])
    refine ⟨ids, hanswered, ?_⟩
    rw [hreturned, haccessed, StoreStats.mk.injEq, Nat.zero_add] at hstats
    exact hstats.2.symm
  · obtain ⟨herror, -⟩ | ⟨cause, lifting, ids, -, -, hanswered, hlength, hstats, -⟩ :=
      hrefusal echo _ _ add_echo
    · cases herror
    · refine ⟨lifting, ids, hanswered, hlength, ?_⟩
      rw [hrefused, hspun, StoreStats.mk.injEq, Nat.zero_add] at hstats
      exact hstats.2.symm

/-- The statistics are not always restored: neither when a store goes back to a mark, nor when a function is
refused. -/
theorem stats_not_taken_back :
    (¬ ∀ (s : Store) (calls : List Store.Call), s.Reachable → (∀ call ∈ calls, call.isRequest = true) →
      ((s.after calls).rollback s.checkpoint).stats = s.stats) ∧
      ¬ ∀ (p : Pass) (decoded : DecodedFunction) (error : Error) (q : Pass), p.Reachable →
        p.add decoded = (.error error, q) → q.store.stats = p.store.stats := by
  constructor
  · intro h
    have hstats := h Store.accessed [.internOperand Store.access] Store.reachable_accessed
      (by simp [Store.Call.isRequest])
    exact absurd hstats (by decide +kernel)
  · intro h
    exact absurd (h _ _ _ _ reachable_spun add_echo) (by decide +kernel)

end Pass

end Export

end Disassembly
