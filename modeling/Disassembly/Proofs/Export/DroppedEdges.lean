import Disassembly.Proofs.Export.Deferral
import Disassembly.Proofs.Flow.Totals

/-!
# Where edges go

A pass may be finalized several times, when it is asked to, and when a reference is to be located or the pass ends
and functions were added since. Edges that are dropped are dropped once: the next finalization does not find them
any more, and reports only what it drops itself. So the edges of the accepted functions are those left in the model
and those dropped by all finalizations together (`Pass.edgeCount_ensureFinalized_after`), while the statistics of
the model know the last finalization alone. They account for every edge exactly if none before it dropped one
(`Pass.edges_of_outcomes`).
-/

namespace Disassembly

open Disassembly.Expression Disassembly.Flow

namespace Flow.FunctionTable

variable {table : FunctionTable} {name : Option String}

@[simp] theorem toList_nameModule : (table.nameModule name).toList = table.toList := by
  rw [toList, toList, functions_nameModule]

end Flow.FunctionTable

namespace Export.Pass

variable {p : Pass} {decoded : DecodedFunction} {f : Function} {t : Lifting}

/-! ### Finalizations of a pass -/

/-- The outcome of the finalization that a pass is due, if it is due one. -/
def due? (p : Pass) : Option FinalizeStats := if p.finalized then none else some p.finalize.1

/-- The outcome of the finalization that a call makes, if it makes one. -/
def outcome? (p : Pass) : Call → Option FinalizeStats
  | .add _ => none
  | .finalize => some p.finalize.1
  | .locate _ => p.due?

/-- The outcomes of all finalizations from here through some calls to the end of the pass, in order. -/
def outcomes (p : Pass) : List Call → List FinalizeStats
  | [] => p.due?.toList
  | call :: calls => (p.outcome? call).toList ++ (p.answer call).2.outcomes calls

/-! ### Edges through calls -/

/-- A function that is accepted comes on top of those in the table. -/
theorem toList_accept_perm (hnew : p.table.contains decoded.entry = false) (hentry : f.entry = decoded.entry) :
    (p.accept decoded f t).table.toList.Perm (f :: p.table.toList) := by
  have hnamed : (p.table.nameModule decoded.moduleName).contains f.entry = false := by
    rwa [hentry, FunctionTable.contains, FunctionTable.functions_nameModule]
  have hperm := FunctionTable.toList_insert_perm hnamed
  rwa [FunctionTable.toList_nameModule] at hperm

/-- A finalization drops edges and reports how many. -/
theorem edgeCount_finalize (p : Pass) :
    p.finalize.2.table.edgeCount + p.finalize.1.edgesDropped = p.table.edgeCount := by
  obtain ⟨-, -, -, hedges⟩ := p.counts_finalize
  rw [← hedges]
  exact p.table.edges_finalize p.settings.repairEdges

theorem edgeCount_ensureFinalized (p : Pass) :
    p.ensureFinalized.table.edgeCount + total FinalizeStats.edgesDropped p.due?.toList = p.table.edgeCount := by
  unfold ensureFinalized due?
  split
  · rfl
  · exact p.edgeCount_finalize

/-- A call brings in the edges of the function that it adds, and loses those that it reports as dropped. -/
theorem edgeCount_answer (p : Pass) (call : Call) :
    (p.answer call).2.table.edgeCount + total FinalizeStats.edgesDropped (p.outcome? call).toList =
      p.table.edgeCount +
        ((taken? (call, (p.answer call).1)).toList.flatMap DecodedFunction.edges).length := by
  cases call with
  | add decoded =>
    obtain ⟨-, hadd⟩ | ⟨-, error, t, -, hadd⟩ | ⟨hnew, f, t, hlift, hadd⟩ := p.add_cases decoded
    · simp [answer, hadd, outcome?, taken?]
    · simp [answer, hadd, outcome?, taken?, refuse, FunctionTable.edgeCount_eq]
    · obtain ⟨blocks, rfl⟩ := Lifting.exists_assemble hlift
      have hperm := toList_accept_perm (t := t) (f := decoded.assemble blocks) hnew rfl
      have hedges := (hperm.flatMap_right Function.edges).length_eq
      simp only [List.flatMap_cons, List.length_append, ← FunctionTable.edgeCount_eq] at hedges
      simp only [answer, hadd, outcome?, taken?, hedges]
      simp [DecodedFunction.assemble, Nat.add_comm]
  | finalize => exact p.edgeCount_finalize
  | locate reference => exact p.edgeCount_ensureFinalized

/-- The edges of the functions accepted by some calls, and those that were in the table before, are those in the
table in the end and those that finalizations dropped. -/
theorem edgeCount_ensureFinalized_after (p : Pass) (calls : List Call) :
    (p.after calls).ensureFinalized.table.edgeCount + total FinalizeStats.edgesDropped (p.outcomes calls) =
      p.table.edgeCount + ((p.accepted calls).flatMap DecodedFunction.edges).length := by
  induction calls generalizing p with
  | nil => exact p.edgeCount_ensureFinalized
  | cons call calls ih =>
    have hfirst := p.edgeCount_answer call
    have hrest := ih (p.answer call).2
    rw [after_cons, accepted_cons, outcomes, total_append, List.flatMap_append, List.length_append]
    omega

/-! ### The last finalization -/

theorem stats_finalize_ensureFinalized (p : Pass) :
    p.ensureFinalized.stats.finalize = p.due?.getD p.stats.finalize := by
  unfold ensureFinalized due?
  split <;> rfl

theorem stats_finalize_answer (p : Pass) (call : Call) :
    (p.answer call).2.stats.finalize = (p.outcome? call).getD p.stats.finalize := by
  cases call with
  | add decoded =>
    obtain ⟨-, hadd⟩ | ⟨-, error, t, -, hadd⟩ | ⟨-, f, t, -, hadd⟩ := p.add_cases decoded <;>
      simp [answer, hadd, outcome?, refuse, accept]
  | finalize => rfl
  | locate reference => exact p.stats_finalize_ensureFinalized

/-- The statistics hold the outcome of the last finalization, or what they held before if there was none. -/
theorem stats_finalize_ensureFinalized_after (p : Pass) (calls : List Call) :
    (p.after calls).ensureFinalized.stats.finalize = (p.outcomes calls).getLast?.getD p.stats.finalize := by
  induction calls generalizing p with
  | nil =>
    refine p.stats_finalize_ensureFinalized.trans ?_
    unfold outcomes
    cases p.due? <;> rfl
  | cons call calls ih =>
    rw [after_cons, ih, stats_finalize_answer, outcomes, List.getLast?_append]
    cases ((p.answer call).2.outcomes calls).getLast? <;> cases p.outcome? call <;> rfl

/-- A pass that is due a finalization is finalized at the end, if not before. -/
theorem outcomes_ne_nil (hp : p.finalized = false) (calls : List Call) : p.outcomes calls ≠ [] := by
  induction calls generalizing p with
  | nil => simp [outcomes, due?, hp]
  | cons call calls ih =>
    cases call with
    | add decoded =>
      have hdue : (p.add decoded).2.finalized = false := by
        obtain ⟨-, hadd⟩ | ⟨-, error, t, -, hadd⟩ | ⟨-, f, t, -, hadd⟩ := p.add_cases decoded <;> rw [hadd]
        · exact hp
        · exact hp
        · rfl
      exact ih hdue
    | finalize => simp [outcomes, outcome?]
    | locate reference => simp [outcomes, outcome?, due?, hp]

/-! ### The accounts of a model -/

/-- The edges of the accepted functions are those left in the model and those dropped by all finalizations. The
statistics hold the outcome of the last finalization, and the edges that are left. With the dropped edges that
they report these are all edges exactly if no finalization but the last dropped any. -/
theorem edges_of_outcomes (settings : Settings) (store : Store) (calls : List Call) :
    let start := onStore settings store
    let s := (start.after calls).snapshot
    let outcomes := start.outcomes calls
    let edges := (start.accepted calls).flatMap DecodedFunction.edges
    outcomes.getLast? = some s.stats.finalize ∧ s.stats.finalize.edges = s.table.edgeCount ∧
      edges.length = s.stats.finalize.edges + total FinalizeStats.edgesDropped outcomes ∧
      (edges.length = s.stats.finalize.edges + s.stats.finalize.edgesDropped ↔
        ∀ outcome ∈ outcomes.dropLast, outcome.edgesDropped = 0) := by
  intro start s outcomes edges
  have hlast : outcomes.getLast? = some s.stats.finalize := by
    obtain ⟨last, hlast⟩ := Option.ne_none_iff_exists'.mp
      (mt List.getLast?_eq_none_iff.mp (start.outcomes_ne_nil rfl calls))
    have hstats := start.stats_finalize_ensureFinalized_after calls
    rw [hlast] at hstats
    exact hlast.trans (congrArg some hstats.symm)
  have hsettled : (start.after calls).ensureFinalized.Settled :=
    settled_ensureFinalized (settled_after (fun h => by cases h) calls)
  have hedges : s.stats.finalize.edges = s.table.edgeCount := hsettled.edges_eq
  have htotal : edges.length = s.stats.finalize.edges + total FinalizeStats.edgesDropped outcomes := by
    have hrun := start.edgeCount_ensureFinalized_after calls
    have hempty : start.table.edgeCount = 0 := rfl
    rw [hempty, Nat.zero_add] at hrun
    rw [hedges]
    exact hrun.symm
  refine ⟨hlast, hedges, htotal, ?_⟩
  rw [htotal, Nat.add_left_cancel_iff]
  exact total_eq_last_iff hlast

/-- A function of one instruction, with an edge to an address where nothing is. -/
def stray : DecodedFunction where
  entry := 0x1000
  blocks := [[{ address := 0x1000, size := 2 }]]
  edges := [⟨0x1000, 0x9000, .unconditional⟩]

/-- Calls that finalize a function before another one is added. -/
def late : List Call := [.add stray, .finalize, .add (spin 0x3000)]

/-- The edge that the first finalization drops is in no account in the end. -/
theorem edges_not_accounted : ¬ ∀ (settings : Settings) (store : Store) (calls : List Call),
    let start := onStore settings store
    let s := (start.after calls).snapshot
    ((start.accepted calls).flatMap DecodedFunction.edges).length =
      s.stats.finalize.edges + s.stats.finalize.edgesDropped := by
  intro h
  exact absurd (h {} {} late) (by decide +kernel)

end Export.Pass

end Disassembly
