import Disassembly.Export.Counter
import Disassembly.Proofs.Export.Run
import Disassembly.Proofs.Flow.Totals

/-!
# Passes one after another

A pass can go on with the nodes of the one before it. The store then goes on counting as well: the statistics of a
model in such a chain are those of all passes so far, and not of the last one (`Session.stats_of_chain`). So the
counters that passes add to when they end come to more than was asked for, unless the passes before asked for
nothing.
-/

namespace Disassembly

open Disassembly.Expression Disassembly.Flow

namespace Expression

/-- How many requests were answered. -/
def StoreStats.requests (stats : StoreStats) : Nat := stats.created + stats.deduplicated

end Expression

namespace Export

/-! ### What is asked of a store -/

namespace Pass

variable {p : Pass} {call : Call}

/-- The drafts that a call asks for nodes of. -/
def Call.drafts : Call → List (Draft Nat)
  | .add decoded => decoded.drafts
  | .finalize => []
  | .locate _ => []

/-- Every draft of a call that is not refused is a request to the store. -/
theorem requests_answer (hp : p.store.Tidy) (haccepted : (p.answer call).1.isRefusal = false) :
    (p.answer call).2.store.stats.requests = p.store.stats.requests + call.drafts.length := by
  cases call with
  | add decoded =>
    obtain ⟨-, hadd⟩ | ⟨-, error, t, -, hadd⟩ | ⟨-, f, t, hlift, hadd⟩ := p.add_cases decoded
    · rw [answer, hadd] at haccepted
      cases haccepted
    · rw [answer, hadd] at haccepted
      cases haccepted
    · obtain ⟨blocks, -, hstored, -⟩ := Lifting.function_eq_ok hp hlift
      rw [answer, hadd]
      exact hstored.answered_eq
  | finalize => rfl
  | locate reference =>
    show p.ensureFinalized.store.stats.requests = _
    rw [store_ensureFinalized]
    rfl

/-- The drafts of calls of which none is refused are all requests. -/
theorem requests_after (hp : p.store.Reachable) (calls : List Call)
    (haccepted : ∀ entry ∈ p.history calls, entry.2.isRefusal = false) :
    (p.after calls).store.stats.requests = p.store.stats.requests + (calls.flatMap Call.drafts).length := by
  induction calls generalizing p with
  | nil => rfl
  | cons call calls ih =>
    rw [history, List.forall_mem_cons] at haccepted
    obtain ⟨hfirst, hrest⟩ := haccepted
    rw [after_cons, ih (reachable_answer hp call) hrest, requests_answer hp.tidy hfirst, List.flatMap_cons,
      List.length_append, Nat.add_assoc]

end Pass

/-! ### Sessions -/

/-- A pass as a whole: what it is asked to do at its start, and what it is asked for before its end. -/
structure Session where
  /-- What it is asked to do. -/
  settings : Settings
  /-- What it is asked for. -/
  calls : List Pass.Call

namespace Session

variable {session first : Session} {store : Store} {sessions rest : List Session} {snapshots later : List Snapshot}

/-- Its start on a store. -/
def start (session : Session) (store : Store) : Pass := Pass.onStore session.settings store

/-- Its end. -/
def snapshot (session : Session) (store : Store) : Snapshot := ((session.start store).after session.calls).snapshot

/-- The drafts that it asks for nodes of. -/
def drafts (session : Session) : List (Draft Nat) := session.calls.flatMap Pass.Call.drafts

/-- On the given store, no function is refused. -/
def Accepted (session : Session) (store : Store) : Prop :=
  ∀ entry ∈ (session.start store).history session.calls, entry.2.isRefusal = false

/-- The passes follow each other, each on the nodes of the one before it, the first on those of the given store. They
end in the given models, and no function is refused. -/
inductive Chain : Store → List Session → List Snapshot → Prop where
  /-- There is no pass. -/
  | nil (store : Store) : Chain store [] []
  /-- A pass takes over the nodes, and the others follow on its own. -/
  | cons {session : Session} {store : Store} {sessions : List Session} {snapshots : List Snapshot} :
    session.settings.clearStore = false → session.Accepted store →
      Chain (session.snapshot store).store sessions snapshots →
      Chain store (session :: sessions) (session.snapshot store :: snapshots)

theorem start_store_of_keep (hkeep : session.settings.clearStore = false) (store : Store) :
    (session.start store).store = store := by
  rw [start, Pass.onStore, hkeep]
  rfl

/-- The statistics of a store at the end of a pass. -/
theorem stats_snapshot (hstore : store.Reachable) (hkept : (session.start store).store = store)
    (haccepted : session.Accepted store) :
    let s := session.snapshot store
    s.store.Reachable ∧ s.stats.store.created = s.store.size ∧
      s.stats.store.requests = store.stats.requests + session.drafts.length ∧ s.stats.store = s.store.stats := by
  intro s
  have hstart : (session.start store).store.Reachable := by rwa [hkept]
  have hend : s.store = ((session.start store).after session.calls).store := Pass.store_ensureFinalized _
  have hstats : s.stats.store = s.store.stats := rfl
  have hreachable : s.store.Reachable := by
    rw [hend]
    exact Pass.reachable_after hstart session.calls
  refine ⟨hreachable, hreachable.wellFormed.created_eq, ?_, hstats⟩
  rw [hstats, hend, Pass.requests_after hstart session.calls haccepted, hkept]
  rfl

/-- In a chain the statistics of a store are those of the store at the start and of all passes since. -/
theorem Chain.stats_eq (h : Chain (first.snapshot store).store rest later) (hstore : store.Reachable)
    (hkept : (first.start store).store = store) (hfirst : first.Accepted store) {k : Nat} {s : Snapshot}
    (hs : (first.snapshot store :: later)[k]? = some s) :
    s.stats.store.created = s.store.size ∧
      s.stats.store.requests = store.stats.requests + (((first :: rest).take (k + 1)).flatMap drafts).length := by
  induction k generalizing first store rest later with
  | zero =>
    obtain ⟨-, hcreated, hrequests, -⟩ := stats_snapshot hstore hkept hfirst
    obtain rfl := Option.some.inj hs
    simpa using ⟨hcreated, hrequests⟩
  | succ k ih =>
    obtain ⟨hreachable, -, hrequests, hstats⟩ := stats_snapshot hstore hkept hfirst
    cases h with
    | nil => cases hs
    | cons hkeep haccepted hrest =>
      have hnext := start_store_of_keep hkeep (first.snapshot store).store
      obtain ⟨hsize, hlater⟩ := ih hrest hreachable hnext haccepted hs
      refine ⟨hsize, ?_⟩
      rw [hlater, ← hstats, hrequests, Nat.add_assoc, ← List.length_append, ← List.flatMap_cons]
      rfl

/-- Along a chain of passes that starts without nodes, each statistics of the store are those of all passes so far:
every node that there is was counted as created, and every draft of any of these passes as a request. They are those
of the last of these alone exactly if the passes before asked for nothing. So what all passes add to the counter of
created nodes is the number of nodes in the end exactly if there were none before the last pass. -/
theorem stats_of_chain (hfirst : first.Accepted {}) (h : Chain (first.snapshot {}).store rest later) :
    let sessions := first :: rest
    let snapshots := first.snapshot {} :: later
    (∀ k s, snapshots[k]? = some s →
      s.stats.store.created = s.store.size ∧
        s.stats.store.requests = ((sessions.take (k + 1)).flatMap drafts).length ∧
        ∀ session ∈ sessions[k]?, s.stats.store.requests = session.drafts.length ↔
          ∀ earlier ∈ sessions.take k, earlier.drafts = []) ∧
      ∀ last ∈ snapshots.getLast?,
        total (fun s => Counter.created.increment s.stats) snapshots = last.store.size ↔
          ∀ s ∈ snapshots.dropLast, s.store.size = 0 := by
  intro sessions snapshots
  have hall (k : Nat) (s : Snapshot) (hs : snapshots[k]? = some s) :
      s.stats.store.created = s.store.size ∧
        s.stats.store.requests = ((sessions.take (k + 1)).flatMap drafts).length := by
    obtain ⟨hsize, hrequests⟩ := h.stats_eq .empty (Pass.store_start first.settings) hfirst hs
    exact ⟨hsize, hrequests.trans (Nat.zero_add _)⟩
  constructor
  · intro k s hs
    obtain ⟨hsize, htotal⟩ := hall k s hs
    refine ⟨hsize, htotal, ?_⟩
    intro session hsession
    have hsplit : (sessions.take (k + 1)).flatMap drafts = (sessions.take k).flatMap drafts ++ session.drafts := by
      rw [List.take_add_one, hsession]
      simp
    rw [htotal, hsplit, List.length_append, Nat.add_eq_right, List.length_eq_zero_iff, List.flatMap_eq_nil_iff]
  · intro last hlast
    have hincrement : total (fun s => Counter.created.increment s.stats) snapshots =
        total (fun s => s.store.size) snapshots := by
      refine congrArg (List.foldr (· + ·) 0) (List.map_congr_left fun s hs => ?_)
      obtain ⟨k, hk⟩ := List.mem_iff_getElem?.mp hs
      exact (hall k s hk).1
    rw [hincrement]
    exact total_eq_last_iff hlast

/-- A pass that keeps the nodes of the one before it, and asks for the four of `spin`. -/
def spinning : Session where
  settings := { clearStore := false }
  calls := [.add (Pass.spin 0x1000)]

theorem accepted_spinning : spinning.Accepted {} ∧ spinning.Accepted (spinning.snapshot {}).store := by
  unfold Accepted
  decide +kernel

theorem chain_spinning :
    Chain (spinning.snapshot {}).store [spinning] [spinning.snapshot (spinning.snapshot {}).store] :=
  .cons rfl accepted_spinning.2 (.nil _)

/-- The pass twice: the second time it finds the four nodes, and still reports them as created. -/
theorem stats_of_chain_spinning :
    let s := spinning.snapshot {}
    let t := spinning.snapshot s.store
    s.store.size = 4 ∧ t.store.size = 4 ∧ t.stats.store.created = 4 ∧ t.stats.store.requests = 8 ∧
      t.stats.store.requests ≠ spinning.drafts.length ∧
      total (fun s => Counter.created.increment s.stats) [s, t] ≠ t.store.size := by
  intro s t
  have hs : s.store.size = 4 := by decide +kernel
  have ht : t.store.size = 4 := by decide +kernel
  obtain ⟨hstats, hincrements⟩ := stats_of_chain accepted_spinning.1 chain_spinning
  obtain ⟨hcreated, hrequests, hown⟩ := hstats 1 t rfl
  refine ⟨hs, ht, hcreated.trans ht, hrequests, ?_, ?_⟩
  · rw [Ne, hown spinning rfl]
    decide
  · rw [Ne, hincrements t rfl]
    intro hnone
    have hempty := hnone s (by simp [s])
    rw [hs] at hempty
    cases hempty

/-- The statistics of the second pass are not its own, and what both add to the counter of created nodes is not the
number of nodes. -/
theorem stats_not_of_pass :
    (¬ ∀ (first : Session) (rest : List Session) (later : List Snapshot),
      first.Accepted {} → Chain (first.snapshot {}).store rest later →
        ∀ (k : Nat) (session : Session) (s : Snapshot), (first :: rest)[k]? = some session →
          (first.snapshot {} :: later)[k]? = some s → s.stats.store.requests = session.drafts.length) ∧
      ¬ ∀ (first : Session) (rest : List Session) (later : List Snapshot),
        first.Accepted {} → Chain (first.snapshot {}).store rest later →
          ∀ last ∈ (first.snapshot {} :: later).getLast?,
            total (fun s => Counter.created.increment s.stats) (first.snapshot {} :: later) = last.store.size := by
  constructor
  · intro h
    exact absurd (h _ _ _ accepted_spinning.1 chain_spinning 1 _ _ rfl rfl) (by decide +kernel)
  · intro h
    exact absurd (h _ _ _ accepted_spinning.1 chain_spinning _ rfl) (by decide +kernel)

end Session

end Export

end Disassembly
