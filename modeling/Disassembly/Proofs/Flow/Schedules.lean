import Disassembly.Proofs.Flow.Totals

/-!
# Finalizing in any order

A finalization may be shared among workers. Its `Work` is a tree: the functions wait at the leaves, and the counts of
dropped edges are added up towards the root, as soon as the two that belong together are known. A worker takes any of the
steps that are possible (`Step`), each of which concerns one function or one addition only.

Whatever tree it is and whichever steps are taken, the work ends, and it ends with what finalization is defined to be
(`FunctionTable.finalize_of_schedule`). What the functions left to do become is not touched by the steps taken before
(`Halfway`), since each function is worked on once. The functions may as well be finalized one after the other, in the
order of their entry points or any other.
-/

namespace Disassembly.Flow

/-! ### The index -/

/-- In order the ranges come in one way only. -/
theorem AddressIndex.ofSpans_eq {spans more : List Span} (hperm : spans.Perm more)
    (hsorted : spans.Pairwise fun a b => a.le b = true) : ofSpans more = ⟨withReach 0 spans⟩ := by
  have hsort : more.mergeSort Span.le = spans := mergeSort_isLE_eq hperm hsorted
  rw [ofSpans, hsort]

/-! ### One function after the other -/

namespace FunctionTable

variable {table start : FunctionTable} {repair : Bool} {entry : Address} {order : List Address}

/-- How many edges the function of an entry point loses when it is finalized. -/
def loss (table : FunctionTable) (repair : Bool) (entry : Address) : Nat :=
  ((table.get? entry).map fun f => (f.finalize repair).2).getD 0

/-- The table with the function of an entry point in its final form, and how many edges that function has lost. -/
def finalizeAt (table : FunctionTable) (repair : Bool) (entry : Address) : Nat × FunctionTable :=
  (table.loss repair entry, table.update entry fun f => (f.finalize repair).1)

/-- The table with the functions of some entry points finalized in turn, and how many edges they have lost. -/
def finalizeInTurn (repair : Bool) : List Address → FunctionTable → Nat × FunctionTable
  | [], table => (0, table)
  | entry :: order, table =>
    let (lost, table) := table.finalizeAt repair entry
    let (more, table) := finalizeInTurn repair order table
    (lost + more, table)

/-- What is left to do when every function is in its final form: to build the index and to count. -/
def conclude (table : FunctionTable) (dropped : Nat) : FinalizeStats × FunctionTable :=
  let index := AddressIndex.ofSpans table.spans
  ({ functions := table.size
     basicBlocks := index.size
     edges := table.edgeCount
     edgesDropped := dropped },
    { table with index })

theorem get?_finalizeAt (table : FunctionTable) (repair : Bool) (entry other : Address) :
    (table.finalizeAt repair entry).2.get? other =
      if entry = other then (table.get? other).map fun f => (f.finalize repair).1 else table.get? other := by
  rw [finalizeAt, get?_update]
  split
  · rename_i hentry
    subst hentry
    refine Option.map_congr fun f hf => ?_
    rw [← entry_of_get? hf, ← f.entry_finalize repair]
  · rfl

theorem modules_finalizeAt (table : FunctionTable) (repair : Bool) (entry : Address) :
    (table.finalizeAt repair entry).2.modules = table.modules := by
  unfold finalizeAt update
  split <;> rfl

/-- Edges are lost by the functions that there are. -/
theorem total_loss_keys (table : FunctionTable) (repair : Bool) :
    total (table.loss repair) table.functions.keys = (table.finalize repair).1.edgesDropped := by
  rw [edgesDropped_finalize, ← map_entry_toList, total_map]
  refine total_congr fun f hf => ?_
  rw [loss, mem_toList_iff.mp hf]
  rfl

theorem get?_eq_none (h : entry ∉ table.functions.keys) : table.get? entry = none :=
  Std.ExtTreeMap.getElem?_eq_none (mt Std.ExtTreeMap.mem_keys.mpr h)

/-- Functions in their final form and the count of the edges that they have lost make a finalization. -/
theorem conclude_eq_finalize
    (hget : ∀ entry, table.get? entry = (start.get? entry).map fun f => (f.finalize repair).1)
    (hmodules : table.modules = start.modules) :
    table.conclude (start.finalize repair).1.edgesDropped = start.finalize repair := by
  let final : FunctionTable := { (start.finalize repair).2 with index := table.index }
  have htable : table = final :=
    ext_get? (fun entry => (hget entry).trans (start.get?_finalize repair entry).symm) hmodules rfl
  rw [htable]
  rfl

end FunctionTable

/-! ### Work that is shared -/

/-- What is left to do for the functions of a table, by whoever comes first. -/
inductive Work where
  /-- A function waits to be finalized. -/
  | function (entry : Address)
  /-- So many edges are known to be lost. -/
  | count (lost : Nat)
  /-- Two pieces of work, whose counts are added in the end. -/
  | both (left right : Work)
  deriving DecidableEq, Repr

namespace Work

/-- The functions that wait. -/
def waiting : Work → List Address
  | function entry => [entry]
  | count _ => []
  | both left right => left.waiting ++ right.waiting

/-- The edges known to be lost. -/
def known : Work → Nat
  | function _ => 0
  | count lost => lost
  | both left right => left.known + right.known

/-- How many steps are left: one for each function and one for each addition. -/
def steps : Work → Nat
  | function _ => 1
  | count _ => 0
  | both left right => left.steps + right.steps + 1

/-- Work on all functions of a table, each of them once, of which nothing has been done yet. -/
structure Plans (work : Work) (table : FunctionTable) : Prop where
  /-- Every function waits once. -/
  waiting_perm : work.waiting.Perm table.functions.keys
  /-- Nothing has been counted. -/
  known_eq : work.known = 0

instance (work : Work) (table : FunctionTable) : Decidable (work.Plans table) :=
  decidable_of_iff (work.waiting.Perm table.functions.keys ∧ work.known = 0)
    ⟨fun h => ⟨h.1, h.2⟩, fun h => ⟨h.waiting_perm, h.known_eq⟩⟩

end Work

/-- A step of some worker. -/
inductive Step (repair : Bool) : FunctionTable → Work → FunctionTable → Work → Prop where
  /-- A function that waits is finalized. -/
  | finalize {table : FunctionTable} {entry : Address} :
    Step repair table (.function entry) (table.finalizeAt repair entry).2
      (.count (table.finalizeAt repair entry).1)
  /-- Two counts are added. -/
  | add {table : FunctionTable} {m n : Nat} : Step repair table (.both (.count m) (.count n)) table (.count (m + n))
  /-- There is a step in the left part. -/
  | left {table next : FunctionTable} {left right rest : Work} :
    Step repair table left next rest → Step repair table (.both left right) next (.both rest right)
  /-- There is a step in the right part. -/
  | right {table next : FunctionTable} {left right rest : Work} :
    Step repair table right next rest → Step repair table (.both left right) next (.both left rest)

/-- A number of steps, taken one after the other. -/
inductive Run (repair : Bool) : Nat → FunctionTable → Work → FunctionTable → Work → Prop where
  /-- None. -/
  | none {table : FunctionTable} {work : Work} : Run repair 0 table work table work
  /-- A step before others. -/
  | step {n : Nat} {table next reached : FunctionTable} {work rest left : Work} :
    Step repair table work next rest → Run repair n next rest reached left → Run repair (n + 1) table work reached left

variable {repair : Bool} {n : Nat} {start table next reached : FunctionTable} {work rest : Work}

/-- Every step leaves one less to take. -/
theorem Step.steps_eq (h : Step repair table work next rest) : work.steps = rest.steps + 1 := by
  induction h with
  | finalize => rfl
  | add => rfl
  | left _ ih =>
    simp only [Work.steps]
    omega
  | right _ ih =>
    simp only [Work.steps]
    omega

/-- What a step can do: it finalizes a function that waits and counts the edges lost, or it changes nothing but the
tree. -/
theorem Step.cases (h : Step repair table work next rest) :
    (∃ entry, work.waiting.Perm (entry :: rest.waiting) ∧ next = (table.finalizeAt repair entry).2 ∧
        rest.known = work.known + table.loss repair entry) ∨
      next = table ∧ rest.waiting = work.waiting ∧ rest.known = work.known := by
  induction h with
  | @finalize entry => exact .inl ⟨entry, .refl _, rfl, (Nat.zero_add _).symm⟩
  | add => exact .inr ⟨rfl, rfl, rfl⟩
  | left _ ih =>
    obtain ⟨entry, hwaiting, hnext, hknown⟩ | ⟨hnext, hwaiting, hknown⟩ := ih
    · refine .inl ⟨entry, hwaiting.append_right _, hnext, ?_⟩
      simp only [Work.known]
      omega
    · exact .inr ⟨hnext, by rw [Work.waiting, hwaiting, Work.waiting], by rw [Work.known, hknown, Work.known]⟩
  | @right _ left _ _ _ ih =>
    obtain ⟨entry, hwaiting, hnext, hknown⟩ | ⟨hnext, hwaiting, hknown⟩ := ih
    · refine .inl ⟨entry, (hwaiting.append_left left.waiting).trans List.perm_middle, hnext, ?_⟩
      simp only [Work.known]
      omega
    · exact .inr ⟨hnext, by rw [Work.waiting, hwaiting, Work.waiting], by rw [Work.known, hknown, Work.known]⟩

/-- Where work is not done there is a step to take. -/
theorem exists_step (repair : Bool) (table : FunctionTable) (work : Work) :
    (∃ lost, work = .count lost) ∨ ∃ next rest, Step repair table work next rest := by
  induction work with
  | function entry => exact .inr ⟨_, _, .finalize⟩
  | count lost => exact .inl ⟨lost, rfl⟩
  | both left right ihl ihr =>
    obtain ⟨m, rfl⟩ | ⟨next, rest, hstep⟩ := ihl
    · obtain ⟨n, rfl⟩ | ⟨next, rest, hstep⟩ := ihr
      · exact .inr ⟨_, _, .add⟩
      · exact .inr ⟨_, _, .right hstep⟩
    · exact .inr ⟨_, _, .left hstep⟩

/-! ### What steps keep -/

/-- The functions that still wait are as they were at the start, the others are in their final form, and the edges
that these have lost are counted. -/
structure Halfway (repair : Bool) (start table : FunctionTable) (work : Work) : Prop where
  /-- No function waits twice. -/
  nodup : work.waiting.Nodup
  /-- What has become of each function. -/
  get?_eq (entry : Address) : table.get? entry =
    if entry ∈ work.waiting then start.get? entry else (start.get? entry).map fun f => (f.finalize repair).1
  /-- The modules are the same. -/
  modules_eq : table.modules = start.modules
  /-- What is known to be lost and what is still to be lost is what is lost in all. -/
  balance : work.known + total (start.loss repair) work.waiting = (start.finalize repair).1.edgesDropped

namespace Halfway

theorem of_plans (h : work.Plans start) : Halfway repair start start work where
  nodup := h.waiting_perm.nodup_iff.mpr Std.ExtTreeMap.nodup_keys
  get?_eq entry := by
    split
    · rfl
    · rename_i hentry
      rw [FunctionTable.get?_eq_none (mt h.waiting_perm.mem_iff.mpr hentry), Option.map_none]
  modules_eq := rfl
  balance := by rw [h.known_eq, Nat.zero_add, total_perm h.waiting_perm, FunctionTable.total_loss_keys]

theorem step (h : Halfway repair start table work) (hstep : Step repair table work next rest) :
    Halfway repair start next rest := by
  obtain ⟨entry, hwaiting, rfl, hknown⟩ | ⟨rfl, hwaiting, hknown⟩ := hstep.cases
  · -- The function that is finalized has not been touched before.
    have hentry : table.get? entry = start.get? entry := by
      rw [h.get?_eq, if_pos (hwaiting.mem_iff.mpr List.mem_cons_self)]
    obtain ⟨hnew, hnodup⟩ := List.nodup_cons.mp (hwaiting.nodup_iff.mp h.nodup)
    refine ⟨hnodup, fun other => ?_, (table.modules_finalizeAt repair entry).trans h.modules_eq, ?_⟩
    · rw [FunctionTable.get?_finalizeAt, h.get?_eq]
      by_cases hother : entry = other
      · subst hother
        rw [if_pos rfl, if_pos (hwaiting.mem_iff.mpr List.mem_cons_self), if_neg hnew]
      · simp [hwaiting.mem_iff, hother, Ne.symm hother]
    · have hloss : table.loss repair entry = start.loss repair entry := by
        rw [FunctionTable.loss, hentry, FunctionTable.loss]
      have hbalance := h.balance
      rw [total_perm hwaiting, total_cons] at hbalance
      omega
  · exact ⟨hwaiting ▸ h.nodup, hwaiting ▸ h.get?_eq, h.modules_eq, by rw [hwaiting, hknown, h.balance]⟩

theorem run (h : Halfway repair start table work) (hrun : Run repair n table work reached rest) :
    Halfway repair start reached rest := by
  induction hrun with
  | none => exact h
  | step hstep _ ih => exact ih (h.step hstep)

/-- When no function waits, nothing but the index is missing. -/
theorem conclude_eq {lost : Nat} (h : Halfway repair start table (.count lost)) :
    table.conclude lost = start.finalize repair := by
  have hlost : lost = (start.finalize repair).1.edgesDropped := h.balance
  rw [hlost]
  refine FunctionTable.conclude_eq_finalize (fun entry => ?_) h.modules_eq
  rw [h.get?_eq, Work.waiting, if_neg List.not_mem_nil]

end Halfway

theorem Run.steps_eq (h : Run repair n table work reached rest) : work.steps = rest.steps + n := by
  induction h with
  | none => rfl
  | step hstep _ ih => rw [hstep.steps_eq, ih, Nat.add_assoc]

/-! ### Functions in turn as shared work -/

theorem Run.right {left : Work} (h : Run repair n table work reached rest) :
    Run repair n table (.both left work) reached (.both left rest) := by
  induction h with
  | none => exact .none
  | step hstep _ ih => exact .step (.right hstep) ih

theorem Run.snoc {after : FunctionTable} {left : Work} (h : Run repair n table work reached rest)
    (hstep : Step repair reached rest after left) : Run repair (n + 1) table work after left := by
  induction h with
  | none => exact .step hstep .none
  | step hfirst _ ih => exact .step hfirst (ih hstep)

/-- The functions of some entry points, one after the other. -/
def Work.inTurn : List Address → Work
  | [] => count 0
  | entry :: order => both (function entry) (inTurn order)

theorem Work.waiting_inTurn (order : List Address) : (inTurn order).waiting = order := by
  induction order with
  | nil => rfl
  | cons entry order ih => rw [inTurn, waiting, ih, waiting, List.singleton_append]

theorem Work.known_inTurn (order : List Address) : (inTurn order).known = 0 := by
  induction order with
  | nil => rfl
  | cons entry order ih => rw [inTurn, known, ih, known]

/-- To finalize functions in turn is one way to do the work. -/
theorem exists_run_inTurn (repair : Bool) (order : List Address) (table : FunctionTable) :
    ∃ n, Run repair n table (.inTurn order) (table.finalizeInTurn repair order).2
      (.count (table.finalizeInTurn repair order).1) := by
  induction order generalizing table with
  | nil => exact ⟨0, .none⟩
  | cons entry order ih =>
    obtain ⟨n, hrun⟩ := ih (table.finalizeAt repair entry).2
    exact ⟨n + 2, .step (.left .finalize) (hrun.right.snoc .add)⟩

/-! ### The result -/

/-- Whoever works on the functions of a table, in whatever order and adding up the edges lost in whatever groups: as
long as the work is not done there is a step to take, and after as many steps as there are functions and additions it is
done, with the same functions, index and counts. The same comes of finalizing the functions in turn, in the order of
their entry points or any other. The index is the same however the ranges are put in order. What is counted are the
functions, their blocks, and the edges that are left, and with those that were dropped these are as many as before. -/
theorem FunctionTable.finalize_of_schedule (table : FunctionTable) (repair : Bool) :
    (∀ (work rest : Work) (reached : FunctionTable) (n : Nat), work.Plans table → Run repair n table work reached rest →
        n < work.steps ∧ (∃ next left, Step repair reached rest next left) ∨
          n = work.steps ∧ ∃ lost, rest = .count lost ∧ reached.conclude lost = table.finalize repair) ∧
      (∀ order : List Address, order.Perm table.functions.keys →
        (table.finalizeInTurn repair order).2.conclude (table.finalizeInTurn repair order).1 = table.finalize repair) ∧
      (∀ spans : List Span, spans.Perm (table.finalize repair).2.spans → (spans.Pairwise fun a b => a.le b = true) →
        (table.finalize repair).2.index = ⟨AddressIndex.withReach 0 spans⟩) ∧
      (table.finalize repair).1.functions = table.size ∧
      (table.finalize repair).1.basicBlocks = total (fun f => f.blocks.length) table.toList ∧
      (table.finalize repair).1.edges = total (fun f => f.edges.length) (table.finalize repair).2.toList ∧
      (table.finalize repair).1.edges + (table.finalize repair).1.edgesDropped =
        total (fun f => f.edges.length) table.toList := by
  refine ⟨fun work rest reached n hplans hrun => ?_, fun order horder => ?_,
    fun spans hperm hsorted => AddressIndex.ofSpans_eq hperm hsorted, ?_, ?_, rfl, table.edges_finalize repair⟩
  · have hsteps := hrun.steps_eq
    obtain ⟨lost, rfl⟩ | ⟨next, left, hstep⟩ := exists_step repair reached rest
    · exact .inr ⟨(hsteps.trans (Nat.zero_add n)).symm, lost, rfl, ((Halfway.of_plans hplans).run hrun).conclude_eq⟩
    · refine .inl ⟨?_, next, left, hstep⟩
      have hleft := hstep.steps_eq
      omega
  · have hplans : (Work.inTurn order).Plans table :=
      ⟨by rwa [Work.waiting_inTurn], Work.known_inTurn order⟩
    obtain ⟨n, hrun⟩ := exists_run_inTurn repair order table
    exact ((Halfway.of_plans hplans).run hrun).conclude_eq
  · show (table.finalize repair).2.size = table.size
    rw [← length_toList, toList_finalize, List.length_map, length_toList]
  · show (AddressIndex.ofSpans (table.finalize repair).2.spans).size = _
    rw [AddressIndex.size_ofSpans, length_spans, toList_finalize, ← total_length, total_map]
    refine total_congr fun f _ => ?_
    rw [f.blocks_finalize, List.length_mergeSort]

/-- A function with an edge that leads nowhere. -/
def Function.lost (entry : Address) : Function where
  entry
  blocks := [{ start := entry, stop := entry + 4 }]
  edges := [⟨entry, 0x900, .unconditional⟩]

/-- Two such functions. -/
def FunctionTable.stray : FunctionTable := ((empty.insert (.lost 0x200)).2.insert (.lost 0x100)).2

/-- Work on both functions of which the second piece brings a count with it, such as a worker starts from. -/
def Work.shared : Work := .both (.function 0x200) (.both (.count 0) (.function 0x100))

/-- The second piece is worked off before the first; alone, the functions are taken backwards. -/
theorem FunctionTable.finalize_of_schedule_stray :
    Work.shared.Plans stray ∧ [0x200, 0x100].Perm stray.functions.keys ∧
      (∃ reached lost, Run true 4 stray .shared reached (.count lost) ∧
        reached.conclude lost = stray.finalize true) ∧
      (stray.finalizeInTurn true [0x200, 0x100]).2.conclude (stray.finalizeInTurn true [0x200, 0x100]).1 =
        stray.finalize true := by
  have hplans : Work.shared.Plans stray := by decide
  have hperm : [0x200, 0x100].Perm stray.functions.keys := by decide
  obtain ⟨hschedules, horders, -⟩ := stray.finalize_of_schedule true
  obtain ⟨reached, lost, hrun⟩ : ∃ reached lost, Run true 4 stray .shared reached (.count lost) :=
    ⟨_, _, .step (.right (.right .finalize)) (.step (.right .add) (.step (.left .finalize) (.step .add .none)))⟩
  refine ⟨hplans, hperm, ?_, horders _ hperm⟩
  obtain ⟨hleft, -⟩ | ⟨-, known, hknown, hconclude⟩ := hschedules .shared _ _ 4 hplans hrun
  · exact absurd hleft (by decide)
  · exact ⟨reached, known, hknown ▸ hrun, hconclude⟩

end Disassembly.Flow
