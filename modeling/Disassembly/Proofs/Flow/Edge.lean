import Mathlib.Data.List.Destutter
import Mathlib.Data.List.Sort
import Disassembly.Flow.Edge
import Disassembly.Proofs.Flow.Lookup

/-!
# Edges in order

Edges are brought into order by sorting and leaving out repetitions (`Edge.canonical`). There is one list only that
has given edges in order, each of them once (`Edge.eq_canonical`), so that all that needs to be told of such a list
is which edges are in it.
-/

namespace Disassembly.Flow

/-- To leave out repetitions is to keep an item only if it differs from the one kept before. -/
theorem eraseReps_eq_destutter {α : Type} [DecidableEq α] (l : List α) :
    l.eraseReps = l.destutter (· ≠ ·) := by
  have hloop (a : α) (l acc : List α) : List.eraseRepsBy.loop (· == ·) a l acc =
      acc.reverse ++ l.destutter' (· ≠ ·) a := by
    induction l generalizing a acc with
    | nil => simp [List.eraseRepsBy.loop]
    | cons b l ih =>
      by_cases hab : a = b
      · simp [List.eraseRepsBy.loop, hab, ih]
      · have hne : (a == b) = false := beq_eq_false_iff_ne.mpr hab
        simp [List.eraseRepsBy.loop, hab, hne, ih]
  cases l with
  | nil => rfl
  | cons a l => exact hloop a l []

theorem mem_eraseReps {α : Type} [DecidableEq α] {a : α} {l : List α} : a ∈ l.eraseReps ↔ a ∈ l := by
  have hmem (b : α) (l : List α) : a ∈ l.destutter' (· ≠ ·) b ↔ a = b ∨ a ∈ l := by
    induction l generalizing b with
    | nil => simp
    | cons c l ih =>
      by_cases hbc : b = c
      · simp [hbc, ih]
      · simp [hbc, ih]
  rw [eraseReps_eq_destutter]
  cases l with
  | nil => rfl
  | cons b l => rw [List.destutter_cons', hmem, List.mem_cons]

namespace Edge

variable {a b c edge : Edge} {edges more : List Edge}

/-- The first edge comes before the second and is not the same. -/
def Before (a b : Edge) : Prop := order a b = .lt

instance (a b : Edge) : Decidable (a.Before b) := inferInstanceAs (Decidable (order a b = .lt))

theorem before_iff : a.Before b ↔ compare a b = .lt := Iff.rfl

theorem Before.trans (hab : a.Before b) (hbc : b.Before c) : a.Before c := by
  rw [before_iff] at hab hbc ⊢
  exact Std.TransCmp.lt_trans hab hbc

theorem not_before_self (a : Edge) : ¬ a.Before a := by
  simp [before_iff]

instance : Trans Before Before Before := ⟨Before.trans⟩

instance : Std.Irrefl Before := ⟨not_before_self⟩

instance : Std.Antisymm Before := ⟨fun _ _ hab hba => absurd (hab.trans hba) (not_before_self _)⟩

theorem le_antisymm (hab : a.le b = true) (hba : b.le a = true) : a = b := eq_of_isLE hab hba

theorem Before.le (h : a.Before b) : a.le b = true := by
  simp only [Before] at h
  simp [Edge.le, h]

theorem Before.ne (h : a.Before b) : a ≠ b := by
  rintro rfl
  exact not_before_self a h

theorem before_of_le (hle : a.le b = true) (hne : a ≠ b) : a.Before b := by
  unfold Before
  cases h : order a b with
  | lt => rfl
  | eq => exact absurd (Std.LawfulEqOrd.eq_of_compare h) hne
  | gt => simp [le, h] at hle

theorem pairwise_mergeSort (edges : List Edge) :
    (edges.mergeSort le).Pairwise fun a b => a.le b = true :=
  pairwise_mergeSort_isLE edges

/-- To sort edges does away with the order that they had. -/
theorem mergeSort_eq_of_perm (h : edges.Perm more) : edges.mergeSort le = more.mergeSort le := by
  exact mergeSort_isLE_eq ((List.mergeSort_perm more le).trans h.symm) (pairwise_mergeSort more)

/-- The edges in order, each of them once. -/
def canonical (edges : List Edge) : List Edge := (edges.mergeSort le).eraseReps

theorem canonical_eq_destutter (edges : List Edge) : canonical edges = (edges.mergeSort le).destutter (· ≠ ·) :=
  eraseReps_eq_destutter _

theorem mem_canonical : edge ∈ canonical edges ↔ edge ∈ edges := by
  rw [canonical, mem_eraseReps, List.mem_mergeSort]

theorem length_canonical_le (edges : List Edge) : (canonical edges).length ≤ edges.length := by
  have hsort : (edges.mergeSort le).length = edges.length := List.length_mergeSort edges
  rw [canonical_eq_destutter, ← hsort]
  exact (List.destutter_sublist _ _).length_le

theorem pairwise_canonical (edges : List Edge) : (canonical edges).Pairwise Before := by
  have hle : (canonical edges).Pairwise fun a b => a.le b = true := by
    rw [canonical_eq_destutter]
    exact (pairwise_mergeSort edges).sublist (List.destutter_sublist _ _)
  have hne : (canonical edges).IsChain (· ≠ ·) := by
    rw [canonical_eq_destutter]
    exact List.isChain_destutter _ _
  refine List.isChain_iff_pairwise.mp (List.isChain_iff_getElem.mpr fun i hi => ?_)
  exact before_of_le (List.isChain_iff_getElem.mp hle.isChain i hi) (List.isChain_iff_getElem.mp hne i hi)

/-- There is one list only that has given edges in order, each of them once. -/
theorem eq_canonical (h : edges.Pairwise Before) (hmem : ∀ edge, edge ∈ edges ↔ edge ∈ more) :
    edges = canonical more := by
  refine h.eq_of_mem_iff (pairwise_canonical more) fun edge => ?_
  rw [hmem, mem_canonical]

theorem canonical_congr (h : ∀ edge, edge ∈ edges ↔ edge ∈ more) : canonical edges = canonical more := by
  refine eq_canonical (pairwise_canonical edges) fun edge => ?_
  rw [mem_canonical, h]

end Edge

end Disassembly.Flow
