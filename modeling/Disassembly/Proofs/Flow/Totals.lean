import Disassembly.Proofs.Flow.FunctionTable

/-!
# What a table counts

The functions of a table are listed once each, so that a new one comes on top of the others
(`FunctionTable.toList_insert_perm`) and the `total` of what is counted over all of them grows by its share.
Finalization keeps the functions and their blocks (`FunctionTable.toList_finalize`, `FunctionTable.length_spans`).
Edges it may drop, but none goes missing: those that are left and those reported as dropped are as many as there
were before (`FunctionTable.edges_finalize`).
-/

namespace Disassembly

/-! ### Totals of a list -/

/-- What is counted in a list altogether. -/
def total {α : Type} (count : α → Nat) (as : List α) : Nat := (as.map count).foldr (· + ·) 0

section

variable {α β : Type} {count : α → Nat} {a : α} {as bs : List α}

@[simp] theorem total_nil : total count [] = 0 := rfl

@[simp] theorem total_cons : total count (a :: as) = count a + total count as := rfl

@[simp] theorem total_append (before after : List α) :
    total count (before ++ after) = total count before + total count after := by
  induction before with
  | nil => simp
  | cons a before ih => simp [ih, Nat.add_assoc]

theorem total_length (f : α → List β) (as : List α) : total (fun a => (f a).length) as = (as.flatMap f).length := by
  rw [List.length_flatMap]
  rfl

theorem total_map (f : β → α) (bs : List β) : total count (bs.map f) = total (fun b => count (f b)) bs := by
  rw [total, List.map_map]
  rfl

theorem total_congr {other : α → Nat} (h : ∀ a ∈ as, count a = other a) : total count as = total other as := by
  rw [total, List.map_congr_left h]
  rfl

/-- The order does not matter. -/
theorem total_perm (h : as.Perm bs) : total count as = total count bs := by
  induction h with
  | nil => rfl
  | cons a _ ih => rw [total_cons, ih, total_cons]
  | swap a b as => simp only [total_cons, Nat.add_left_comm]
  | trans _ _ ih ih' => exact ih.trans ih'

theorem total_eq_zero_iff : total count as = 0 ↔ ∀ a ∈ as, count a = 0 := by
  induction as with
  | nil => simp
  | cons a as ih => simp [ih]

/-- The last item makes up the total if nothing is counted before it. -/
theorem total_eq_last_iff (h : as.getLast? = some a) : total count as = count a ↔ ∀ b ∈ as.dropLast, count b = 0 := by
  have hsplit : total count as = total count as.dropLast + count a := by
    conv_lhs => rw [← List.dropLast_append_getLast? _ h]
    simp
  rw [hsplit, ← total_eq_zero_iff]
  omega

end

namespace Flow

/-! ### The edges of a function -/

namespace Function

variable (f : Function) (repair : Bool)

/-- Repair moves edges, drops some and repeats none. -/
theorem length_edges_repaired_le : f.repaired.edges.length ≤ f.edges.length := by
  rw [edges_repaired]
  exact Nat.le_trans (Edge.length_canonical_le _) (List.length_filterMap_le _ _)

/-- The edges that are left and those reported as dropped are all that there were. -/
theorem length_edges_finalize : (f.finalize repair).1.edges.length + (f.finalize repair).2 = f.edges.length := by
  have hsort : f.sortGraph.edges.length = f.edges.length := List.length_mergeSort _
  cases repair with
  | false => exact hsort
  | true =>
    rw [← hsort]
    exact Nat.add_sub_cancel' f.sortGraph.length_edges_repaired_le

end Function

/-! ### The functions of a table -/

namespace FunctionTable

variable {table : FunctionTable} {f : Function}

theorem map_entry_toList (table : FunctionTable) : table.toList.map Function.entry = table.functions.keys := by
  rw [toList, values_eq_map_toList, ← Std.ExtTreeMap.map_fst_toList_eq_keys, List.map_map]
  apply List.map_congr_left
  rintro ⟨entry, f⟩ hmem
  exact table.entry_eq (Std.ExtTreeMap.mem_toList_iff_getElem?_eq_some.mp hmem)

theorem nodup_toList (table : FunctionTable) : table.toList.Nodup := by
  refine List.Nodup.of_map Function.entry ?_
  rw [map_entry_toList]
  exact Std.ExtTreeMap.nodup_keys

theorem length_toList (table : FunctionTable) : table.toList.length = table.size := by
  rw [toList, values_eq_map_toList, List.length_map, Std.ExtTreeMap.length_toList]
  rfl

/-- A function with a new entry point comes on top of the others. -/
theorem toList_insert_perm (hnew : table.contains f.entry = false) :
    (table.insert f).2.toList.Perm (f :: table.toList) := by
  have hfresh {g : Function} (hg : g ∈ table.toList) : f.entry ≠ g.entry := by
    intro hentry
    rw [contains_eq_isSome, hentry, mem_toList_iff.mp hg] at hnew
    cases hnew
  have hnodup : (f :: table.toList).Nodup := List.nodup_cons.mpr ⟨fun hf => hfresh hf rfl, table.nodup_toList⟩
  refine (List.perm_ext_iff_of_nodup (nodup_toList _) hnodup).mpr fun g => ?_
  rw [mem_toList_insert, List.mem_cons]
  exact or_congr_right ⟨And.right, fun hg => ⟨hfresh hg, hg⟩⟩

theorem toList_finalize (table : FunctionTable) (repair : Bool) :
    (table.finalize repair).2.toList = table.toList.map fun f => (f.finalize repair).1 := by
  have hfunctions : (table.finalize repair).2.functions = table.functions.map fun _ f => (f.finalize repair).1 := by
    apply Std.ExtTreeMap.ext_getElem?
    intro entry
    rw [Std.ExtTreeMap.getElem?_map]
    exact table.get?_finalize repair entry
  rw [toList, toList, hfunctions, values_map]

/-! ### Blocks -/

theorem length_spans (table : FunctionTable) : table.spans.length = (table.toList.flatMap Function.blocks).length := by
  simp [spans, List.length_flatMap]

/-! ### Edges -/

theorem edgeCount_eq (table : FunctionTable) : table.edgeCount = (table.toList.flatMap Function.edges).length :=
  total_length Function.edges table.toList

/-- The edges dropped are those that the functions lose. -/
theorem edgesDropped_finalize (table : FunctionTable) (repair : Bool) :
    (table.finalize repair).1.edgesDropped = total (fun f => (f.finalize repair).2) table.toList := by
  show ((table.functions.map fun _ f => f.finalize repair).values.map Prod.snd).foldr (· + ·) 0 = _
  rw [values_map, List.map_map]
  rfl

theorem edges_finalize (table : FunctionTable) (repair : Bool) :
    (table.finalize repair).1.edges + (table.finalize repair).1.edgesDropped = table.edgeCount := by
  have hedges : (table.finalize repair).1.edges =
      total (fun f => (f.finalize repair).1.edges.length) table.toList := by
    show (table.finalize repair).2.edgeCount = _
    rw [edgeCount, toList_finalize, List.map_map]
    rfl
  show _ = total (fun f => f.edges.length) table.toList
  rw [edgesDropped_finalize, hedges]
  induction table.toList with
  | nil => rfl
  | cons f fs ih =>
    have hf := f.length_edges_finalize repair
    simp only [total_cons]
    omega

end FunctionTable

end Flow

end Disassembly
