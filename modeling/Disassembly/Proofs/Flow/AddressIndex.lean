import Disassembly.Flow.AddressIndex
import Disassembly.Proofs.Flow.Lookup

/-!
# The owner of an address

What a look-up in the index means: it finds the owner of the greatest span that contains the address
(`AddressIndex.owner?_cases`), whatever spans there are. They may overlap, be nested, equal, empty or inverted.
The search goes backwards through the spans and stops at a reach that is not past the address. That is safe
because no span from there back ends past this reach (`AddressIndex.pairwise_withReach`).
-/

namespace Disassembly.Flow

variable {address : Address} {spans more : List Span}

/-! ### The order of spans -/

namespace Span

variable {a b span : Span}

theorem contains_iff : span.contains address = true ↔ span.start ≤ address ∧ address < span.stop := by
  simp [contains]

/-- The order is by start first, then by end, then by owner. -/
theorem le_iff : a.le b = true ↔
    a.start < b.start ∨ a.start = b.start ∧ (a.stop < b.stop ∨ a.stop = b.stop ∧ a.entry ≤ b.entry) := by
  simp only [le, order, compareLex, compareOn, Ordering.isLE_then_iff_or, Std.compare_eq_lt,
    Std.compare_eq_iff_eq, Std.isLE_compare]

theorem le_refl (a : Span) : a.le a = true := by
  simp [le_iff]

theorem le_antisymm (hab : a.le b = true) (hba : b.le a = true) : a = b := eq_of_isLE hab hba

theorem pairwise_mergeSort (spans : List Span) : (spans.mergeSort le).Pairwise fun a b => a.le b = true :=
  pairwise_mergeSort_isLE spans

theorem start_le_of_le (h : a.le b = true) : a.start ≤ b.start := by
  obtain hlt | ⟨heq, -⟩ := le_iff.mp h
  · exact UInt64.le_of_lt hlt
  · exact UInt64.le_of_eq heq

end Span

/-- The span is the greatest of those that contain the address. -/
structure Greatest (spans : List Span) (address : Address) (span : Span) : Prop where
  /-- It is one of the spans. -/
  mem : span ∈ spans
  /-- It contains the address. -/
  contains : span.contains address = true
  /-- No other span that does so comes after it. -/
  le {other : Span} : other ∈ spans → other.contains address = true → other.le span = true

theorem Greatest.unique {a b : Span} (ha : Greatest spans address a) (hb : Greatest spans address b) : a = b :=
  Span.le_antisymm (hb.le ha.mem ha.contains) (ha.le hb.mem hb.contains)

/-- Where the same spans are the same one is the greatest. -/
theorem Greatest.congr {span : Span} (hmem : ∀ span, span ∈ spans ↔ span ∈ more) :
    Greatest spans address span ↔ Greatest more address span :=
  ⟨fun h => ⟨(hmem _).mp h.mem, h.contains, fun hother => h.le ((hmem _).mpr hother)⟩,
    fun h => ⟨(hmem _).mpr h.mem, h.contains, fun hother => h.le ((hmem _).mp hother)⟩⟩

namespace AddressIndex

variable {entries : List IndexEntry} {reach : Address}

/-! ### Reaches -/

theorem map_span_withReach (reach : Address) (spans : List Span) :
    (withReach reach spans).map IndexEntry.span = spans := by
  induction spans generalizing reach with
  | nil => rfl
  | cons span spans ih => exact congrArg (span :: ·) (ih _)

theorem size_ofSpans (spans : List Span) : (ofSpans spans).size = spans.length := by
  have hspans := congrArg List.length (map_span_withReach 0 (spans.mergeSort Span.le))
  simpa [ofSpans, size] using hspans

/-- A reach is not before an end that was reached earlier, nor before the end of its own span. -/
theorem le_reach_of_mem {entry : IndexEntry} (h : entry ∈ withReach reach spans) :
    reach ≤ entry.reach ∧ entry.span.stop ≤ entry.reach := by
  induction spans generalizing reach with
  | nil => cases h
  | cons span spans ih =>
    obtain rfl | hmem := List.mem_cons.mp h
    · exact ⟨Address.le_max_left .., Address.le_max_right ..⟩
    · obtain ⟨hreach, hstop⟩ := ih hmem
      exact ⟨UInt64.le_trans (Address.le_max_left ..) hreach, hstop⟩

/-- No span ends past the reach of a later one. -/
theorem pairwise_withReach (reach : Address) (spans : List Span) :
    (withReach reach spans).Pairwise fun a b => a.span.stop ≤ b.reach := by
  induction spans generalizing reach with
  | nil => exact .nil
  | cons span spans ih =>
    refine List.pairwise_cons.mpr ⟨fun entry hmem => ?_, ih _⟩
    exact UInt64.le_trans (Address.le_max_right ..) (le_reach_of_mem hmem).1

/-! ### The search -/

/-- The search finds the first entry that ends past the address, if no entry ends past its own reach or that of one
before it. -/
theorem search_eq_find? (hself : ∀ entry ∈ entries, entry.span.stop ≤ entry.reach)
    (hreach : entries.Pairwise fun a b => b.span.stop ≤ a.reach) :
    search address entries =
      (entries.find? fun entry => address < entry.span.stop).map fun entry => entry.span.entry := by
  induction entries with
  | nil => rfl
  | cons entry entries ih =>
    obtain ⟨hfirst, hrest⟩ := List.forall_mem_cons.mp hself
    obtain ⟨hlater, hpairwise⟩ := List.pairwise_cons.mp hreach
    by_cases hstop : entry.reach ≤ address
    · -- The search stops here, and nothing from here on contains the address.
      have hnone : (entry :: entries).find? (fun entry => address < entry.span.stop) = none := by
        refine List.find?_eq_none.mpr fun other hmem hlt => ?_
        have hother : other.span.stop ≤ entry.reach := by
          obtain rfl | hmem := List.mem_cons.mp hmem
          · exact hfirst
          · exact hlater other hmem
        exact absurd (UInt64.le_trans hother hstop) (UInt64.not_le.mpr (of_decide_eq_true hlt))
      rw [search, if_pos hstop, hnone, Option.map_none]
    · rw [search, if_neg hstop, List.find?_cons]
      by_cases hlt : address < entry.span.stop
      · simp [hlt]
      · simp [hlt, ih hrest hpairwise]

/-- The look-up finds the owner of the last span, in ascending order, that contains the address. -/
theorem owner?_eq_find? (spans : List Span) (address : Address) : (ofSpans spans).owner? address =
    ((spans.mergeSort Span.le).reverse.find? fun span => span.contains address).map Span.entry := by
  have hspans := map_span_withReach 0 (spans.mergeSort Span.le)
  have hreach := pairwise_withReach 0 (spans.mergeSort Span.le)
  have hself (entry : IndexEntry) (hmem : entry ∈ withReach 0 (spans.mergeSort Span.le)) :=
    (le_reach_of_mem hmem).2
  unfold owner? ofSpans
  generalize withReach 0 (spans.mergeSort Span.le) = entries at hspans hreach hself
  have hsorted : entries.Pairwise fun a b => a.span.start ≤ b.span.start := by
    have hpairwise := Span.pairwise_mergeSort spans
    rw [← hspans, List.pairwise_map] at hpairwise
    exact hpairwise.imp Span.start_le_of_le
  have htaken : (entries.takeWhile fun entry => entry.span.start ≤ address) =
      entries.filter fun entry => entry.span.start ≤ address :=
    takeWhile_eq_filter (hsorted.imp fun hab hb => by
      exact decide_eq_true (UInt64.le_trans hab (of_decide_eq_true hb)))
  have hsublist : (entries.filter fun entry => entry.span.start ≤ address).Sublist entries := List.filter_sublist
  rw [htaken, search_eq_find?]
  · rw [← List.getLast?_filter, List.filter_filter, List.getLast?_filter, ← hspans, ← List.map_reverse,
      List.find?_map, Option.map_map]
    have hcontains : (fun entry : IndexEntry =>
        decide (address < entry.span.stop) && decide (entry.span.start ≤ address)) =
          (fun span => span.contains address) ∘ IndexEntry.span :=
      funext fun entry => Bool.and_comm ..
    rw [hcontains]
    rfl
  · exact fun entry hmem => hself entry (hsublist.subset (List.mem_reverse.mp hmem))
  · exact List.pairwise_reverse.mpr (hreach.sublist hsublist)

/-- The look-up finds the owner of the greatest span that contains the address, or nothing if none does. -/
theorem owner?_cases (spans : List Span) (address : Address) :
    (∃ span, Greatest spans address span ∧ (ofSpans spans).owner? address = some span.entry) ∨
      (∀ span ∈ spans, span.contains address = false) ∧ (ofSpans spans).owner? address = none := by
  have hsorted := Span.pairwise_mergeSort spans
  rw [owner?_eq_find?]
  cases hfind : (spans.mergeSort Span.le).reverse.find? fun span => span.contains address with
  | none =>
    refine .inr ⟨fun span hmem => ?_, rfl⟩
    have hnone := List.find?_eq_none.mp hfind span (List.mem_reverse.mpr (List.mem_mergeSort.mpr hmem))
    simpa using hnone
  | some span =>
    obtain ⟨hcontains, before, after, hsplit, hbefore⟩ := List.find?_eq_some_iff_append.mp hfind
    refine .inl ⟨span, ⟨?_, hcontains, fun {other} hmem hother => ?_⟩, rfl⟩
    · exact List.mem_mergeSort.mp (List.mem_reverse.mp (List.mem_of_find?_eq_some hfind))
    · rw [← List.reverse_reverse (spans.mergeSort Span.le), List.pairwise_reverse, hsplit,
        List.pairwise_append] at hsorted
      have hmem' : other ∈ before ++ span :: after :=
        hsplit ▸ List.mem_reverse.mpr (List.mem_mergeSort.mpr hmem)
      obtain hbefore' | hmem' := List.mem_append.mp hmem'
      · simpa [hother] using hbefore other hbefore'
      · obtain rfl | hafter := List.mem_cons.mp hmem'
        · exact other.le_refl
        · exact (List.pairwise_cons.mp hsorted.2.1).1 other hafter

end AddressIndex

end Disassembly.Flow
