import Disassembly.Proofs.Flow.Finalize

/-!
# The nearest block

In which block an address is looked up, told without sorting (`Function.Nearest`). Sorting neither adds nor drops
blocks and leaves those with one start in their order, so that the nearest block is the same before and after
(`Function.nearest_sortBlocks_iff`). The look-up in the sorted function has this block or none
(`Function.blockAt?_sortBlocks_eq_some_iff`).
-/

namespace Disassembly.Flow.Function

variable {f : Function} {address : Address} {block other : Block}

/-- Of the blocks that do not start past the address this one starts last, and of those that start where it does it
was added last. -/
structure Nearest (f : Function) (address : Address) (block : Block) : Prop where
  /-- It does not start past the address. -/
  start_le : block.start ≤ address
  /-- No other block that does not start past the address starts later. -/
  greatest {other : Block} : other ∈ f.blocks → other.start ≤ address → other.start ≤ block.start
  /-- It is the last one with its start. -/
  last : (f.blocks.filter fun other => other.start = block.start).getLast? = some block

/-- The address is found in this block: it is the nearest and contains the address. -/
def Locates (f : Function) (address : Address) (block : Block) : Prop :=
  f.Nearest address block ∧ block.contains address = true

theorem Nearest.mem (h : f.Nearest address block) : block ∈ f.blocks :=
  (List.mem_filter.mp (List.mem_of_getLast? h.last)).1

theorem Nearest.unique (h : f.Nearest address block) (h' : f.Nearest address other) : block = other := by
  have hstart : block.start = other.start :=
    UInt64.le_antisymm (h'.greatest h.mem h.start_le) (h.greatest h'.mem h'.start_le)
  have hlast := h.last
  rw [hstart, h'.last, Option.some.injEq] at hlast
  exact hlast.symm

/-- Sorting does not change which block is the nearest. -/
theorem nearest_sortBlocks_iff : f.sortBlocks.Nearest address block ↔ f.Nearest address block := by
  have hmem {other : Block} : other ∈ f.sortBlocks.blocks ↔ other ∈ f.blocks := List.mem_mergeSort
  have hstable := filter_mergeSort_address Block.start f.blocks block.start
  constructor
  · intro h
    exact ⟨h.start_le, fun hother => h.greatest (hmem.mpr hother), hstable ▸ h.last⟩
  · intro h
    exact ⟨h.start_le, fun hother => h.greatest (hmem.mp hother), hstable.symm ▸ h.last⟩

namespace Sorted

variable (h : f.Sorted)

include h

/-- In a sorted function the nearest block is the last one that does not start past the address. -/
theorem nearest_of_last {k : Nat} (hk : f.blocks[k]? = some block) (hstart : block.start ≤ address)
    (hlast : ∀ (j : Nat) (other : Block), f.blocks[j]? = some other → other.start ≤ address → j ≤ k) :
    f.Nearest address block where
  start_le := hstart
  greatest hother hle := by
    obtain ⟨j, hj⟩ := List.mem_iff_getElem?.mp hother
    exact h.start_le hj hk (hlast j _ hj hle)
  last := by
    have hsplit : f.blocks = f.blocks.take k ++ block :: f.blocks.drop (k + 1) := by
      obtain ⟨hlt, rfl⟩ := List.getElem?_eq_some_iff.mp hk
      rw [← List.drop_eq_getElem_cons hlt, List.take_append_drop]
    -- Blocks that come later start past the address, and so not where this one does.
    have hafter : (f.blocks.drop (k + 1)).filter (fun other => other.start = block.start) = [] := by
      refine List.filter_eq_nil_iff.mpr fun other hother heq => ?_
      obtain ⟨n, hn⟩ := List.mem_iff_getElem?.mp hother
      rw [List.getElem?_drop] at hn
      have hle : other.start ≤ address := UInt64.le_trans (UInt64.le_of_eq (of_decide_eq_true heq)) hstart
      have := hlast _ other hn hle
      omega
    rw [hsplit, List.filter_append, List.filter_cons, hafter]
    simp

theorem blockAt?_eq_some_iff : f.blockAt? address = some block ↔ f.Locates address block := by
  simp only [blockAt?, Option.bind_eq_some_iff, h.blockIndex?_eq_some_iff]
  constructor
  · rintro ⟨k, ⟨⟨found, hk, hcontains⟩, hlast⟩, hfound⟩
    obtain rfl : found = block := by simpa [hk] using hfound
    simp only [Block.contains, Bool.and_eq_true, decide_eq_true_eq] at hcontains
    exact ⟨h.nearest_of_last hk hcontains.1 hlast, by simpa [Block.contains] using hcontains⟩
  · rintro ⟨hnearest, hcontains⟩
    obtain ⟨k, last, hk, hle, -, hlast⟩ := h.exists_last hnearest.mem hnearest.start_le
    obtain rfl := (h.nearest_of_last hk hle hlast).unique hnearest
    exact ⟨k, ⟨⟨last, hk, hcontains⟩, hlast⟩, hk⟩

end Sorted

theorem exists_nearest (hmem : block ∈ f.blocks) (hstart : block.start ≤ address) :
    ∃ nearest, f.Nearest address nearest := by
  have hsorted := f.sorted_sortBlocks
  obtain ⟨k, last, hk, hle, -, hlast⟩ := hsorted.exists_last (List.mem_mergeSort.mpr hmem) hstart
  exact ⟨last, nearest_sortBlocks_iff.mp (hsorted.nearest_of_last hk hle hlast)⟩

/-- What the look-up finds once the blocks are sorted. -/
theorem blockAt?_sortBlocks_eq_some_iff : f.sortBlocks.blockAt? address = some block ↔ f.Locates address block := by
  rw [f.sorted_sortBlocks.blockAt?_eq_some_iff, Locates, nearest_sortBlocks_iff, Locates]

end Disassembly.Flow.Function
