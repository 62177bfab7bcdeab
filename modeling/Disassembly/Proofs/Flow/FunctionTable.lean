import Disassembly.Flow.FunctionTable
import Disassembly.Proofs.Flow.AddressIndex
import Disassembly.Proofs.Flow.Finalize
import Disassembly.Proofs.Flow.Renaming

/-!
# Tables of functions and who owns an address

A table lists the functions that are filed in it (`FunctionTable.mem_toList_iff`). To finalize it brings each into
its final form, which moves no block, so that the index has the ranges that the blocks had before
(`FunctionTable.mem_spans_finalize`). An address then belongs to the function that has the greatest of all blocks
that contain it (`FunctionTable.functionContaining?_finalize`).
-/

namespace Disassembly.Flow

/-- The range of a block, with the function as its owner. -/
def Function.span (f : Function) (block : Block) : Span := ⟨block.start, block.stop, f.entry⟩

namespace FunctionTable

variable {table : FunctionTable} {entry address : Address} {f g : Function} {block : Block} {span : Span}
  {repair : Bool}

/-! ### The functions of a table -/

theorem contains_eq_isSome : table.contains entry = (table.get? entry).isSome :=
  Std.ExtTreeMap.contains_eq_isSome_getElem?

theorem entry_of_get? (h : table.get? entry = some f) : f.entry = entry := table.entry_eq h

/-- A table is known by what is filed under each address, by the modules and by the index. -/
theorem ext_get? {other : FunctionTable} (hget : ∀ entry, table.get? entry = other.get? entry)
    (hmodules : table.modules = other.modules) (hindex : table.index = other.index) : table = other := by
  have hfunctions : table.functions = other.functions := Std.ExtTreeMap.ext_getElem? hget
  cases table
  cases other
  cases hfunctions
  cases hmodules
  cases hindex
  rfl

/-- The functions listed are those filed under their entry points. -/
theorem mem_toList_iff : f ∈ table.toList ↔ table.get? f.entry = some f := by
  have hmem : f ∈ table.toList ↔ ∃ entry, table.get? entry = some f := by
    simp only [toList, values_eq_map_toList, List.mem_map, Prod.exists, exists_eq_right,
      Std.ExtTreeMap.mem_toList_iff_getElem?_eq_some]
    rfl
  rw [hmem]
  refine ⟨?_, fun h => ⟨f.entry, h⟩⟩
  rintro ⟨entry, h⟩
  rwa [entry_of_get? h]

/-- A function that is filed takes the place of the one with its entry point. -/
theorem mem_toList_insert : f ∈ (table.insert g).2.toList ↔ f = g ∨ g.entry ≠ f.entry ∧ f ∈ table.toList := by
  rw [mem_toList_iff, get?_insert, mem_toList_iff]
  split
  · rename_i hentry
    simp [hentry, eq_comm]
  · rename_i hentry
    have hne : f ≠ g := by
      rintro rfl
      exact hentry rfl
    simp [hentry, hne]

/-- A table that was finalized holds the functions in their final form. -/
theorem get?_finalize (table : FunctionTable) (repair : Bool) (entry : Address) :
    (table.finalize repair).2.get? entry = (table.get? entry).map fun f => (f.finalize repair).1 := by
  show ((table.functions.map fun _ f => f.finalize repair).map
    fun entry result => { result.1 with entry })[entry]? = _
  rw [Std.ExtTreeMap.getElem?_map, Std.ExtTreeMap.getElem?_map, Option.map_map]
  refine Option.map_congr fun f hf => ?_
  obtain rfl := table.entry_eq hf
  exact congrArg (fun entry => { (f.finalize repair).1 with entry }) (f.entry_finalize repair).symm

theorem mem_toList_finalize :
    f ∈ (table.finalize repair).2.toList ↔ ∃ g ∈ table.toList, (g.finalize repair).1 = f := by
  simp only [mem_toList_iff, get?_finalize, Option.map_eq_some_iff]
  constructor
  · rintro ⟨g, hg, rfl⟩
    rw [Function.entry_finalize] at hg
    exact ⟨g, hg, rfl⟩
  · rintro ⟨g, hg, rfl⟩
    exact ⟨g, by rwa [Function.entry_finalize], rfl⟩

theorem entry_eq_of_getElem?_empty {entry : Address} {f : Function}
    (h : (∅ : Std.ExtTreeMap Address Function)[entry]? = some f) : f.entry = entry := by
  rw [Std.ExtTreeMap.getElem?_empty] at h
  cases h

/-- The table without functions. -/
def empty : FunctionTable := { entry_eq := @entry_eq_of_getElem?_empty }

theorem toList_empty : empty.toList = [] := rfl

/-! ### The ranges of a table -/

theorem mem_spans_iff : span ∈ table.spans ↔ ∃ f ∈ table.toList, ∃ block ∈ f.blocks, f.span block = span := by
  simp [spans, Function.span]

/-- Finalization moves no block. -/
theorem mem_spans_finalize : span ∈ (table.finalize repair).2.spans ↔ span ∈ table.spans := by
  have hspan (f : Function) : (f.finalize repair).1.span = f.span := by
    funext block
    simp [Function.span]
  simp only [mem_spans_iff, mem_toList_finalize]
  constructor
  · rintro ⟨-, ⟨f, hf, rfl⟩, block, hmem, rfl⟩
    exact ⟨f, hf, block, Function.mem_blocks_finalize.mp hmem, by rw [hspan]⟩
  · rintro ⟨f, hf, block, hmem, rfl⟩
    exact ⟨_, ⟨f, hf, rfl⟩, block, Function.mem_blocks_finalize.mpr hmem, by rw [hspan]⟩

/-! ### Owners -/

/-- The function has the greatest of all blocks that contain the address: no other starts later, none that starts
there ends later, and none with the same range has a greater entry point. -/
structure Owns (table : FunctionTable) (address : Address) (f : Function) : Prop where
  /-- The function is in the table. -/
  mem : f ∈ table.toList
  /-- One of its blocks contains the address and is the greatest to do so. -/
  exists_block : ∃ block ∈ f.blocks, block.contains address = true ∧
    ∀ g ∈ table.toList, ∀ other ∈ g.blocks, other.contains address = true →
      (g.span other).le (f.span block) = true

theorem owns_iff : table.Owns address f ↔
    f ∈ table.toList ∧ ∃ block ∈ f.blocks, Greatest table.spans address (f.span block) := by
  constructor
  · rintro ⟨hf, block, hmem, hcontains, hle⟩
    refine ⟨hf, block, hmem, mem_spans_iff.mpr ⟨f, hf, block, hmem, rfl⟩, hcontains, fun hspan hcontains' => ?_⟩
    obtain ⟨g, hg, other, hother, rfl⟩ := mem_spans_iff.mp hspan
    exact hle g hg other hother hcontains'
  · rintro ⟨hf, block, hmem, hgreatest⟩
    refine ⟨hf, block, hmem, hgreatest.contains, fun g hg other hother hcontains => ?_⟩
    exact hgreatest.le (mem_spans_iff.mpr ⟨g, hg, other, hother, rfl⟩) hcontains

/-- An address has one owner at most. -/
theorem Owns.unique (hf : table.Owns address f) (hg : table.Owns address g) : f = g := by
  obtain ⟨hf, block, -, hblock⟩ := owns_iff.mp hf
  obtain ⟨hg, other, -, hother⟩ := owns_iff.mp hg
  have hentry : f.entry = g.entry := congrArg Span.entry (hblock.unique hother)
  rw [mem_toList_iff, hentry] at hf
  rw [mem_toList_iff, hf] at hg
  exact Option.some.inj hg

/-- After finalization the owner of an address is found, or no block contains it. -/
theorem functionContaining?_cases (table : FunctionTable) (repair : Bool) (address : Address) :
    (∃ f, table.Owns address f ∧
        (table.finalize repair).2.functionContaining? address = some (f.finalize repair).1) ∨
      (∀ f ∈ table.toList, ∀ block ∈ f.blocks, block.contains address = false) ∧
        (table.finalize repair).2.functionContaining? address = none := by
  have hindex : (table.finalize repair).2.index = .ofSpans (table.finalize repair).2.spans := rfl
  unfold functionContaining?
  rw [hindex]
  obtain ⟨span, hgreatest, howner⟩ | ⟨hnone, howner⟩ :=
    AddressIndex.owner?_cases (table.finalize repair).2.spans address
  · rw [Greatest.congr fun _ => mem_spans_finalize] at hgreatest
    obtain ⟨f, hf, block, hmem, rfl⟩ := mem_spans_iff.mp hgreatest.mem
    refine .inl ⟨f, owns_iff.mpr ⟨hf, block, hmem, hgreatest⟩, ?_⟩
    rw [howner, Option.bind_some, get?_finalize, show (f.span block).entry = f.entry from rfl,
      mem_toList_iff.mp hf, Option.map_some]
  · refine .inr ⟨fun f hf block hmem => ?_, by rw [howner, Option.bind_none]⟩
    exact hnone (f.span block) (mem_spans_finalize.mpr (mem_spans_iff.mpr ⟨f, hf, block, hmem, rfl⟩))

/-- However a table came about, and whatever ranges its blocks have: once it is finalized, the function found for
an address is the one with the greatest of all blocks that contain it, and none is found exactly if no block does. -/
theorem functionContaining?_finalize (table : FunctionTable) (repair : Bool) (address : Address) :
    (∀ f, (table.finalize repair).2.functionContaining? address = some f ↔
        ∃ g, table.Owns address g ∧ (g.finalize repair).1 = f) ∧
      ((table.finalize repair).2.functionContaining? address = none ↔
        ∀ f ∈ table.toList, ∀ block ∈ f.blocks, block.contains address = false) := by
  obtain ⟨owner, howns, hfound⟩ | ⟨hnone, hfound⟩ := table.functionContaining?_cases repair address
  · refine ⟨fun f => ?_, ?_⟩
    · rw [hfound, Option.some.injEq]
      refine ⟨fun h => ⟨owner, howns, h⟩, ?_⟩
      rintro ⟨g, hg, rfl⟩
      rw [howns.unique hg]
    · rw [hfound]
      refine iff_of_false (by simp) fun hnone => ?_
      obtain ⟨block, hmem, hcontains, -⟩ := howns.exists_block
      rw [hnone owner howns.mem block hmem] at hcontains
      cases hcontains
  · refine ⟨fun f => ?_, iff_of_true hfound hnone⟩
    rw [hfound]
    refine iff_of_false (by simp) ?_
    rintro ⟨g, hg, rfl⟩
    obtain ⟨block, hmem, hcontains, -⟩ := hg.exists_block
    rw [hnone g hg.mem block hmem] at hcontains
    cases hcontains

end FunctionTable

end Disassembly.Flow
