import Disassembly.Flow.Function

/-!
# Looking up blocks

What a look-up by address means in a function whose blocks are sorted by start: the block found is the last
one that does not start past the address, provided that it contains it (`blockIndex?_eq_some_iff`). Blocks
may overlap or have a start in common; then only that last block is considered.
-/

namespace Disassembly.Flow

/-- The items of a list that satisfy `p` come first just up to the place where `takeWhile` stops. -/
theorem lt_length_takeWhile_iff {α : Type} {p : α → Bool} {l : List α} {i : Nat} {a : α}
    (h : l.Pairwise fun a b => p b = true → p a = true) (hi : l[i]? = some a) :
    i < (l.takeWhile p).length ↔ p a = true := by
  induction l generalizing i with
  | nil => simp at hi
  | cons b l ih =>
    obtain ⟨hb, hl⟩ := List.pairwise_cons.mp h
    cases hp : p b with
    | false =>
      rw [List.takeWhile_cons_of_neg (by simp [hp])]
      cases i with
      | zero =>
        obtain rfl : b = a := by simpa using hi
        simp [hp]
      | succ i =>
        have := hb a (List.mem_of_getElem? (by simpa using hi))
        simp_all
    | true =>
      rw [List.takeWhile_cons_of_pos hp, List.length_cons]
      cases i with
      | zero =>
        obtain rfl : b = a := by simpa using hi
        simp [hp]
      | succ i =>
        rw [← ih hl (by simpa using hi)]
        exact Nat.succ_lt_succ_iff

/-- The items that satisfy `p` are all passed by `takeWhile` if they come first. -/
theorem takeWhile_eq_filter {α : Type} {p : α → Bool} {l : List α}
    (h : l.Pairwise fun a b => p b = true → p a = true) : l.takeWhile p = l.filter p := by
  induction l with
  | nil => rfl
  | cons a l ih =>
    obtain ⟨ha, hl⟩ := List.pairwise_cons.mp h
    cases hp : p a with
    | true => rw [List.takeWhile_cons_of_pos hp, List.filter_cons_of_pos hp, ih hl]
    | false =>
      have hnone : ∀ b ∈ l, ¬ p b = true := fun b hb hpb => by simp [ha b hb hpb] at hp
      rw [List.takeWhile_cons_of_neg (by simp [hp]), List.filter_cons_of_neg (by simp [hp]),
        List.filter_eq_nil_iff.mpr hnone]

/-- Where only equal items compare equal, two items of which neither is greater are one. -/
theorem eq_of_isLE {α : Type} [Ord α] [Std.OrientedOrd α] [Std.LawfulEqOrd α] {a b : α}
    (hab : (compare a b).isLE = true) (hba : (compare b a).isLE = true) : a = b :=
  Std.LawfulEqOrd.eq_of_compare (Std.OrientedCmp.isLE_antisymm hab hba)

/-- To sort by an order puts every item before those that are greater. -/
theorem pairwise_mergeSort_isLE {α : Type} [Ord α] [Std.TransOrd α] (l : List α) :
    (l.mergeSort fun a b => (compare a b).isLE).Pairwise fun a b => (compare a b).isLE = true := by
  refine List.pairwise_mergeSort (fun a b c => Std.TransCmp.isLE_trans) (fun a b => ?_) l
  rw [Std.OrientedOrd.eq_swap (a := b)]
  cases compare a b <;> rfl

/-- Items in order are what sorting makes of any list of them. -/
theorem mergeSort_isLE_eq {α : Type} [Ord α] [Std.TransOrd α] [Std.LawfulEqOrd α] {l sorted : List α}
    (hperm : sorted.Perm l) (hsorted : sorted.Pairwise fun a b => (compare a b).isLE = true) :
    (l.mergeSort fun a b => (compare a b).isLE) = sorted :=
  ((List.mergeSort_perm l _).trans hperm.symm).eq_of_pairwise (fun _ _ _ _ => eq_of_isLE) (pairwise_mergeSort_isLE l)
    hsorted

section

variable {α : Type} (key : α → Address)

theorem decide_address_le_trans (a b c : α) (hab : decide (key a ≤ key b) = true)
    (hbc : decide (key b ≤ key c) = true) : decide (key a ≤ key c) = true :=
  decide_eq_true (UInt64.le_trans (of_decide_eq_true hab) (of_decide_eq_true hbc))

theorem decide_address_le_total (a b : α) : (decide (key a ≤ key b) || decide (key b ≤ key a)) = true := by
  simpa using UInt64.le_total (key a) (key b)

/-- To sort by an address puts every item before those with a greater one. -/
theorem pairwise_mergeSort_address (l : List α) :
    (l.mergeSort fun a b => key a ≤ key b).Pairwise fun a b => key a ≤ key b := by
  have hsort := List.pairwise_mergeSort (decide_address_le_trans key) (decide_address_le_total key) l
  exact hsort.imp fun h => of_decide_eq_true h

/-- To sort by an address leaves the items with the same address in their order. -/
theorem filter_mergeSort_address (l : List α) (address : Address) :
    (l.mergeSort fun a b => key a ≤ key b).filter (fun a => key a = address) =
      l.filter fun a => key a = address := by
  have hequal : (l.filter fun a => key a = address).Pairwise fun a b => decide (key a ≤ key b) = true := by
    refine List.pairwise_of_forall_mem_list fun a ha b hb => ?_
    have ha' : key a = address := by simpa using (List.mem_filter.mp ha).2
    have hb' : key b = address := by simpa using (List.mem_filter.mp hb).2
    rw [ha', hb']
    exact decide_eq_true (UInt64.le_refl address)
  have hsub := List.sublist_mergeSort (decide_address_le_trans key) (decide_address_le_total key) hequal
    List.filter_sublist
  refine (List.Sublist.eq_of_length ?_ ?_).symm
  · simpa [List.filter_filter] using hsub.filter fun a => decide (key a = address)
  · exact ((List.mergeSort_perm l _).filter _).length_eq.symm

end

namespace Function

variable {f : Function} {address : Address} {block : Block} {i j : Nat}

/-- The blocks are in the order of their starts. -/
def Sorted (f : Function) : Prop := f.blocks.Pairwise fun a b => a.start ≤ b.start

/-- Block `i` is the last one that does not start past the address, and contains it. -/
def Finds (f : Function) (address : Address) (i : Nat) : Prop :=
  (∃ block, f.blocks[i]? = some block ∧ block.contains address = true) ∧
    ∀ j block, f.blocks[j]? = some block → block.start ≤ address → j ≤ i

instance (f : Function) : Decidable f.Sorted := inferInstanceAs (Decidable (List.Pairwise _ _))

theorem Finds.lt_length (h : f.Finds address i) : i < f.blocks.length := by
  obtain ⟨⟨block, hi, -⟩, -⟩ := h
  exact (List.getElem?_eq_some_iff.mp hi).1

/-- An address is found in one block at most. -/
theorem Finds.unique (h : f.Finds address i) (h' : f.Finds address j) : i = j := by
  obtain ⟨⟨block, hi, hc⟩, hlast⟩ := h
  obtain ⟨⟨block', hj, hc'⟩, hlast'⟩ := h'
  simp only [Block.contains, Bool.and_eq_true, decide_eq_true_eq] at hc hc'
  have := hlast j block' hj hc'.1
  have := hlast' i block hi hc.1
  omega

/-- How many blocks `takeWhile` passes: those that do not start past the address. -/
theorem Sorted.lt_length_iff (h : f.Sorted) (hi : f.blocks[i]? = some block) :
    i < (f.blocks.takeWhile fun block => block.start ≤ address).length ↔ block.start ≤ address := by
  rw [lt_length_takeWhile_iff (h.imp fun hab hb => ?_) hi, decide_eq_true_eq]
  exact decide_eq_true (UInt64.le_trans hab (of_decide_eq_true hb))

theorem Sorted.start_le {a b : Block} (h : f.Sorted) (ha : f.blocks[i]? = some a) (hb : f.blocks[j]? = some b)
    (hij : i ≤ j) : a.start ≤ b.start := by
  obtain ⟨hi, rfl⟩ := List.getElem?_eq_some_iff.mp ha
  obtain ⟨hj, rfl⟩ := List.getElem?_eq_some_iff.mp hb
  obtain rfl | hlt := Nat.eq_or_lt_of_le hij
  · exact UInt64.le_refl _
  · exact List.pairwise_iff_getElem.mp h i j hi hj hlt

/-- Of the blocks that do not start past an address one is the last. -/
theorem Sorted.exists_last (h : f.Sorted) (hmem : block ∈ f.blocks) (hstart : block.start ≤ address) :
    ∃ (k : Nat) (last : Block), f.blocks[k]? = some last ∧ last.start ≤ address ∧ block.start ≤ last.start ∧
      ∀ (j : Nat) (other : Block), f.blocks[j]? = some other → other.start ≤ address → j ≤ k := by
  obtain ⟨n, hn⟩ := List.mem_iff_getElem?.mp hmem
  have hle : (f.blocks.takeWhile fun block => block.start ≤ address).length ≤ f.blocks.length :=
    (List.takeWhile_prefix _).length_le
  have hpassed := (h.lt_length_iff hn).mpr hstart
  obtain ⟨k, hk⟩ := Nat.exists_eq_succ_of_ne_zero (Nat.ne_zero_of_lt hpassed)
  obtain ⟨last, hlast⟩ : ∃ last, f.blocks[k]? = some last := ⟨_, List.getElem?_eq_getElem (by omega)⟩
  refine ⟨k, last, hlast, (h.lt_length_iff hlast).mp (by omega), h.start_le hn hlast (by omega), ?_⟩
  intro j other hj hother
  have := (h.lt_length_iff hj).mpr hother
  omega

/-- The look-up finds the block that it should. -/
theorem Sorted.blockIndex?_eq_some_iff (h : f.Sorted) :
    f.blockIndex? address = some i ↔ f.Finds address i := by
  have hle : (f.blocks.takeWhile fun block => block.start ≤ address).length ≤ f.blocks.length :=
    (List.takeWhile_prefix _).length_le
  unfold blockIndex?
  cases hk : (f.blocks.takeWhile fun block => block.start ≤ address).length with
  | zero =>
    refine iff_of_false (by simp) ?_
    rintro ⟨⟨block, hi, hc⟩, -⟩
    simp only [Block.contains, Bool.and_eq_true, decide_eq_true_eq] at hc
    have := (h.lt_length_iff hi).mpr hc.1
    omega
  | succ k =>
    have hlast {j : Nat} {block : Block} (hj : f.blocks[j]? = some block)
        (hle : block.start ≤ address) : j ≤ k := by
      have := (h.lt_length_iff hj).mpr hle
      omega
    obtain ⟨last, hlast?⟩ : ∃ last, f.blocks[k]? = some last :=
      ⟨_, List.getElem?_eq_getElem (by omega)⟩
    show (if f.blocks[k]?.any (·.contains address) then some k else none) = some i ↔ _
    rw [hlast?, Option.any_some]
    constructor
    · intro heq
      cases hc : last.contains address with
      | true =>
        rw [if_pos hc, Option.some.injEq] at heq
        subst heq
        exact ⟨⟨last, hlast?, hc⟩, fun j block => hlast⟩
      | false =>
        rw [if_neg (by simp [hc])] at heq
        cases heq
    · rintro ⟨⟨block, hi, hc⟩, hmax⟩
      have hstart : block.start ≤ address := by
        simp only [Block.contains, Bool.and_eq_true, decide_eq_true_eq] at hc
        exact hc.1
      have hik := hlast hi hstart
      have hki := hmax k last hlast? ((h.lt_length_iff hlast?).mp (by omega))
      obtain rfl : i = k := by omega
      obtain rfl : block = last := by simpa [hi] using hlast?
      rw [if_pos hc]

end Function

end Disassembly.Flow
