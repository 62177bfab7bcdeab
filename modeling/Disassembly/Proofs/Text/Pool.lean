import Mathlib.Data.Finset.Card
import Mathlib.Data.List.Induction
import Mathlib.Order.Lattice
import Disassembly.Text.Pool

/-!
# Runs of a pool

What a pool answers to any sequence of calls. No two texts are in one slot, and the next slot lies past all that are
taken (`Pool.Sound`), which interning, clearing and releasing keep up. While a pool is not cleared a text stays in its
slot; after a clearing only slots are given out that were not given out before (`Pool.From`). So two handles have the
same slot exactly if they are on the same text and the pool was not cleared in between (`Pool.slot_eq_iff`).
-/

namespace Disassembly.Text.Pool

variable {pool : Pool} {held : List Handle} {handle : Handle} {text other : String} {slot n : Nat}

/-! ### Interning and releasing -/

/-- After a text is interned the pool holds it, by the handle given out, besides what it held. -/
theorem slots_intern_iff : (pool.intern text).2.slots[other]? = some slot ↔
    ⟨other, slot⟩ = (pool.intern text).1 ∨ pool.slots[other]? = some slot := by
  rw [slots_intern]
  by_cases htext : text = other
  · subst htext
    cases hslot : pool.slots[text]? with
    | some known => simp [intern, hslot, eq_comm]
    | none => simp [intern, hslot, eq_comm]
  · rw [if_neg htext]
    refine (or_iff_right fun h => htext ?_).symm
    rw [← text_intern pool text, ← h]

/-- The text that was interned is in the slot of its handle. -/
theorem slots_intern_self (pool : Pool) (text : String) :
    (pool.intern text).2.slots[text]? = some (pool.intern text).1.slot := by
  rw [slots_intern, if_pos rfl]

theorem slots_intern_of_slots (h : pool.slots[other]? = some slot) :
    (pool.intern text).2.slots[other]? = some slot := slots_intern_iff.mpr (.inr h)

/-- The handle given out is on the slot of its text, or the text is new and goes to the next slot. -/
theorem intern_cases (pool : Pool) (text : String) :
    pool.slots[text]? = some (pool.intern text).1.slot ∧ (pool.intern text).2 = pool ∨
      pool.slots[text]? = none ∧ (pool.intern text).1.slot = pool.next ∧
        (pool.intern text).2.next = pool.next + 1 := by
  unfold intern
  cases hslot : pool.slots[text]? with
  | some known => exact .inl ⟨rfl, rfl⟩
  | none => exact .inr ⟨rfl, rfl, rfl⟩

theorem next_le_next_intern (pool : Pool) (text : String) : pool.next ≤ (pool.intern text).2.next := by
  obtain ⟨-, hpool⟩ | ⟨-, -, hnext⟩ := pool.intern_cases text
  · rw [hpool]
  · rw [hnext]
    exact Nat.le_succ _

/-- The next slot stays just past all that were given out. -/
theorem next_intern (h : ∀ slot, pool.slots[text]? = some slot → slot < pool.next) :
    (pool.intern text).2.next = max pool.next ((pool.intern text).1.slot + 1) := by
  obtain ⟨hslot, hpool⟩ | ⟨-, hslot, hnext⟩ := pool.intern_cases text
  · rw [hpool]
    exact (max_eq_left (h _ hslot)).symm
  · rw [hnext, hslot]
    exact (max_eq_right (Nat.le_succ _)).symm

theorem next_release_append :
    (pool.release (held ++ [handle])).next = max (pool.release held).next (handle.slot + 1) := by
  simp only [release, List.foldl_append, List.foldl_cons, List.foldl_nil]

/-- The slots of held handles are not given out again. -/
theorem slot_lt_next_release (h : handle ∈ held) : handle.slot < (pool.release held).next := by
  induction held using List.reverseRecOn with
  | nil => cases h
  | append_singleton held last ih =>
    rw [next_release_append]
    rcases List.mem_append.mp h with h | h
    · exact lt_max_of_lt_left (ih h)
    · obtain rfl := List.mem_singleton.mp h
      exact lt_max_of_lt_right (Nat.lt_succ_self _)

/-! ### One text to a slot -/

/-- Every text has a slot of its own, and the next one is free. -/
structure Sound (pool : Pool) : Prop where
  /-- The next slot lies past those that are taken. -/
  slot_lt {text : String} {slot : Nat} : pool.slots[text]? = some slot → slot < pool.next
  /-- Two texts are not in one slot. -/
  text_eq {text other : String} {slot : Nat} :
    pool.slots[text]? = some slot → pool.slots[other]? = some slot → text = other

theorem sound_empty : ({} : Pool).Sound where
  slot_lt h := by simp at h
  text_eq h := by simp at h

namespace Sound

theorem intern (h : pool.Sound) (text : String) : (pool.intern text).2.Sound := by
  obtain ⟨-, hpool⟩ | ⟨-, hslot, hnext⟩ := pool.intern_cases text
  · rwa [hpool]
  · have hold {other : String} {slot : Nat} (hother : (pool.intern text).2.slots[other]? = some slot) :
        other = text ∧ slot = pool.next ∨ pool.slots[other]? = some slot := by
      refine (slots_intern_iff.mp hother).imp_left fun heq => ?_
      rw [← hslot, ← heq, ← pool.text_intern text, ← heq]
      exact ⟨rfl, rfl⟩
    refine { slot_lt := fun {other slot} hother => ?_, text_eq := fun {a b slot} ha hb => ?_ }
    · rw [hnext]
      obtain ⟨-, rfl⟩ | hother := hold hother
      · exact Nat.lt_succ_self _
      · exact Nat.lt_succ_of_lt (h.slot_lt hother)
    · obtain ⟨rfl, rfl⟩ | ha := hold ha
      · obtain ⟨rfl, -⟩ | hb := hold hb
        · rfl
        · exact absurd (h.slot_lt hb) (Nat.lt_irrefl _)
      · obtain ⟨-, rfl⟩ | hb := hold hb
        · exact absurd (h.slot_lt ha) (Nat.lt_irrefl _)
        · exact h.text_eq ha hb

theorem clear (pool : Pool) : pool.clear.Sound where
  slot_lt h := by simp at h
  text_eq h := by simp at h

theorem release (h : pool.Sound) (held : List Handle) : (pool.release held).Sound where
  slot_lt hslot := slot_lt_next_release (slots_release.mp hslot).2
  text_eq ha hb := h.text_eq (slots_release.mp ha).1 (slots_release.mp hb).1

end Sound

/-! ### Calls and replies -/

/-- What a pool may be asked for. -/
inductive Call where
  /-- A handle on a text. -/
  | intern (text : String)
  /-- To forget every text. -/
  | clear
  deriving DecidableEq, Repr

variable {call : Call} {calls : List Call} {a b : String}

/-- The reply to a call, which is a handle if one was asked for, and the pool after it. -/
def answer (pool : Pool) : Call → Option Handle × Pool
  | .intern text => (some (pool.intern text).1, (pool.intern text).2)
  | .clear => (none, pool.clear)

/-- The replies to some calls made one after the other. -/
def replies (pool : Pool) : List Call → List (Option Handle)
  | [] => []
  | call :: calls => (pool.answer call).1 :: (pool.answer call).2.replies calls

/-- The pool after some calls. -/
def after (pool : Pool) (calls : List Call) : Pool := calls.foldl (fun pool call => (pool.answer call).2) pool

/-- The texts asked for since the pool was last cleared, the latest first. -/
def recent (calls : List Call) : List String :=
  calls.foldl (fun texts call =>
    match call with
    | .intern text => text :: texts
    | .clear => []) []

theorem after_append (pool : Pool) (calls more : List Call) :
    pool.after (calls ++ more) = (pool.after calls).after more := List.foldl_append

theorem getElem?_replies (pool : Pool) (calls : List Call) (i : Nat) :
    (pool.replies calls)[i]? = calls[i]?.map fun call => ((pool.after (calls.take i)).answer call).1 := by
  induction calls generalizing pool i with
  | nil => rfl
  | cons call calls ih =>
    cases i with
    | zero => rfl
    | succ i => exact ih _ i

theorem Sound.after (h : pool.Sound) (calls : List Call) : (pool.after calls).Sound := by
  induction calls generalizing pool with
  | nil => exact h
  | cons call calls ih =>
    cases call with
    | intern text => exact ih (h.intern text)
    | clear => exact ih (.clear pool)

/-! ### Slots over a run -/

/-- A text stays in its slot as long as the pool is not cleared. -/
theorem slots_after (h : pool.slots[text]? = some slot) (hclear : .clear ∉ calls) :
    (pool.after calls).slots[text]? = some slot := by
  induction calls generalizing pool with
  | nil => exact h
  | cons call calls ih =>
    obtain ⟨hcall, hcalls⟩ := not_or.mp (List.mem_cons.not.mp hclear)
    cases call with
    | intern other => exact ih (slots_intern_of_slots h) hcalls
    | clear => exact absurd rfl hcall

/-- Slot `n` and those past it are all that the pool has in use or will give out. -/
structure From (n : Nat) (pool : Pool) : Prop where
  /-- They will be given out, -/
  le_next : n ≤ pool.next
  /-- and they are in use. -/
  le_slot {text : String} {slot : Nat} : pool.slots[text]? = some slot → n ≤ slot

theorem From.slot_intern (h : pool.From n) (text : String) : n ≤ (pool.intern text).1.slot := by
  obtain ⟨hslot, -⟩ | ⟨-, hslot, -⟩ := pool.intern_cases text
  · exact h.le_slot hslot
  · rw [hslot]
    exact h.le_next

theorem from_clear (h : n ≤ pool.next) : pool.clear.From n where
  le_next := h
  le_slot hslot := by simp at hslot

theorem From.after (h : pool.From n) (calls : List Call) : (pool.after calls).From n := by
  induction calls generalizing pool with
  | nil => exact h
  | cons call calls ih =>
    cases call with
    | intern text =>
      refine ih { le_next := h.le_next.trans (pool.next_le_next_intern text), le_slot := fun {other slot} hslot => ?_ }
      obtain heq | hslot := slots_intern_iff.mp hslot
      · rw [show slot = (pool.intern text).1.slot from congrArg Handle.slot heq]
        exact h.slot_intern text
      · exact h.le_slot hslot
    | clear => exact ih (from_clear h.le_next)

/-- A clearing leaves only the slots that were not given out before it. -/
theorem from_after_of_clear (h : n ≤ pool.next) (hclear : .clear ∈ calls) : (pool.after calls).From n := by
  induction calls generalizing pool with
  | nil => cases hclear
  | cons call calls ih =>
    cases call with
    | intern text =>
      have hcalls : .clear ∈ calls := (List.mem_cons.mp hclear).resolve_left (by simp)
      exact ih (h.trans (pool.next_le_next_intern text)) hcalls
    | clear => exact (from_clear h).after calls

/-- Two handles given out one after the other are on the same slot exactly if they are on the same text and the pool
was not cleared in between. -/
theorem Sound.slot_eq_iff (h : pool.Sound) (a b : String) (between : List Call) :
    (pool.intern a).1.slot = (((pool.intern a).2.after between).intern b).1.slot ↔
      a = b ∧ .clear ∉ between := by
  have hfirst := pool.slots_intern_self a
  have hsound := (h.intern a).after between
  have hlast := slots_intern_self ((pool.intern a).2.after between) b
  by_cases hclear : .clear ∈ between
  · refine iff_of_false (fun heq => ?_) (fun hand => hand.2 hclear)
    have hle := (from_after_of_clear ((h.intern a).slot_lt hfirst) hclear).slot_intern b
    omega
  · let pool' := (pool.intern a).2.after between
    have hkept : (pool'.intern b).2.slots[a]? = some (pool.intern a).1.slot :=
      slots_intern_of_slots (slots_after hfirst hclear)
    rw [and_iff_left hclear]
    constructor
    · intro heq
      rw [← heq] at hlast
      exact (hsound.intern b).text_eq hkept hlast
    · rintro rfl
      rw [hkept] at hlast
      exact Option.some.inj hlast

theorem replies_of_intern {i : Nat} (hi : calls[i]? = some (.intern text)) :
    (pool.replies calls)[i]? = some (some ((pool.after (calls.take i)).intern text).1) := by
  rw [getElem?_replies, hi]
  rfl

/-- Two handles given out in a run are on the same slot exactly if they are on the same text and the pool was not
cleared in between. -/
theorem Sound.slot_replies_iff (h : pool.Sound) {i j : Nat} (hle : i ≤ j) {first last : Handle}
    (hi : calls[i]? = some (.intern a)) (hj : calls[j]? = some (.intern b))
    (hfirst : (pool.replies calls)[i]? = some (some first))
    (hlast : (pool.replies calls)[j]? = some (some last)) :
    first.slot = last.slot ↔ a = b ∧ ∀ m, i < m → m < j → calls[m]? ≠ some .clear := by
  rw [replies_of_intern hi, Option.some.injEq, Option.some.injEq] at hfirst
  rw [replies_of_intern hj, Option.some.injEq, Option.some.injEq] at hlast
  subst hfirst hlast
  obtain rfl | hlt := hle.eq_or_lt
  · rw [hi, Option.some.injEq, Call.intern.injEq] at hj
    subst hj
    exact iff_of_true rfl ⟨rfl, fun m him hmi => absurd him hmi.asymm⟩
  · have htake : calls.take j = calls.take i ++ .intern a :: (calls.take j).drop (i + 1) := by
      obtain ⟨hlength, heq⟩ := List.getElem?_eq_some_iff.mp hi
      have hmin : i < (calls.take j).length := by
        rw [List.length_take]
        exact lt_min hlt hlength
      have hhead : (calls.take j)[i] = .intern a := by rw [List.getElem_take, heq]
      have hinit : (calls.take j).take i = calls.take i := by rw [List.take_take, min_eq_left hlt.le]
      rw [← hhead, List.getElem_cons_drop, ← hinit, List.take_append_drop]
    have hclear : .clear ∉ (calls.take j).drop (i + 1) ↔ ∀ m, i < m → m < j → calls[m]? ≠ some .clear := by
      rw [List.mem_iff_getElem?, not_exists]
      simp only [List.getElem?_drop, List.getElem?_take]
      constructor
      · intro hnone m him hmj heq
        refine hnone (m - (i + 1)) ?_
        rw [Nat.add_sub_cancel' him, if_pos hmj, heq]
      · intro hnone m heq
        split at heq
        · exact hnone _ (by omega) (by assumption) heq
        · cases heq
    rw [htake, after_append, ← hclear]
    exact (h.after _).slot_eq_iff a b _

/-- The pool holds the texts that were asked for since it was last cleared. -/
theorem mem_slots_after : text ∈ (after {} calls).slots ↔ text ∈ recent calls := by
  induction calls using List.reverseRecOn with
  | nil => simp [after, recent]
  | append_singleton calls call ih =>
    rw [after_append, recent, List.foldl_append]
    cases call with
    | intern other =>
      show text ∈ ((after {} calls).intern other).2.slots ↔ text ∈ other :: recent calls
      rw [List.mem_cons, ← ih]
      simp only [Std.ExtTreeMap.mem_iff_isSome_getElem?, slots_intern]
      by_cases heq : other = text
      · simp [heq]
      · simp [heq, Ne.symm heq]
    | clear =>
      show text ∈ (after {} calls).clear.slots ↔ text ∈ []
      simp [clear]

theorem size_after (calls : List Call) : (after {} calls).size = (recent calls).toFinset.card := by
  have hkeys : (after {} calls).slots.keys.toFinset = (recent calls).toFinset := by
    ext text
    rw [List.mem_toFinset, List.mem_toFinset, Std.ExtTreeMap.mem_keys, mem_slots_after]
  rw [← hkeys, List.toFinset_card_of_nodup Std.ExtTreeMap.nodup_keys, Std.ExtTreeMap.length_keys, size]

end Disassembly.Text.Pool
