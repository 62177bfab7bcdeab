import Std.Data.ExtTreeMap

/-!
# Interned texts

A pool keeps one copy of every text it is asked for. A handle is a text together with the slot that
holds the pool's copy, so two handles share storage exactly when their slots are equal.

A slot number is never given out twice while a handle on it may still be held: `clear` forgets the
texts but keeps counting, since handles from before may live on, whereas `release` is told which
handles are still held and starts counting again just past them.
-/

namespace Disassembly.Text

/-- A text and where the pool keeps it. -/
structure Handle where
  /-- The text itself. -/
  text : String
  /-- The slot of the shared copy. -/
  slot : Nat
  deriving DecidableEq, Repr

/-- The interned texts. -/
structure Pool where
  /-- The slot of each text. -/
  slots : Std.ExtTreeMap String Nat := ∅
  /-- The next slot to give out. -/
  next : Nat := 0

namespace Pool

/-- A handle on the shared copy of `text`, which is stored at its first use. -/
def intern (pool : Pool) (text : String) : Handle × Pool :=
  match pool.slots[text]? with
  | some slot => (⟨text, slot⟩, pool)
  | none => (⟨text, pool.next⟩, ⟨pool.slots.insert text pool.next, pool.next + 1⟩)

/-- How many texts are stored. -/
def size (pool : Pool) : Nat := pool.slots.size

/-- Whether no text is stored. -/
def isEmpty (pool : Pool) : Bool := pool.slots.isEmpty

/-- Forgets every text. Handles given out before stay good, and are not found again. -/
def clear (pool : Pool) : Pool := { pool with slots := ∅ }

/-- Forgets the texts that none of the handles still `held` stands on. -/
def release (pool : Pool) (held : List Handle) : Pool where
  slots := pool.slots.filter fun text slot => held.contains ⟨text, slot⟩
  next := held.foldl (fun next handle => max next (handle.slot + 1)) 0

/-! ### What the operations do to the slots -/

@[simp] theorem text_intern (pool : Pool) (text : String) : (pool.intern text).1.text = text := by
  unfold intern
  split <;> rfl

theorem slots_intern (pool : Pool) (text other : String) :
    (pool.intern text).2.slots[other]? =
      if text = other then some (pool.intern text).1.slot else pool.slots[other]? := by
  unfold intern
  split
  · split
    · simp_all
    · rfl
  · simp [Std.ExtTreeMap.getElem?_insert]

@[simp] theorem slots_clear (pool : Pool) (text : String) : pool.clear.slots[text]? = none := by
  simp [clear]

theorem slots_release {pool : Pool} {held : List Handle} {text : String} {slot : Nat} :
    (pool.release held).slots[text]? = some slot ↔
      pool.slots[text]? = some slot ∧ ⟨text, slot⟩ ∈ held := by
  simp [release, Std.ExtTreeMap.getElem?_filter]

end Pool

end Disassembly.Text
