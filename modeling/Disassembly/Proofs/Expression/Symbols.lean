import Disassembly.Proofs.Expression.Calls

/-!
# Symbols in a store

The pool of a reachable store has no two texts in one slot (`Reachable.sound`), whatever was forgotten and stored
again, and the symbol of every node is the text in its slot. So the nodes that are there share the storage of their
symbols exactly if these are equal (`Reachable.slot_eq_iff`). `texts_shared` says the same of pools alone.
-/

namespace Disassembly.Expression.Store

open Disassembly.Text

variable {s t : Store} {draft : Draft NodeId} {id : NodeId} {m n : Node} {mark : Checkpoint}

theorem sound_of_create (h : s.symbols.Sound) (hcreate : s.create draft = .ok (id, t)) : t.symbols.Sound := by
  obtain ⟨-, -, ⟨-, rfl⟩ | ⟨-, -, happend⟩⟩ := create_cases hcreate
  · exact h
  · obtain rfl : t = (s.append draft).2 := congrArg Prod.snd happend
    exact h.intern draft.symbol

theorem sound_internAfter (h : s.symbols.Sound) (ids : Array NodeId) (drafts : List (Draft Nat)) :
    (s.internAfter ids drafts).2.symbols.Sound := by
  fun_induction Store.internAfter s ids drafts with
  | case1 s ids => exact h
  | case2 s ids draft drafts place hparent => exact h
  | case3 s ids draft drafts resolved hparent error hcreate => exact h
  | case4 s ids draft drafts resolved hparent id t hcreate ih => exact ih (sound_of_create h hcreate)

theorem sound_rollback (h : s.symbols.Sound) (mark : Checkpoint) : (s.rollback mark).symbols.Sound := by
  unfold rollback
  split
  · exact h
  · exact h.release _

theorem Step.sound (hstep : s.Step t) (h : s.symbols.Sound) : t.symbols.Sound := by
  cases hstep with
  | create hcreate => exact sound_of_create h hcreate
  | internOperand s drafts => exact sound_internAfter h _ drafts
  | clear s => exact Pool.sound_empty
  | rollback s hu => exact sound_rollback h _

theorem Reachable.sound (h : s.Reachable) : s.symbols.Sound :=
  h.induct Pool.sound_empty fun _ hstep hs => hstep.sound hs

/-- The symbol of a node is in the pool, in its slot. -/
theorem WellFormed.slots_symbol (h : s.WellFormed) (hmem : m ∈ s.nodes) :
    s.symbols.slots[m.symbol.text]? = some m.symbol.slot := by
  obtain ⟨id, hnode⟩ := mem_nodes_iff.mp hmem
  exact h.slot_iff.mpr ⟨id, m, hnode, rfl⟩

theorem Reachable.slot_eq_iff (h : s.Reachable) (hm : m ∈ s.nodes) (hn : n ∈ s.nodes) :
    m.symbol.slot = n.symbol.slot ↔ m.symbol.text = n.symbol.text := by
  have hmslot := h.wellFormed.slots_symbol hm
  have hnslot := h.wellFormed.slots_symbol hn
  constructor
  · intro heq
    rw [heq] at hmslot
    exact h.sound.text_eq hmslot hnslot
  · intro heq
    rw [heq, hnslot] at hmslot
    exact (Option.some.inj hmslot).symm

/-- Every handle that a pool gives out is on the text that was asked for. Two of them share storage exactly if they are
on the same text and the pool was not cleared in between, and the pool counts the different texts asked for since it was
last cleared. In a reachable store two nodes share the storage of their symbols exactly if these are equal. -/
theorem texts_shared :
    (∀ calls : List Pool.Call,
      (∀ (i : Nat) (text : String), calls[i]? = some (.intern text) →
        ∃ handle, (Pool.replies {} calls)[i]? = some (some handle) ∧ handle.text = text) ∧
      (∀ (i j : Nat) (a b : String) (first last : Handle), i ≤ j → calls[i]? = some (.intern a) →
        calls[j]? = some (.intern b) → (Pool.replies {} calls)[i]? = some (some first) →
          (Pool.replies {} calls)[j]? = some (some last) →
            (first.slot = last.slot ↔ a = b ∧ ∀ m, i < m → m < j → calls[m]? ≠ some .clear)) ∧
      (Pool.after {} calls).size = (Pool.recent calls).toFinset.card) ∧
    ∀ s : Store, s.Reachable → ∀ m ∈ s.nodes, ∀ n ∈ s.nodes,
      (m.symbol.slot = n.symbol.slot ↔ m.symbol.text = n.symbol.text) := by
  refine ⟨fun calls => ⟨fun i text hi => ?_, ?_, Pool.size_after calls⟩, fun s hs m hm n hn => hs.slot_eq_iff hm hn⟩
  · exact ⟨_, Pool.replies_of_intern hi, Pool.text_intern _ _⟩
  · intro i j a b first last hle hi hj hfirst hlast
    exact Pool.sound_empty.slot_replies_iff hle hi hj hfirst hlast

/-- A text asked for twice, and twice again after the pool was cleared. -/
def cleared : List Pool.Call :=
  [.intern "eax", .intern "b4", .intern "eax", .clear, .intern "eax", .intern "eax"]

/-- A store in which a symbol was forgotten and then stored again for two nodes. -/
def redone : Store :=
  let returned := (accessed.internOperand [.register "eax"]).2.rollback accessed.checkpoint
  (returned.internOperand [.register "eax", { Draft.register "eax" with position := 1 }]).2

theorem texts_shared_redone :
    (Pool.replies {} cleared).map (Option.map Handle.slot) = [some 0, some 1, some 0, none, some 2, some 2] ∧
      (∀ first last : Handle, (Pool.replies {} cleared)[2]? = some (some first) →
        (Pool.replies {} cleared)[4]? = some (some last) → first.slot ≠ last.slot) ∧
      (Pool.after {} cleared).size = 1 ∧ redone.Reachable ∧
      ∃ m ∈ redone.nodes, ∃ n ∈ redone.nodes, m ≠ n ∧ m.symbol.slot = n.symbol.slot := by
  obtain ⟨hcalls, hstores⟩ := texts_shared
  obtain ⟨-, hslots, hsize⟩ := hcalls cleared
  have hredone : redone.Reachable :=
    ((reachable_accessed.step (.internOperand _ _)).step (.rollback _ reachable_accessed)).step (.internOperand _ _)
  have hfirst : .ofDraft ⟨3⟩ ⟨"eax", 3⟩ (.register "eax") ∈ redone.nodes := by decide +kernel
  have hsecond : .ofDraft ⟨4⟩ ⟨"eax", 3⟩ { Draft.register "eax" with position := 1 } ∈ redone.nodes := by
    decide +kernel
  refine ⟨by decide +kernel, fun first last hfirst hlast heq => ?_, hsize.trans (by decide +kernel), hredone,
    _, hfirst, _, hsecond, by decide, (hstores redone hredone _ hfirst _ hsecond).mpr rfl⟩
  obtain ⟨-, hclear⟩ := (hslots 2 4 "eax" "eax" first last (by decide) rfl rfl hfirst hlast).mp heq
  exact hclear 3 (by decide) (by decide) rfl

end Disassembly.Expression.Store
