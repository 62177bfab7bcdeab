import Mathlib.Data.List.Induction
import Mathlib.Logic.Relation
import Disassembly.Proofs.Expression.Reachable

/-!
# Requests taken back

A store grows by requests (`Store.Grows`), and a roll-back to where it started undoes them all, but for the
count of requests that were answered with a known node (`Grows.alike_rollback`). The reason is that the nodes
of a reachable store determine everything else in it, down to the slots of its pool (`Tidy.alike`). What that
count is makes no difference to any later request (`Alike.internOperand`).
-/

namespace Disassembly.Expression.Store

open Text

variable {s t u : Store} {draft : Draft NodeId} {id : NodeId} {node : Node} {mark : Checkpoint}

/-! ### Tidy stores -/

/-- A well-formed store whose pool gives out slots without a gap: the next one comes right after the highest
that the symbol of a node stands on. -/
structure Tidy (s : Store) : Prop extends s.WellFormed where
  /-- The next slot is the one from which a release would count on. -/
  next_eq : s.symbols.next = (s.symbols.release (s.nodes.toList.map Node.symbol)).next

theorem tidy_empty : ({} : Store).Tidy := ⟨wellFormed_empty, rfl⟩

theorem Tidy.slot_lt (h : s.Tidy) {text : String} {slot : Nat} (hslot : s.symbols.slots[text]? = some slot) :
    slot < s.symbols.next := by
  obtain ⟨id, node, hnode, hsym⟩ := h.slot_iff.mp hslot
  have hmem : node.symbol ∈ s.nodes.toList.map Node.symbol :=
    List.mem_map_of_mem (Array.mem_toList_iff.mpr (mem_nodes_iff.mpr ⟨id, hnode⟩))
  rw [h.next_eq]
  simpa only [hsym] using Pool.slot_lt_next_release hmem

theorem Tidy.create (h : s.Tidy) (hcreate : s.create draft = .ok (id, t)) : t.Tidy := by
  refine ⟨h.toWellFormed.create hcreate, ?_⟩
  obtain ⟨-, -, ⟨-, rfl⟩ | ⟨-, -, happend⟩⟩ := create_cases hcreate
  · exact h.next_eq
  · obtain rfl : t = (s.append draft).2 := congrArg Prod.snd happend
    have hnodes : (s.append draft).2.nodes.toList.map Node.symbol =
        s.nodes.toList.map Node.symbol ++ [(s.symbols.intern draft.symbol).1] := by
      simp [append, Node.ofDraft]
    rw [hnodes, Pool.next_release_append]
    show (s.symbols.intern draft.symbol).2.next = _
    rw [Pool.next_intern fun slot hslot => h.slot_lt hslot, h.next_eq]
    rfl

theorem Tidy.internAfter (h : s.Tidy) (ids : Array NodeId) (drafts : List (Draft Nat)) :
    (s.internAfter ids drafts).2.Tidy := by
  fun_induction Store.internAfter s ids drafts with
  | case1 s ids => exact h
  | case2 s ids draft drafts place hparent => exact h
  | case3 s ids draft drafts resolved hparent error hcreate => exact h
  | case4 s ids draft drafts resolved hparent id t hcreate ih => exact ih (h.create hcreate)

theorem Tidy.rollback (h : s.Tidy) (hmark : mark.stats.created = mark.size) : (s.rollback mark).Tidy := by
  refine ⟨h.toWellFormed.rollback hmark, ?_⟩
  unfold Store.rollback
  split
  · exact h.next_eq
  · rfl

theorem Step.tidy (hstep : s.Step t) (h : s.Tidy) : t.Tidy := by
  cases hstep with
  | create hcreate => exact h.create hcreate
  | internOperand s drafts => exact h.internAfter _ drafts
  | clear s => exact tidy_empty
  | rollback s hu => exact h.rollback hu.wellFormed.created_eq

theorem Reachable.tidy (h : s.Reachable) : s.Tidy := h.induct tidy_empty fun _ hstep hs => hstep.tidy hs

/-! ### What the nodes determine -/

/-- The stores agree in everything but how many requests were answered with a node that was there. -/
structure Alike (s t : Store) : Prop where
  /-- They have the same nodes under the same ids, -/
  nodes_eq : s.nodes = t.nodes
  /-- the same signatures, -/
  bySignature_eq : s.bySignature = t.bySignature
  /-- the same texts in the same slots, -/
  symbols_eq : s.symbols = t.symbols
  /-- and as many requests were answered with a new node. -/
  created_eq : s.stats.created = t.stats.created

theorem Alike.refl (s : Store) : s.Alike s := ⟨rfl, rfl, rfl, rfl⟩

theorem Alike.trans (h : s.Alike t) (h' : t.Alike u) : s.Alike u where
  nodes_eq := h.nodes_eq.trans h'.nodes_eq
  bySignature_eq := h.bySignature_eq.trans h'.bySignature_eq
  symbols_eq := h.symbols_eq.trans h'.symbols_eq
  created_eq := h.created_eq.trans h'.created_eq

theorem Alike.get?_eq (h : s.Alike t) (id : NodeId) : s.get? id = t.get? id := by
  rw [get?, get?, h.nodes_eq]

theorem nodes_eq_of_get? (h : ∀ id, s.get? id = t.get? id) : s.nodes = t.nodes :=
  Array.ext_getElem? fun i => h ⟨i⟩

/-- The nodes of a tidy store determine the rest. -/
theorem Tidy.alike (hs : s.Tidy) (ht : t.Tidy) (h : ∀ id, s.get? id = t.get? id) : s.Alike t where
  nodes_eq := nodes_eq_of_get? h
  bySignature_eq := Std.ExtTreeMap.ext_getElem? fun sig => Option.ext fun id => by
    rw [hs.known_iff, ht.known_iff, signature?, signature?, h]
  symbols_eq := by
    have hslots : s.symbols.slots = t.symbols.slots := Std.ExtTreeMap.ext_getElem? fun text =>
      Option.ext fun slot => by
        rw [hs.slot_iff, ht.slot_iff]
        simp only [h]
    have hnext : s.symbols.next = t.symbols.next := by
      rw [hs.next_eq, ht.next_eq, nodes_eq_of_get? h]
      rfl
    cases hsym : s.symbols
    cases htsym : t.symbols
    simp_all
  created_eq := by rw [hs.created_eq, ht.created_eq, size, size, nodes_eq_of_get? h]

/-- A store with all nodes of another one is the other one again when taken back to a mark of it. -/
theorem Tidy.alike_rollback (hs : s.Tidy) (ht : t.Tidy)
    (hkeep : ∀ id node, s.get? id = some node → t.get? id = some node) : (t.rollback s.checkpoint).Alike s := by
  refine (ht.rollback hs.created_eq).alike hs fun id => Option.ext fun node => ?_
  rw [get?_rollback_eq_some_iff]
  constructor
  · rintro ⟨hlt, hnode⟩
    obtain ⟨known, hknown⟩ : ∃ known, s.get? id = some known := exists_get? hlt
    rw [hkeep id known hknown] at hnode
    rwa [hknown]
  · intro hnode
    exact ⟨lt_size hnode, hkeep id node hnode⟩

/-! ### Requests to alike stores -/

/-- Stores that are alike answer a request with the same error, or with the same id and are alike again. -/
theorem Alike.create (h : s.Alike t) (draft : Draft NodeId) :
    (∃ error, s.create draft = .error error ∧ t.create draft = .error error) ∨
      ∃ id s' t', s.create draft = .ok (id, s') ∧ t.create draft = .ok (id, t') ∧ s'.Alike t' := by
  obtain ⟨nodes, known, symbols, created, m⟩ := s
  obtain ⟨nodes', known', symbols', created', n⟩ := t
  obtain ⟨rfl, rfl, rfl, rfl⟩ := h
  unfold Store.create
  have hsame : objection? ⟨nodes, known, symbols, created, m⟩ draft =
      objection? ⟨nodes, known, symbols, created, n⟩ draft := rfl
  rw [hsame]
  cases objection? ⟨nodes, known, symbols, created, n⟩ draft with
  | some error => exact .inl ⟨error, rfl, rfl⟩
  | none =>
    cases known[draft.signature]? with
    | some id => exact .inr ⟨id, _, _, rfl, rfl, rfl, rfl, rfl, rfl⟩
    | none =>
      by_cases hsize : nodes.size < capacity
      · exact .inr ⟨_, _, _, if_pos hsize, if_pos hsize, rfl, rfl, rfl, rfl⟩
      · exact .inl ⟨_, if_neg hsize, if_neg hsize⟩

theorem Alike.internAfter (h : s.Alike t) (ids : Array NodeId) (drafts : List (Draft Nat)) :
    (s.internAfter ids drafts).1 = (t.internAfter ids drafts).1 ∧
      (s.internAfter ids drafts).2.Alike (t.internAfter ids drafts).2 := by
  induction drafts generalizing s t ids with
  | nil => exact ⟨rfl, h⟩
  | cons draft drafts ih =>
    unfold Store.internAfter
    cases draft.resolveParent ids with
    | error place => exact ⟨rfl, h⟩
    | ok resolved =>
      obtain ⟨error, hs, ht⟩ | ⟨id, s', t', hs, ht, h'⟩ := h.create resolved
      · simp only [hs, ht]
        exact ⟨trivial, h⟩
      · simp only [hs, ht]
        exact ih h' _

/-- Stores that are alike answer the same. -/
theorem Alike.internOperand (h : s.Alike t) (drafts : List (Draft Nat)) :
    (s.internOperand drafts).1 = (t.internOperand drafts).1 ∧
      (s.internOperand drafts).2.Alike (t.internOperand drafts).2 :=
  h.internAfter #[] drafts

/-! ### Growing and going back -/

/-- Operands were stored one after the other, each of them as far as it could be. -/
def Grows : Store → Store → Prop :=
  Relation.ReflTransGen fun s t => ∃ drafts, t = (s.internOperand drafts).2

namespace Grows

theorem refl (s : Store) : s.Grows s := Relation.ReflTransGen.refl

theorem internOperand (s : Store) (drafts : List (Draft Nat)) : s.Grows (s.internOperand drafts).2 :=
  .single ⟨drafts, rfl⟩

theorem trans (h : s.Grows t) (h' : t.Grows u) : s.Grows u := Relation.ReflTransGen.trans h h'

theorem tidy (h : s.Grows t) (hs : s.Tidy) : t.Tidy := by
  induction h with
  | refl => exact hs
  | tail _ hstep ih =>
    obtain ⟨drafts, rfl⟩ := hstep
    exact ih.internAfter _ drafts

theorem reachable (h : s.Grows t) (hs : s.Reachable) : t.Reachable := by
  induction h with
  | refl => exact hs
  | tail _ hstep ih =>
    obtain ⟨drafts, rfl⟩ := hstep
    exact ih.step (.internOperand _ drafts)

/-- Nodes stay as they are. -/
theorem get? (h : s.Grows t) (hnode : s.get? id = some node) : t.get? id = some node := by
  induction h with
  | refl => exact hnode
  | tail _ hstep ih =>
    obtain ⟨drafts, rfl⟩ := hstep
    exact get?_internAfter ih

/-- Going back to where a store started to grow undoes all that came since. -/
theorem alike_rollback (h : s.Grows t) (hs : s.Tidy) : (t.rollback s.checkpoint).Alike s :=
  hs.alike_rollback (h.tidy hs) fun _ _ hnode => h.get? hnode

end Grows

end Disassembly.Expression.Store
