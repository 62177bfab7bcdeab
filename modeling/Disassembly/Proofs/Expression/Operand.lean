import Disassembly.Proofs.Expression.Reachable

/-!
# Operands and their nodes

A store spells an operand by a list of ids if these name nodes that agree with its drafts, parents included
(`Store.Spells`). That is so when the operand has just been stored (`Spells.internAfter`), and it stays so
through all steps that leave these nodes in their places (`Holds.spells`).
-/

namespace Disassembly.Expression

theorem Draft.resolveParent_eq_ok {draft : Draft Nat} {resolved : Draft NodeId} {ids : Array NodeId}
    (h : draft.resolveParent ids = .ok resolved) :
    (∀ p ∈ draft.parent, p < ids.size) ∧ resolved.link = draft.link ∧
      resolved.parent = draft.parent.bind (ids.toList[·]?) := by
  unfold resolveParent at h
  cases hparent : draft.parent with
  | none =>
    rw [hparent] at h
    cases h
    simp [link]
  | some place =>
    rw [hparent] at h
    cases hid : ids[place]? with
    | none =>
      simp only [hid] at h
      cases h
    | some id =>
      simp only [hid] at h
      cases h
      obtain ⟨hlt, rfl⟩ := Array.getElem?_eq_some_iff.mp hid
      simp [link, hlt]

namespace Store

variable {s t : Store} {drafts : List (Draft Nat)} {ids : List NodeId} {id : NodeId} {node : Node}

/-- The ids are those of nodes that stand for the drafts of an operand, place by place. -/
structure Spells (s : Store) (drafts : List (Draft Nat)) (ids : List NodeId) : Prop where
  /-- There is an id for every draft. -/
  length_eq : ids.length = drafts.length
  /-- Each node says of itself what its draft does, and its parent is the node of the draft's parent. -/
  exists_node {i : Nat} {draft : Draft Nat} : drafts[i]? = some draft →
    (∀ p ∈ draft.parent, p < i) ∧ ∃ id node, ids[i]? = some id ∧ s.get? id = some node ∧
      node.link = draft.link ∧ node.parent = draft.parent.bind (ids[·]?)

namespace Spells

theorem nil : s.Spells [] [] where
  length_eq := rfl
  exists_node h := by simp at h

theorem lt_size (h : s.Spells drafts ids) (hid : id ∈ ids) : id.index < s.size := by
  obtain ⟨i, hi⟩ := List.mem_iff_getElem?.mp hid
  have hlt : i < drafts.length := h.length_eq ▸ (List.getElem?_eq_some_iff.mp hi).1
  obtain ⟨-, id', node, hi', hnode, -⟩ := h.exists_node (List.getElem?_eq_getElem hlt)
  obtain rfl : id = id' := by simpa [hi] using hi'
  exact Store.lt_size hnode

/-- A store in which the nodes are the same has the operand as well. -/
theorem of_get? (h : s.Spells drafts ids)
    (hkeep : ∀ id ∈ ids, ∀ node, s.get? id = some node → t.get? id = some node) : t.Spells drafts ids where
  length_eq := h.length_eq
  exists_node hi := by
    obtain ⟨hlt, id, node, hid, hnode, hlink, hparent⟩ := h.exists_node hi
    exact ⟨hlt, id, node, hid, hkeep id (List.mem_of_getElem? hid) node hnode, hlink, hparent⟩

theorem bind_append {parent : Option Nat} (hlt : ∀ p ∈ parent, p < ids.length) :
    parent.bind ((ids ++ [id])[·]?) = parent.bind (ids[·]?) := by
  cases parent with
  | none => rfl
  | some p => exact List.getElem?_append_left (hlt p rfl)

/-- One more draft. -/
theorem snoc (h : s.Spells drafts ids) {draft : Draft Nat} (hnode : s.get? id = some node)
    (hlink : node.link = draft.link) (hlt : ∀ p ∈ draft.parent, p < ids.length)
    (hparent : node.parent = draft.parent.bind (ids[·]?)) :
    s.Spells (drafts ++ [draft]) (ids ++ [id]) where
  length_eq := by rw [List.length_append, List.length_append, h.length_eq]; rfl
  exists_node {i other} hi := by
    rw [List.getElem?_append] at hi
    split at hi
    · rename_i hlen
      obtain ⟨hlt, id', node', hid', hnode', hlink', hparent'⟩ := h.exists_node hi
      rw [← h.length_eq] at hlen
      refine ⟨hlt, id', node', ?_, hnode', hlink', ?_⟩
      · rw [List.getElem?_append_left hlen, hid']
      · rw [hparent', bind_append fun p hp => (hlt p hp).trans hlen]
    · rename_i hlen
      obtain ⟨hi, rfl⟩ : i - drafts.length = 0 ∧ draft = other := by
        simpa [List.getElem?_singleton] using hi
      obtain rfl : i = ids.length := by
        rw [h.length_eq]
        omega
      refine ⟨hlt, id, node, List.getElem?_concat_length, hnode, hlink, ?_⟩
      rw [hparent, bind_append hlt]

/-- One more draft that is stored. -/
theorem create {done : List (Draft Nat)} {draft : Draft Nat} {resolved : Draft NodeId} {ids : Array NodeId}
    (h : s.Spells done ids.toList) (hs : s.WellFormed) (hresolve : draft.resolveParent ids = .ok resolved)
    (hcreate : s.create resolved = .ok (id, t)) : t.Spells (done ++ [draft]) (ids.push id).toList := by
  obtain ⟨hlt, hlink, hparent⟩ := Draft.resolveParent_eq_ok hresolve
  obtain ⟨node, hnode, hnodelink, hnodeparent⟩ := hs.exists_node_of_create hcreate
  have hkept : t.Spells done ids.toList := h.of_get? fun _ _ _ => get?_of_create hcreate
  rw [Array.toList_push]
  exact hkept.snoc hnode (hnodelink.trans hlink) hlt (hnodeparent.trans hparent)

/-- An operand stored after others spells their drafts and its own. -/
theorem internAfter {done more : List (Draft Nat)} {ids : Array NodeId} {out : List NodeId}
    (hs : s.WellFormed) (h : s.Spells done ids.toList) (hout : (s.internAfter ids more).1 = .ok out) :
    (s.internAfter ids more).2.Spells (done ++ more) out := by
  fun_induction Store.internAfter s ids more generalizing done with
  | case1 s ids =>
    obtain rfl : ids.toList = out := Except.ok.inj hout
    rwa [List.append_nil]
  | case2 s ids draft more place hparent => cases hout
  | case3 s ids draft more resolved hparent error hcreate => cases hout
  | case4 s ids draft more resolved hresolve id t hcreate ih =>
    rw [List.append_cons]
    exact ih (hs.create hcreate) (h.create hs hresolve hcreate) hout

end Spells

/-- The operand of the drafts was stored under the ids, and all its nodes were there ever since. -/
inductive Holds : Store → List (Draft Nat) → List NodeId → Prop where
  /-- The operand was stored just now. -/
  | intern {s t : Store} {drafts : List (Draft Nat)} {ids : List NodeId} :
    s.Reachable → s.internOperand drafts = (.ok ids, t) → Holds t drafts ids
  /-- The nodes are still there after one more step. -/
  | step {s t : Store} {drafts : List (Draft Nat)} {ids : List NodeId} :
    Holds s drafts ids → s.Step t → (∀ id ∈ ids, id.index < t.size) → Holds t drafts ids

theorem Holds.spells (h : s.Holds drafts ids) : s.WellFormed ∧ s.Spells drafts ids := by
  induction h with
  | @intern s t drafts ids hs hintern =>
    have ht : t = (s.internOperand drafts).2 := by rw [hintern]
    subst ht
    exact ⟨hs.wellFormed.internAfter _ drafts, Spells.nil.internAfter hs.wellFormed (by
      rw [← internOperand, hintern])⟩
  | step hholds hstep hlive ih =>
    obtain ⟨hs, hspells⟩ := ih
    refine ⟨hstep.wellFormed hs, hspells.of_get? fun id hid node hnode => ?_⟩
    rw [hstep.get?_eq (hspells.lt_size hid) (hlive id hid), hnode]

end Store

end Disassembly.Expression
