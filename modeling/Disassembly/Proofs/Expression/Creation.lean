import Disassembly.Proofs.Expression.Calls

/-!
# What a request for a node does

A request for a single node is refused, answered with the node that is there, or answered with a new one. Which of
these happens is told by the nodes of the store alone (`Reachable.answer_create`): the map from signatures, which
decides it, is in step with them. The node given out is what was asked for, but for symbols of the same hash and for
its flag, which is no part of a signature. All fields of a node are those of the request for which it was appended
(`StemsFrom.exists_node`), so the first of several requests for a node decides about its flag
(`Reachable.node_of_create`).
-/

namespace Disassembly.Expression

open Text

/-- The node is what a draft asks for: it has the fields of the draft, if symbols of the same hash are not told apart
and its flag is not looked at. -/
structure Node.Matches (node : Node) (draft : Draft NodeId) : Prop where
  /-- It stands for the same, -/
  kind_eq : node.kind = draft.kind
  /-- in the same slot, -/
  position_eq : node.position = draft.position
  /-- with the same immediate -/
  immediate_eq : node.immediate = draft.immediate
  /-- and a symbol of the same hash. -/
  symbolHash_eq : Sdbm.hash node.symbol.text = Sdbm.hash draft.symbol
  /-- Its parent is the same. -/
  parent_eq : node.parent = draft.parent

theorem Node.matches_iff {node : Node} {draft : Draft NodeId} :
    node.Matches draft ↔ node.link = draft.link ∧ node.parent = draft.parent := by
  simp only [Node.link, Draft.link, Node.toDraft, Link.mk.injEq]
  constructor
  · intro h
    exact ⟨⟨h.kind_eq, h.position_eq, h.immediate_eq, h.symbolHash_eq⟩, h.parent_eq⟩
  · rintro ⟨⟨hkind, hposition, himmediate, hsymbol⟩, hparent⟩
    exact ⟨hkind, hposition, himmediate, hsymbol, hparent⟩

instance (node : Node) (draft : Draft NodeId) : Decidable (node.Matches draft) :=
  decidable_of_iff _ Node.matches_iff.symm

theorem Draft.lacksSymbol_iff {ρ : Type} {draft : Draft ρ} :
    draft.lacksSymbol = true ↔ draft.symbol = "" ∧ draft.kind.isImmediate = false := by
  simp [lacksSymbol]

namespace Store

variable {s t : Store} {draft : Draft NodeId} {id other : NodeId} {ids : List NodeId} {node : Node} {error : Error}

/-! ### What there is for a draft -/

/-- The draft may be stored: it has the symbol that its kind needs, and its parent is there. -/
structure Admits (s : Store) (draft : Draft NodeId) : Prop where
  /-- Only immediates do without a symbol. -/
  hasSymbol : draft.symbol = "" → draft.kind.isImmediate = true
  /-- The parent, if there is one, is a node of the store. -/
  exists_parent : ∀ parent ∈ draft.parent, ∃ node, s.get? parent = some node

/-- The id is that of a node that the draft asks for. -/
def Has (s : Store) (draft : Draft NodeId) (id : NodeId) : Prop := ∃ node ∈ s.get? id, node.Matches draft

/-- Why a draft is refused. That it lacks a symbol is noticed first. -/
inductive Refuses (s : Store) (draft : Draft NodeId) : Error → Prop where
  /-- It has no symbol and its kind needs one. -/
  | emptySymbol : draft.symbol = "" → draft.kind.isImmediate = false → Refuses s draft (.emptySymbol draft.kind)
  /-- Its parent is not there. -/
  | unknownParent {parent : NodeId} : (draft.symbol = "" → draft.kind.isImmediate = true) →
    parent ∈ draft.parent → s.get? parent = none → Refuses s draft (.unknownParent parent)
  /-- A node would have to be appended, and there is no id for it. -/
  | idSpaceExhausted : s.Admits draft → (∀ id, ¬ s.Has draft id) → capacity ≤ s.size →
    Refuses s draft .idSpaceExhausted

theorem admits_iff : s.Admits draft ↔ s.objection? draft = none := by
  rw [objection?_eq_none_iff, ← Bool.not_eq_true, Draft.lacksSymbol_iff, not_and, Bool.not_eq_false]
  constructor
  · intro h
    refine ⟨h.hasSymbol, fun parent hparent => ?_⟩
    obtain ⟨node, hnode⟩ := h.exists_parent parent hparent
    exact lt_size hnode
  · rintro ⟨hsymbol, hparent⟩
    exact ⟨hsymbol, fun parent hp => exists_get? (hparent parent hp)⟩

instance (s : Store) (draft : Draft NodeId) : Decidable (s.Admits draft) := decidable_of_iff _ admits_iff.symm

instance (s : Store) (draft : Draft NodeId) (id : NodeId) : Decidable (s.Has draft id) :=
  inferInstanceAs (Decidable (∃ node ∈ s.get? id, node.Matches draft))

/-- An objection is a reason to refuse the draft. -/
theorem refuses_of_objection? (h : s.objection? draft = some error) : s.Refuses draft error := by
  unfold objection? at h
  by_cases hlacks : draft.lacksSymbol = true
  · rw [if_pos hlacks] at h
    cases h
    obtain ⟨hsymbol, hkind⟩ := Draft.lacksSymbol_iff.mp hlacks
    exact .emptySymbol hsymbol hkind
  · rw [if_neg hlacks] at h
    rw [Draft.lacksSymbol_iff, not_and, Bool.not_eq_false] at hlacks
    obtain ⟨parent, hparent, hunknown⟩ := Option.bind_eq_some_iff.mp h
    split at hunknown
    · cases hunknown
    · rename_i hlt
      cases hunknown
      exact .unknownParent hlacks hparent (get?_eq_none_iff.mpr (Nat.le_of_not_lt hlt))

namespace WellFormed

/-- The map from signatures knows the nodes that a draft asks for. -/
theorem bySignature_eq_some_iff (h : s.WellFormed) (hadmits : s.Admits draft) :
    s.bySignature[draft.signature]? = some id ↔ s.Has draft id := by
  obtain ⟨-, hparent⟩ := objection?_eq_none_iff.mp (admits_iff.mp hadmits)
  rw [h.known_iff, signature?_eq_some_iff]
  refine exists_congr fun node => and_congr_right fun hnode => ?_
  rw [h.signature_eq_iff hnode hparent, Node.matches_iff]

theorem bySignature_eq_none_iff (h : s.WellFormed) (hadmits : s.Admits draft) :
    s.bySignature[draft.signature]? = none ↔ ∀ id, ¬ s.Has draft id := by
  simp only [Option.eq_none_iff_forall_ne_some, ne_eq, h.bySignature_eq_some_iff hadmits]

/-- There is one such node at most. -/
theorem has_inj (h : s.WellFormed) (hid : s.Has draft id) (hother : s.Has draft other) : other = id := by
  obtain ⟨node, hnode, hmatches⟩ := hid
  obtain ⟨node', hnode', hmatches'⟩ := hother
  obtain ⟨hlink, hparent⟩ := Node.matches_iff.mp hmatches
  obtain ⟨hlink', hparent'⟩ := Node.matches_iff.mp hmatches'
  exact h.eq_of_link_eq hnode' hnode (hlink'.trans hlink.symm) (hparent'.trans hparent.symm)

/-! ### The three answers -/

theorem create_of_has (h : s.WellFormed) (hadmits : s.Admits draft) (hid : s.Has draft id) :
    s.create draft =
      .ok (id, { s with stats := { s.stats with deduplicated := s.stats.deduplicated + 1 } }) := by
  rw [Store.create, admits_iff.mp hadmits]
  simp only [(h.bySignature_eq_some_iff hadmits).mpr hid]

theorem create_of_not_has (h : s.WellFormed) (hadmits : s.Admits draft) (hnew : ∀ id, ¬ s.Has draft id) :
    s.create draft = if s.size < capacity then .ok (s.append draft) else .error .idSpaceExhausted := by
  rw [Store.create, admits_iff.mp hadmits]
  simp only [(h.bySignature_eq_none_iff hadmits).mpr hnew]

theorem create_of_refuses (h : s.WellFormed) (hrefuses : s.Refuses draft error) :
    s.create draft = .error error := by
  cases hrefuses with
  | emptySymbol hsymbol hkind =>
    have hlacks : draft.lacksSymbol = true := Draft.lacksSymbol_iff.mpr ⟨hsymbol, hkind⟩
    rw [Store.create, objection?, if_pos hlacks]
  | unknownParent hsymbol hparent hunknown =>
    have hlacks : ¬ draft.lacksSymbol = true := by
      rwa [Draft.lacksSymbol_iff, not_and, Bool.not_eq_false]
    have hlt := Nat.not_lt.mpr (get?_eq_none_iff.mp hunknown)
    rw [Store.create, objection?, if_neg hlacks, Option.mem_def.mp hparent, Option.bind_some, if_neg hlt]
  | idSpaceExhausted hadmits hnew hfull =>
    rw [h.create_of_not_has hadmits hnew, if_neg (Nat.not_lt.mpr hfull)]

theorem create_eq_error_iff (h : s.WellFormed) : s.create draft = .error error ↔ s.Refuses draft error := by
  refine ⟨fun herror => ?_, h.create_of_refuses⟩
  cases hobjection : s.objection? draft with
  | some cause =>
    rw [h.create_of_refuses (refuses_of_objection? hobjection)] at herror
    cases herror
    exact refuses_of_objection? hobjection
  | none =>
    have hadmits := admits_iff.mpr hobjection
    by_cases hknown : ∃ id, s.Has draft id
    · obtain ⟨id, hid⟩ := hknown
      rw [h.create_of_has hadmits hid] at herror
      cases herror
    · have hnew := not_exists.mp hknown
      rw [h.create_of_not_has hadmits hnew] at herror
      split at herror
      · cases herror
      · rename_i hlt
        cases herror
        exact .idSpaceExhausted hadmits hnew (Nat.le_of_not_lt hlt)

end WellFormed

theorem answer_create_eq_error_iff :
    s.answer (.create draft) = (.created (.error error), t) ↔ s.create draft = .error error ∧ t = s := by
  cases hcreate : s.create draft with
  | error cause =>
    rw [answer_create_of_error hcreate]
    simp [eq_comm]
  | ok answered =>
    rw [answer_create_of_ok hcreate]
    simp

/-- A request for a node fails exactly if the draft has to be refused, and then nothing changes. Otherwise it is
answered with the only node that the draft asks for, if there is one, which is counted. If there is none and an id is
left, it is answered with a new node, which comes last, has all fields of the draft, and is counted. -/
theorem Reachable.answer_create (hs : s.Reachable) (draft : Draft NodeId) :
    (∀ error t, s.answer (.create draft) = (.created (.error error), t) ↔ s.Refuses draft error ∧ t = s) ∧
      (s.Admits draft → ∀ id, s.Has draft id →
        (∀ other, s.Has draft other → other = id) ∧
          s.answer (.create draft) = (.created (.ok id),
            { s with stats := { s.stats with deduplicated := s.stats.deduplicated + 1 } })) ∧
      (s.Admits draft → (∀ id, ¬ s.Has draft id) → s.size < capacity →
        ∃ node t, s.answer (.create draft) = (.created (.ok node.id), t) ∧
          node.id.number = s.size + 1 ∧ node.toDraft = draft ∧ t.nodes = s.nodes.push node ∧
            t.stats = { s.stats with created := s.stats.created + 1 }) := by
  have h := hs.wellFormed
  refine ⟨fun error t => ?_, fun hadmits id hid => ⟨fun other hother => h.has_inj hid hother, ?_⟩,
    fun hadmits hnew hroom => ?_⟩
  · rw [answer_create_eq_error_iff, h.create_eq_error_iff]
  · exact answer_create_of_ok (h.create_of_has hadmits hid)
  · have hcreate := h.create_of_not_has hadmits hnew
    rw [if_pos hroom] at hcreate
    exact ⟨.ofDraft ⟨s.size⟩ (s.symbols.intern draft.symbol).1 draft, (s.append draft).2,
      answer_create_of_ok hcreate, rfl, Node.toDraft_ofDraft _ _ _ (Pool.text_intern _ _), rfl, rfl⟩

/-- The base register of the memory access, under its parent. -/
def base : Draft NodeId := { kind := .register, symbol := "esp", parent := some ⟨1⟩ }

/-- The register is known where it belongs, and is new elsewhere. -/
theorem answer_create_base :
    accessed.answer (.create base) =
        (.created (.ok ⟨2⟩), { accessed with stats := ⟨3, 1⟩ }) ∧
      (∃ node t, accessed.answer (.create { base with parent := none }) = (.created (.ok node.id), t) ∧
        node.id.number = 4 ∧ t.nodes = accessed.nodes.push node) ∧
      accessed.answer (.create { base with parent := some ⟨3⟩ }) =
        (.created (.error (.unknownParent ⟨3⟩)), accessed) ∧
      accessed.answer (.create { base with symbol := "", parent := some ⟨3⟩ }) =
        (.created (.error (.emptySymbol .register)), accessed) := by
  have hanswer := reachable_accessed.answer_create
  refine ⟨?_, ?_, ?_, ?_⟩
  · obtain ⟨-, hknown, -⟩ := hanswer base
    exact (hknown (by decide +kernel) ⟨2⟩ (by decide +kernel)).2
  · obtain ⟨-, -, hnew⟩ := hanswer { base with parent := none }
    have hadmits : accessed.Admits { base with parent := none } := by decide +kernel
    have hnone : ∀ id, ¬ accessed.Has { base with parent := none } id :=
      (reachable_accessed.wellFormed.bySignature_eq_none_iff hadmits).mp (by decide +kernel)
    obtain ⟨node, t, hreply, hnumber, -, hnodes, -⟩ := hnew hadmits hnone (by decide +kernel)
    exact ⟨node, t, hreply, hnumber, hnodes⟩
  · obtain ⟨herror, -, -⟩ := hanswer { base with parent := some ⟨3⟩ }
    exact (herror _ _).mpr ⟨.unknownParent (by decide) rfl (by decide +kernel), rfl⟩
  · obtain ⟨herror, -, -⟩ := hanswer { base with symbol := "", parent := some ⟨3⟩ }
    exact (herror _ _).mpr ⟨.emptySymbol rfl rfl, rfl⟩

/-! ### The request for which a node was appended -/

/-- The node of the id was appended for the draft, and was there ever since. -/
inductive StemsFrom : Store → NodeId → Draft NodeId → Prop where
  /-- The node was appended just now. -/
  | create {s t : Store} {draft : Draft NodeId} {id : NodeId} :
    s.Reachable → s.get? id = none → s.create draft = .ok (id, t) → StemsFrom t id draft
  /-- The node is still there after one more step. -/
  | step {s t : Store} {draft : Draft NodeId} {id : NodeId} :
    StemsFrom s id draft → s.Step t → id.index < t.size → StemsFrom t id draft

/-- After a request for a node there are the nodes that there were, and the new one. -/
theorem get?_create_cases (hcreate : s.create draft = .ok (id, t)) (hnode : t.get? other = some node) :
    s.get? other = some node ∨ s.get? other = none ∧ other = id ∧ node.toDraft = draft := by
  obtain ⟨-, -, ⟨-, rfl⟩ | ⟨-, -, happend⟩⟩ := create_cases hcreate
  · exact .inl hnode
  · obtain rfl : t = (s.append draft).2 := congrArg Prod.snd happend
    obtain rfl : id = ⟨s.size⟩ := congrArg Prod.fst happend
    obtain hold | ⟨rfl, rfl⟩ := get?_append_cases hnode
    · exact .inl hold
    · exact .inr ⟨get?_eq_none_iff.mpr le_rfl, rfl, Node.toDraft_ofDraft _ _ _ (Pool.text_intern _ _)⟩

/-- A node has all fields of the draft for which it was appended. -/
theorem StemsFrom.exists_node (h : s.StemsFrom id draft) :
    ∃ node, s.get? id = some node ∧ node.toDraft = draft := by
  induction h with
  | @create s t draft id hs hnew hcreate =>
    obtain ⟨node, hnode, -⟩ := hs.wellFormed.exists_node_of_create hcreate
    obtain hold | ⟨-, -, hdraft⟩ := get?_create_cases hcreate hnode
    · rw [hnew] at hold
      cases hold
    · exact ⟨node, hnode, hdraft⟩
  | step _ hstep hlive ih =>
    obtain ⟨node, hnode, hdraft⟩ := ih
    exact ⟨node, (hstep.get?_eq (lt_size hnode) hlive).trans hnode, hdraft⟩

/-- Every node was appended for some draft, the one that has its fields. -/
def Traced (s : Store) : Prop := ∀ id node, s.get? id = some node → s.StemsFrom id node.toDraft

theorem traced_empty : ({} : Store).Traced := by
  intro id node hnode
  cases lt_size hnode

theorem Traced.create (h : s.Traced) (hs : s.Reachable) (hcreate : s.create draft = .ok (id, t)) : t.Traced := by
  intro other node hnode
  obtain hold | ⟨hnew, rfl, rfl⟩ := get?_create_cases hcreate hnode
  · exact (h other node hold).step (.create hcreate) (lt_size hnode)
  · exact .create hs hnew hcreate

theorem Answered.traced (h : s.Answered ids t) (hs : s.Reachable) (htraced : s.Traced) : t.Traced := by
  induction h with
  | nil s => exact htraced
  | cons hcreate _ ih => exact ih (hs.step (.create hcreate)) (htraced.create hs hcreate)

theorem Step.traced (hstep : s.Step t) (hs : s.Reachable) (h : s.Traced) : t.Traced := by
  cases hstep with
  | create hcreate => exact h.create hs hcreate
  | internOperand s drafts =>
    obtain ⟨ids, hanswered, -⟩ := s.exists_answered_internAfter #[] drafts
    exact hanswered.traced hs h
  | clear s => exact traced_empty
  | rollback s hu =>
    intro id node hnode
    obtain ⟨-, hold⟩ := get?_rollback_eq_some_iff.mp hnode
    exact (h id node hold).step (.rollback s hu) (lt_size hnode)

theorem Reachable.traced (h : s.Reachable) : s.Traced :=
  h.induct traced_empty fun hs hstep htraced => hstep.traced hs htraced

/-- The node of the id that is given out is what was asked for, but for symbols of the same hash and for its flag. The
flag is that of the request for which the node was appended, which is the present one if the id is new. -/
theorem Reachable.node_of_create (hs : s.Reachable) (hcreate : s.create draft = .ok (id, t)) :
    ∃ node, t.get? id = some node ∧ node.Matches draft ∧
      (∀ first, t.StemsFrom id first ↔ first = node.toDraft) ∧
        (s.get? id = none → node.relocatable = draft.relocatable) := by
  obtain ⟨node, hnode, hlink, hparent⟩ := hs.wellFormed.exists_node_of_create hcreate
  refine ⟨node, hnode, Node.matches_iff.mpr ⟨hlink, hparent⟩, fun first => ⟨fun hfirst => ?_, ?_⟩, fun hnew => ?_⟩
  · obtain ⟨node', hnode', rfl⟩ := hfirst.exists_node
    rw [hnode, Option.some.injEq] at hnode'
    rw [hnode']
  · rintro rfl
    exact (hs.step (.create hcreate)).traced id node hnode
  · obtain hold | ⟨-, -, rfl⟩ := get?_create_cases hcreate hnode
    · rw [hnew] at hold
      cases hold
    · rfl

/-- A store with the memory access and a constant. -/
def withConstant : Store := accessed.after [.create (.immediateInt 0x1000)]

/-- The constant again, as an address that moves with the program. -/
def movable : Draft NodeId := { Draft.immediateInt 0x1000 with relocatable := true }

theorem reachable_withConstant : withConstant.Reachable :=
  (keeps_after (n := 0) (by simp [Call.Keeps]) reachable_accessed (Nat.zero_le _)).1

theorem create_movable : withConstant.create movable = .ok (⟨3⟩, (withConstant.answer (.create movable)).2) :=
  create_eq_ok_of_answer (by decide +kernel)

/-- The flag is that of the request that came first. -/
theorem node_of_create_movable :
    ∃ node t, withConstant.create movable = .ok (⟨3⟩, t) ∧ t.get? ⟨3⟩ = some node ∧ node.Matches movable ∧
      node.relocatable = false ∧ t.StemsFrom ⟨3⟩ (.immediateInt 0x1000) := by
  obtain ⟨node, hnode, hmatches, hstems, -⟩ := reachable_withConstant.node_of_create create_movable
  have hdraft : ((withConstant.answer (.create movable)).2.get? ⟨3⟩).map Node.toDraft =
      some (.immediateInt 0x1000) := by decide +kernel
  rw [hnode, Option.map_some, Option.some.injEq] at hdraft
  exact ⟨node, _, create_movable, hnode, hmatches, congrArg Draft.relocatable hdraft, (hstems _).mpr hdraft.symm⟩

/-- The node that is given out need not have the flag that was asked for. -/
theorem node_not_of_create :
    ¬ ∀ (s t : Store) (draft : Draft NodeId) (id : NodeId), s.Reachable → s.create draft = .ok (id, t) →
      ∃ node, t.get? id = some node ∧ node.Matches draft ∧ node.relocatable = draft.relocatable := by
  intro h
  obtain ⟨node, hnode, -, hflag⟩ := h _ _ _ _ reachable_withConstant create_movable
  have hfirst : ((withConstant.answer (.create movable)).2.get? ⟨3⟩).map Node.relocatable = some false := by
    decide +kernel
  rw [hnode, Option.map_some, hflag] at hfirst
  cases hfirst

end Store

end Disassembly.Expression
