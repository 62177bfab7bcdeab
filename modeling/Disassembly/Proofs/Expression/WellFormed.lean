import Disassembly.Expression.Store
import Disassembly.Proofs.Expression.Signature
import Disassembly.Proofs.Text.Pool

/-!
# Well-formed stores

What holds of the parts of a store between any two requests: ids are places, parents come before their
children, every node has the symbol that its kind needs, the map from signatures leads to exactly the nodes,
the pool holds exactly their symbols, and the statistics count them (`WellFormed`). Every operation of a store
keeps this up, a roll-back provided that its mark counts as many nodes as its statistics do.
-/

namespace Disassembly.Expression.Store

open Disassembly.Text

variable {s t : Store} {draft : Draft NodeId} {drafts : List (Draft Nat)} {id : NodeId} {node : Node}
  {mark : Checkpoint}

/-- The parts of the store are in step with its nodes. -/
structure WellFormed (s : Store) : Prop where
  /-- There are ids for all nodes. -/
  size_le : s.size ≤ capacity
  /-- A node is stored at the place that its id names. -/
  id_eq {id : NodeId} {node : Node} : s.get? id = some node → node.id = id
  /-- Parents come before their children. -/
  parent_lt {id : NodeId} {node : Node} :
    s.get? id = some node → ∀ parent ∈ node.parent, parent.index < id.index
  /-- Nodes have the symbols that their kinds need. -/
  symbol_ne {id : NodeId} {node : Node} : s.get? id = some node → node.toDraft.lacksSymbol = false
  /-- The map leads from the signatures of the nodes to their ids. -/
  known_iff {sig : Signature} {id : NodeId} :
    s.bySignature[sig]? = some id ↔ s.signature? id = some sig
  /-- The pool holds the symbols of the nodes, and their handles point into it. -/
  slot_iff {text : String} {slot : Nat} :
    s.symbols.slots[text]? = some slot ↔ ∃ id node, s.get? id = some node ∧ node.symbol = ⟨text, slot⟩
  /-- The nodes are counted. -/
  created_eq : s.stats.created = s.size

/-! ### Nodes and their places -/

theorem lt_size (h : s.get? id = some node) : id.index < s.size :=
  (Array.getElem?_eq_some_iff.mp h).1

theorem exists_get? (h : id.index < s.size) : ∃ node, s.get? id = some node :=
  ⟨_, Array.getElem?_eq_getElem h⟩

theorem get?_eq_none_iff : s.get? id = none ↔ s.size ≤ id.index := Array.getElem?_eq_none_iff

theorem mem_nodes_iff : node ∈ s.nodes ↔ ∃ id, s.get? id = some node := by
  rw [Array.mem_iff_getElem?]
  exact ⟨fun ⟨i, h⟩ => ⟨⟨i⟩, h⟩, fun ⟨id, h⟩ => ⟨id.index, h⟩⟩

theorem signature?_eq_some_iff {sig : Signature} :
    s.signature? id = some sig ↔ ∃ node, s.get? id = some node ∧ node.signature = sig :=
  Option.map_eq_some_iff

/-- Nodes of the same signature are the same. -/
theorem WellFormed.signature?_inj (h : s.WellFormed) {a b : NodeId} {sig : Signature}
    (ha : s.signature? a = some sig) (hb : s.signature? b = some sig) : a = b := by
  have ha := h.known_iff.mpr ha
  rw [h.known_iff.mpr hb, Option.some.injEq] at ha
  exact ha.symm

/-- The ids that a well-formed store gives out fit in 32 bits. -/
theorem WellFormed.number_lt (h : s.WellFormed) (hid : id.index < s.size) : id.number < UInt32.size := by
  have := h.size_le
  simp only [capacity, UInt32.size, NodeId.number] at *
  omega

theorem WellFormed.parent_lt_size (h : s.WellFormed) (hnode : s.get? id = some node) {parent : NodeId}
    (hparent : parent ∈ node.parent) : parent.index < s.size :=
  (h.parent_lt hnode parent hparent).trans (lt_size hnode)

/-- A node has the signature of a draft exactly if it says the same of itself and has the same parent. -/
theorem WellFormed.signature_eq_iff (h : s.WellFormed) (hnode : s.get? id = some node)
    (hparent : ∀ parent ∈ draft.parent, parent.index < s.size) :
    node.signature = draft.signature ↔ node.link = draft.link ∧ node.parent = draft.parent :=
  Draft.signature_inj (fun _ hp => h.number_lt (h.parent_lt_size hnode hp))
    fun parent hp => h.number_lt (hparent parent hp)

/-- Nodes are told apart by what they say of themselves and by their parents. -/
theorem WellFormed.eq_of_link_eq (h : s.WellFormed) {a b : NodeId} {m n : Node} (hm : s.get? a = some m)
    (hn : s.get? b = some n) (hlink : m.link = n.link) (hparent : m.parent = n.parent) : a = b := by
  have hsig : m.signature = n.toDraft.signature :=
    (h.signature_eq_iff hm fun _ hp => h.parent_lt_size hn hp).mpr ⟨hlink, hparent⟩
  exact h.signature?_inj (signature?_eq_some_iff.mpr ⟨m, hm, rfl⟩)
    (signature?_eq_some_iff.mpr ⟨n, hn, hsig.symm⟩)

/-! ### Requests -/

theorem objection?_eq_none_iff :
    s.objection? draft = none ↔
      draft.lacksSymbol = false ∧ ∀ parent ∈ draft.parent, parent.index < s.size := by
  unfold objection?
  cases draft.lacksSymbol with
  | true => simp
  | false => simp

/-- A draft is stored in one of two ways: its node is there, or it is appended. -/
theorem create_cases (h : s.create draft = .ok (id, t)) :
    draft.lacksSymbol = false ∧ (∀ parent ∈ draft.parent, parent.index < s.size) ∧
      ((s.bySignature[draft.signature]? = some id ∧
          t = { s with stats := { s.stats with deduplicated := s.stats.deduplicated + 1 } }) ∨
        (s.bySignature[draft.signature]? = none ∧ s.size < capacity ∧ (id, t) = s.append draft)) := by
  unfold create at h
  cases hobjection : s.objection? draft with
  | some error =>
    rw [hobjection] at h
    cases h
  | none =>
    obtain ⟨hsymbol, hparent⟩ := objection?_eq_none_iff.mp hobjection
    refine ⟨hsymbol, hparent, ?_⟩
    rw [hobjection] at h
    cases hknown : s.bySignature[draft.signature]? with
    | some known =>
      simp only [hknown] at h
      cases h
      exact .inl ⟨rfl, rfl⟩
    | none =>
      simp only [hknown] at h
      by_cases hsize : s.size < capacity
      · rw [if_pos hsize] at h
        cases h
        exact .inr ⟨rfl, hsize, rfl⟩
      · rw [if_neg hsize] at h
        cases h

/-! ### Appending -/

theorem get?_append_of_get? (h : s.get? id = some node) : (s.append draft).2.get? id = some node := by
  rw [get?_append, if_neg (lt_size h).ne, h]

theorem get?_append_self :
    (s.append draft).2.get? ⟨s.size⟩ =
      some (.ofDraft ⟨s.size⟩ (s.symbols.intern draft.symbol).1 draft) := by
  rw [get?_append, if_pos rfl]

theorem get?_append_cases (h : (s.append draft).2.get? id = some node) :
    s.get? id = some node ∨
      id = ⟨s.size⟩ ∧ node = .ofDraft id (s.symbols.intern draft.symbol).1 draft := by
  rw [get?_append] at h
  split at h
  · rename_i hid
    obtain ⟨index⟩ := id
    cases hid
    exact .inr ⟨rfl, (Option.some.inj h).symm⟩
  · exact .inl h

theorem signature?_append :
    (s.append draft).2.signature? id =
      if id.index = s.size then some draft.signature else s.signature? id := by
  rw [signature?, get?_append]
  split
  · rw [Option.map_some, Node.signature, Node.toDraft_ofDraft _ _ _ (Pool.text_intern _ _)]
  · rfl

theorem bySignature_append (sig : Signature) :
    (s.append draft).2.bySignature[sig]? =
      if draft.signature = sig then some ⟨s.size⟩ else s.bySignature[sig]? := by
  simp [append, Std.ExtTreeMap.getElem?_insert]

theorem WellFormed.append (h : s.WellFormed) (hsize : s.size < capacity)
    (hsymbol : draft.lacksSymbol = false) (hparent : ∀ parent ∈ draft.parent, parent.index < s.size)
    (hnew : s.bySignature[draft.signature]? = none) : (s.append draft).2.WellFormed where
  size_le := by
    rw [size_append]
    exact hsize
  id_eq hnode := by
    obtain hnode | ⟨-, rfl⟩ := get?_append_cases hnode
    · exact h.id_eq hnode
    · rfl
  parent_lt hnode := by
    obtain hnode | ⟨rfl, rfl⟩ := get?_append_cases hnode
    · exact h.parent_lt hnode
    · exact hparent
  symbol_ne hnode := by
    obtain hnode | ⟨-, rfl⟩ := get?_append_cases hnode
    · exact h.symbol_ne hnode
    · rw [Node.toDraft_ofDraft _ _ _ (Pool.text_intern _ _)]
      exact hsymbol
  known_iff {sig id} := by
    rw [bySignature_append, signature?_append]
    by_cases hsig : draft.signature = sig
    · subst hsig
      have hold : s.signature? id ≠ some draft.signature := fun hid => by
        rw [h.known_iff.mpr hid] at hnew
        cases hnew
      obtain ⟨index⟩ := id
      by_cases hid : index = s.size
      · simp [hid]
      · simp [hid, hold, Ne.symm hid]
    · rw [if_neg hsig, h.known_iff]
      split
      · rename_i hid
        have hfresh : s.signature? id = none := by
          rw [signature?, get?, hid]
          simp [size]
        simp [hfresh, hsig]
      · rfl
  slot_iff {text slot} := by
    refine Pool.slots_intern_iff.trans ?_
    rw [h.slot_iff]
    constructor
    · rintro (hsym | ⟨id, node, hnode, hsym⟩)
      · exact ⟨_, _, get?_append_self, hsym.symm⟩
      · exact ⟨id, node, get?_append_of_get? hnode, hsym⟩
    · rintro ⟨id, node, hnode, hsym⟩
      obtain hnode | ⟨-, rfl⟩ := get?_append_cases hnode
      · exact .inr ⟨id, node, hnode, hsym⟩
      · exact .inl hsym.symm
  created_eq := by
    rw [size_append, ← h.created_eq]
    rfl

theorem WellFormed.deduplicate (h : s.WellFormed) (n : Nat) :
    WellFormed { s with stats := { s.stats with deduplicated := n } } where
  size_le := h.size_le
  id_eq := h.id_eq
  parent_lt := h.parent_lt
  symbol_ne := h.symbol_ne
  known_iff := h.known_iff
  slot_iff := h.slot_iff
  created_eq := h.created_eq

theorem WellFormed.create (h : s.WellFormed) (hcreate : s.create draft = .ok (id, t)) : t.WellFormed := by
  obtain ⟨hsymbol, hparent, ⟨-, rfl⟩ | ⟨hnew, hsize, happend⟩⟩ := create_cases hcreate
  · exact h.deduplicate _
  · obtain rfl : t = (s.append draft).2 := congrArg Prod.snd happend
    exact h.append hsize hsymbol hparent hnew

theorem WellFormed.internAfter (h : s.WellFormed) (ids : Array NodeId) (drafts : List (Draft Nat)) :
    (s.internAfter ids drafts).2.WellFormed := by
  fun_induction Store.internAfter s ids drafts with
  | case1 s ids => exact h
  | case2 s ids draft drafts place hparent => exact h
  | case3 s ids draft drafts resolved hparent error hcreate => exact h
  | case4 s ids draft drafts resolved hparent id t hcreate ih => exact ih (h.create hcreate)

theorem get?_of_create (h : s.create draft = .ok (id, t)) {other : NodeId}
    (hnode : s.get? other = some node) : t.get? other = some node := by
  obtain ⟨-, -, ⟨-, rfl⟩ | ⟨-, -, happend⟩⟩ := create_cases h
  · exact hnode
  · obtain rfl : t = (s.append draft).2 := congrArg Prod.snd happend
    exact get?_append_of_get? hnode

/-- The id given out for a draft is that of a node that says the same of itself and has the same parent. -/
theorem WellFormed.exists_node_of_create (h : s.WellFormed) (hcreate : s.create draft = .ok (id, t)) :
    ∃ node, t.get? id = some node ∧ node.link = draft.link ∧ node.parent = draft.parent := by
  obtain ⟨-, hparent, ⟨hknown, rfl⟩ | ⟨-, -, happend⟩⟩ := create_cases hcreate
  · obtain ⟨node, hnode, hsig⟩ := signature?_eq_some_iff.mp (h.known_iff.mp hknown)
    exact ⟨node, hnode, (h.signature_eq_iff hnode hparent).mp hsig⟩
  · obtain rfl : t = (s.append draft).2 := congrArg Prod.snd happend
    obtain rfl : id = ⟨s.size⟩ := congrArg Prod.fst happend
    refine ⟨_, get?_append_self, ?_, rfl⟩
    rw [Node.link, Node.toDraft_ofDraft _ _ _ (Pool.text_intern _ _)]

theorem get?_internAfter {ids : Array NodeId} (hnode : s.get? id = some node) :
    (s.internAfter ids drafts).2.get? id = some node := by
  fun_induction Store.internAfter s ids drafts with
  | case1 s ids => exact hnode
  | case2 s ids draft drafts place hparent => exact hnode
  | case3 s ids draft drafts resolved hparent error hcreate => exact hnode
  | case4 s ids draft drafts resolved hparent next t hcreate ih => exact ih (get?_of_create hcreate hnode)

/-! ### Forgetting -/

theorem wellFormed_empty : ({} : Store).WellFormed where
  size_le := Nat.zero_le _
  id_eq hnode := by cases lt_size hnode
  parent_lt hnode := by cases lt_size hnode
  symbol_ne hnode := by cases lt_size hnode
  known_iff := by simp [signature?, get?]
  slot_iff := by simp [get?]
  created_eq := rfl

theorem get?_rollback_eq_some_iff :
    (s.rollback mark).get? id = some node ↔ id.index < mark.size ∧ s.get? id = some node := by
  unfold rollback
  split
  · rename_i hle
    exact ⟨fun h => ⟨(lt_size h).trans_le hle, h⟩, And.right⟩
  · simp only [get?, Array.take_eq_extract, Array.getElem?_extract, Nat.zero_add, Nat.sub_zero]
    constructor
    · intro h
      split at h
      · exact ⟨by omega, h⟩
      · cases h
    · rintro ⟨hlt, hnode⟩
      have := lt_size hnode
      rw [if_pos (by unfold size at this; omega), hnode]

theorem size_rollback : (s.rollback mark).size = min s.size mark.size := by
  unfold rollback
  split
  · omega
  · simp only [size, Array.take_eq_extract, Array.size_extract]
    omega

/-- Erasing keys one after the other erases them all. -/
theorem getElem?_foldl_erase_eq_some_iff {known : Std.ExtTreeMap Signature NodeId} {dropped : List Node}
    {sig : Signature} :
    (dropped.foldl (fun known node => known.erase node.signature) known)[sig]? = some id ↔
      known[sig]? = some id ∧ ∀ node ∈ dropped, node.signature ≠ sig := by
  induction dropped generalizing known with
  | nil => simp
  | cons node dropped ih =>
    rw [List.foldl_cons, ih, Std.ExtTreeMap.getElem?_erase, List.forall_mem_cons]
    by_cases hsig : node.signature = sig
    · simp [hsig]
    · simp [hsig]

theorem mem_drop_iff {n : Nat} :
    node ∈ s.nodes.toList.drop n ↔ ∃ id, n ≤ id.index ∧ s.get? id = some node := by
  rw [List.mem_iff_getElem?]
  constructor
  · rintro ⟨i, hi⟩
    exact ⟨⟨n + i⟩, Nat.le_add_right n i, by simpa [get?] using hi⟩
  · rintro ⟨⟨index⟩, hle, hnode⟩
    refine ⟨index - n, ?_⟩
    rw [List.getElem?_drop, Nat.add_sub_cancel' hle, Array.getElem?_toList]
    exact hnode

theorem bySignature_rollback_eq_some_iff (hlt : mark.size < s.size) {sig : Signature} :
    (s.rollback mark).bySignature[sig]? = some id ↔
      s.bySignature[sig]? = some id ∧
        ∀ id', mark.size ≤ id'.index → s.signature? id' ≠ some sig := by
  rw [rollback, if_neg (by omega), getElem?_foldl_erase_eq_some_iff]
  refine and_congr_right fun _ => ?_
  constructor
  · intro hdropped id' hle hsig
    obtain ⟨node, hnode, rfl⟩ := signature?_eq_some_iff.mp hsig
    exact hdropped node (mem_drop_iff.mpr ⟨id', hle, hnode⟩) rfl
  · intro hdropped node hmem hsig
    obtain ⟨id', hle, hnode⟩ := mem_drop_iff.mp hmem
    exact hdropped id' hle (signature?_eq_some_iff.mpr ⟨node, hnode, hsig⟩)

theorem slots_rollback_eq_some_iff (hlt : mark.size < s.size) {text : String} {slot : Nat} :
    (s.rollback mark).symbols.slots[text]? = some slot ↔
      s.symbols.slots[text]? = some slot ∧
        ∃ id node, (s.rollback mark).get? id = some node ∧ node.symbol = ⟨text, slot⟩ := by
  have hheld : (⟨text, slot⟩ : Handle) ∈ (s.rollback mark).nodes.toList.map Node.symbol ↔
      ∃ id node, (s.rollback mark).get? id = some node ∧ node.symbol = ⟨text, slot⟩ := by
    rw [List.mem_map]
    constructor
    · rintro ⟨node, hmem, hsym⟩
      obtain ⟨id, hnode⟩ := mem_nodes_iff.mp (Array.mem_toList_iff.mp hmem)
      exact ⟨id, node, hnode, hsym⟩
    · rintro ⟨id, node, hnode, hsym⟩
      exact ⟨node, Array.mem_toList_iff.mpr (mem_nodes_iff.mpr ⟨id, hnode⟩), hsym⟩
  rw [← hheld, rollback, if_neg (by omega)]
  exact Pool.slots_release

theorem WellFormed.rollback (h : s.WellFormed) (hmark : mark.stats.created = mark.size) :
    (s.rollback mark).WellFormed := by
  by_cases hle : s.size ≤ mark.size
  · rwa [Store.rollback, if_pos hle]
  have hlt : mark.size < s.size := by omega
  exact {
    size_le := by
      rw [size_rollback]
      exact (Nat.min_le_left _ _).trans h.size_le
    id_eq := fun hnode => h.id_eq (get?_rollback_eq_some_iff.mp hnode).2
    parent_lt := fun hnode => h.parent_lt (get?_rollback_eq_some_iff.mp hnode).2
    symbol_ne := fun hnode => h.symbol_ne (get?_rollback_eq_some_iff.mp hnode).2
    known_iff := by
      intro sig id
      rw [bySignature_rollback_eq_some_iff hlt, h.known_iff]
      constructor
      · rintro ⟨hsig, hdropped⟩
        obtain ⟨node, hnode, hnodesig⟩ := signature?_eq_some_iff.mp hsig
        have hid : id.index < mark.size := not_le.mp fun hle => hdropped id hle hsig
        exact signature?_eq_some_iff.mpr ⟨node, get?_rollback_eq_some_iff.mpr ⟨hid, hnode⟩, hnodesig⟩
      · intro hsig
        obtain ⟨node, hnode, hnodesig⟩ := signature?_eq_some_iff.mp hsig
        obtain ⟨hid, hnode⟩ := get?_rollback_eq_some_iff.mp hnode
        have hsig := signature?_eq_some_iff.mpr ⟨node, hnode, hnodesig⟩
        refine ⟨hsig, fun id' hle hsig' => ?_⟩
        obtain rfl := h.signature?_inj hsig hsig'
        omega
    slot_iff := by
      intro text slot
      rw [slots_rollback_eq_some_iff hlt, h.slot_iff, and_iff_right_iff_imp]
      rintro ⟨id, node, hnode, hsym⟩
      exact ⟨id, node, (get?_rollback_eq_some_iff.mp hnode).2, hsym⟩
    created_eq := by
      rw [size_rollback, min_eq_right hlt.le, ← hmark, Store.rollback, if_neg hle] }

end Disassembly.Expression.Store
