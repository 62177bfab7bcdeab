import Disassembly.Attribution
import Disassembly.Proofs.Expression.Creation

/-!
# Where references are attributed

What the rules of attribution say of an instruction, told by the places of its nodes and not by a search
(`Instruction.Attributes`). Every rule takes the first of the nodes that it is about, in reading order. The list that
is searched has the nodes in this order (`Instruction.pairwise_placedNodes`), so that what the search finds is what the
rules say (`Instruction.locate?_eq_iff`). The target matters to the first rule only
(`Instruction.locate?_rules`).
-/

namespace Disassembly

open Disassembly.Expression

/-! ### Reading order -/

namespace Position

/-- The one place comes before the other in reading order: in an earlier operand, or earlier in the same one. -/
def Precedes (p q : Position) : Prop := p.operand < q.operand ∨ p.operand = q.operand ∧ p.expression < q.expression

/-- Of two places one precedes the other. -/
theorem eq_of_not_precedes {p q : Position} (hpq : ¬ p.Precedes q) (hqp : ¬ q.Precedes p) : p = q := by
  obtain ⟨m, a⟩ := p
  obtain ⟨n, b⟩ := q
  simp only [Precedes, mk.injEq] at *
  omega

theorem Precedes.not_precedes {p q : Position} (h : p.Precedes q) : ¬ q.Precedes p := by
  unfold Precedes at *
  omega

end Position

/-! ### What the rules look for -/

/-- The node is an immediate that has the bits of the target. -/
def Expression.Node.Hits (node : Node) (target : Address) : Prop :=
  node.isImmediate = true ∧ node.immediate.toUInt64 = target

/-- The node stands directly under a memory access that the store knows. -/
def Expression.Store.Under (store : Store) (node : Node) : Prop :=
  ∃ parent ∈ node.parent, ∃ above, store.get? parent = some above ∧ above.kind = .dereference

namespace Instruction

variable {i : Instruction} {store : Store} {target other : Address} {position : Position} {node node' : Node}
  {P : Node → Prop} {found : Option Position}

/-- At this place of the instruction there is an id, and it is that of the node. There is no node where the store does
not know the id. -/
inductive At (i : Instruction) (store : Store) : Position → Node → Prop where
  /-- The id is expression `n` of operand `m`. -/
  | intro {m n : Nat} {operand : Operand} {id : NodeId} {node : Node} : i.operands[m]? = some operand →
    operand[n]? = some id → store.get? id = some node → At i store ⟨m, n⟩ node

/-- The instruction has no node with the property. -/
def Lacks (i : Instruction) (store : Store) (P : Node → Prop) : Prop :=
  ∀ position node, i.At store position node → ¬ P node

/-- In reading order this is the first node of the instruction with the property. -/
structure First (i : Instruction) (store : Store) (P : Node → Prop) (position : Position) (node : Node) : Prop where
  /-- The node is at the place. -/
  stands : i.At store position node
  /-- It has the property. -/
  holds : P node
  /-- No node before it has the property. -/
  not_precedes {earlier : Position} {node' : Node} : i.At store earlier node' → P node' →
    ¬ earlier.Precedes position

/-- Where the rules attribute a reference to the target, if they find a place for it. Each rule is for the case that
those before it find none. -/
inductive Attributes (i : Instruction) (store : Store) (target : Address) : Option Position → Prop where
  /-- Rule 1: the first immediate that has the bits of the target. -/
  | exact {position : Position} {node : Node} : i.First store (·.Hits target) position node →
    Attributes i store target (some position)
  /-- Rule 2: the first node under a memory access, or the place before it if it is no immediate. -/
  | underDereference {position : Position} {node : Node} : i.Lacks store (·.Hits target) →
    i.First store store.Under position node →
    Attributes i store target (some (if node.isImmediate then position else position.before))
  /-- Rule 3: the start of the only operand. -/
  | onlyOperand : i.Lacks store (·.Hits target) → i.Lacks store store.Under → i.operandCount = 1 →
    Attributes i store target (some ⟨0, 0⟩)
  /-- Rule 4: the first immediate. -/
  | firstImmediate {position : Position} {node : Node} : i.Lacks store (·.Hits target) →
    i.Lacks store store.Under → i.operandCount ≠ 1 → i.First store (·.isImmediate = true) position node →
    Attributes i store target (some position)
  /-- Otherwise there is no place. -/
  | nowhere : i.Lacks store (·.Hits target) → i.Lacks store store.Under → i.operandCount ≠ 1 →
    i.Lacks store (·.isImmediate = true) → Attributes i store target none

/-! ### The list that is searched -/

theorem At.unique (h : i.At store position node) (h' : i.At store position node') : node = node' := by
  obtain @⟨m, n, operand, id, _, hoperand, hid, hnode⟩ := h
  generalize hposition : (⟨m, n⟩ : Position) = position at h'
  obtain @⟨_, _, operand', id', _, hoperand', hid', hnode'⟩ := h'
  simp only [Position.mk.injEq, Int.natCast_inj] at hposition
  obtain ⟨rfl, rfl⟩ := hposition
  obtain rfl : operand = operand' := by simpa [hoperand] using hoperand'
  obtain rfl : id = id' := by simpa [hid] using hid'
  simpa [hnode] using hnode'

/-- It has the nodes of the instruction with their places, -/
theorem mem_placedNodes_iff : (position, node) ∈ i.placedNodes store ↔ i.At store position node := by
  simp only [placedNodes, List.mem_flatMap, List.mem_filterMap, Option.map_eq_some_iff, Prod.exists, Prod.mk.injEq,
    List.mk_mem_zipIdx_iff_getElem?]
  constructor
  · rintro ⟨operand, m, hoperand, id, n, hid, _, hnode, rfl, rfl⟩
    exact .intro hoperand hid hnode
  · rintro ⟨hoperand, hid, hnode⟩
    exact ⟨_, _, hoperand, _, _, hid, _, hnode, rfl, rfl⟩

theorem pairwise_snd_zipIdx {α : Type} (l : List α) : l.zipIdx.Pairwise fun a b => a.2 < b.2 := by
  have hplaces : (l.zipIdx.map Prod.snd).Pairwise (· < ·) := by
    rw [List.zipIdx_map_snd]
    exact List.pairwise_lt_range' 1
  exact List.pairwise_map.mp hplaces

/-- in reading order. -/
theorem pairwise_placedNodes (i : Instruction) (store : Store) :
    (i.placedNodes store).Pairwise fun a b => a.1.Precedes b.1 := by
  rw [placedNodes, List.pairwise_flatMap]
  refine ⟨fun ⟨operand, m⟩ _ => List.pairwise_filterMap.mpr ?_, (pairwise_snd_zipIdx _).imp ?_⟩
  · refine (pairwise_snd_zipIdx operand).imp fun {a b} hlt x hx y hy => ?_
    obtain ⟨_, -, rfl⟩ := Option.map_eq_some_iff.mp hx
    obtain ⟨_, -, rfl⟩ := Option.map_eq_some_iff.mp hy
    exact .inr ⟨rfl, Int.ofNat_lt.mpr hlt⟩
  · intro a b hlt x hx y hy
    obtain ⟨_, -, hx⟩ := List.mem_filterMap.mp hx
    obtain ⟨_, -, rfl⟩ := Option.map_eq_some_iff.mp hx
    obtain ⟨_, -, hy⟩ := List.mem_filterMap.mp hy
    obtain ⟨_, -, rfl⟩ := Option.map_eq_some_iff.mp hy
    exact .inl hlt

section

variable {p : Node → Bool}

theorem find?_placedNodes_eq_none_iff (hP : ∀ node, p node = true ↔ P node) :
    ((i.placedNodes store).find? fun (_, node) => p node) = none ↔ i.Lacks store P := by
  simp only [List.find?_eq_none, Prod.forall, mem_placedNodes_iff, hP]
  rfl

/-- What a search finds is the first node with the property. -/
theorem first_of_find?_placedNodes (hP : ∀ node, p node = true ↔ P node)
    (h : ((i.placedNodes store).find? fun (_, node) => p node) = some (position, node)) :
    i.First store P position node := by
  obtain ⟨hp, before, after, hsplit, hbefore⟩ := List.find?_eq_some_iff_append.mp h
  have hsorted := pairwise_placedNodes i store
  rw [hsplit] at hsorted
  obtain ⟨-, htail, -⟩ := List.pairwise_append.mp hsorted
  refine ⟨?_, (hP node).mp hp, fun {earlier node'} hstands hnode' hprecedes => ?_⟩
  · rw [← mem_placedNodes_iff, hsplit]
    exact List.mem_append_right _ List.mem_cons_self
  · rw [← mem_placedNodes_iff, hsplit, List.mem_append, List.mem_cons] at hstands
    obtain hmem | heq | hmem := hstands
    · have hnot := hbefore _ hmem
      simp [(hP node').mpr hnode'] at hnot
    · cases heq
      exact hprecedes.not_precedes hprecedes
    · exact hprecedes.not_precedes ((List.pairwise_cons.mp htail).1 _ hmem)

theorem First.unique {position' : Position} (h : i.First store P position node)
    (h' : i.First store P position' node') : position = position' ∧ node = node' := by
  obtain rfl := Position.eq_of_not_precedes (h'.not_precedes h.stands h.holds) (h.not_precedes h'.stands h'.holds)
  exact ⟨rfl, h.stands.unique h'.stands⟩

theorem First.find?_placedNodes (hP : ∀ node, p node = true ↔ P node) (h : i.First store P position node) :
    ((i.placedNodes store).find? fun (_, node) => p node) = some (position, node) := by
  cases hfind : (i.placedNodes store).find? fun (_, node) => p node with
  | none => exact absurd h.holds ((find?_placedNodes_eq_none_iff hP).mp hfind _ _ h.stands)
  | some result =>
    obtain ⟨rfl, rfl⟩ := (first_of_find?_placedNodes hP hfind).unique h
    rfl

end

/-! ### What the search finds -/

theorem hits_iff (node : Node) : (node.isImmediate && node.immediate.toUInt64 == target) = true ↔ node.Hits target := by
  simp [Node.Hits]

theorem under_iff (node : Node) : (store.parent? node).any Node.isDereference = true ↔ store.Under node := by
  simp only [Store.parent?, Option.any_eq_true, Option.bind_eq_some_iff, Node.isDereference, beq_iff_eq, Store.Under,
    Option.mem_def]
  constructor
  · rintro ⟨above, ⟨parent, hparent, habove⟩, hkind⟩
    exact ⟨parent, hparent, above, habove, hkind⟩
  · rintro ⟨parent, hparent, above, habove, hkind⟩
    exact ⟨above, ⟨parent, hparent, habove⟩, hkind⟩

/-- Either no node has the property or one is the first. -/
theorem lacks_or_first (i : Instruction) (store : Store) (P : Node → Prop) :
    i.Lacks store P ∨ ∃ position node, i.First store P position node := by
  classical
  cases hfind : (i.placedNodes store).find? fun (_, node) => decide (P node) with
  | none => exact .inl ((find?_placedNodes_eq_none_iff fun node => decide_eq_true_iff).mp hfind)
  | some result => exact .inr ⟨_, _, first_of_find?_placedNodes (fun node => decide_eq_true_iff) hfind⟩

/-- The rules find a place, or say that there is none. -/
theorem exists_attributes (i : Instruction) (store : Store) (target : Address) :
    ∃ found, i.Attributes store target found := by
  obtain hexact | ⟨position, node, hfirst⟩ := i.lacks_or_first store (·.Hits target)
  · obtain hunder | ⟨position, node, hfirst⟩ := i.lacks_or_first store store.Under
    · by_cases hcount : i.operandCount = 1
      · exact ⟨_, .onlyOperand hexact hunder hcount⟩
      · obtain hnone | ⟨position, node, hfirst⟩ := i.lacks_or_first store (·.isImmediate = true)
        · exact ⟨_, .nowhere hexact hunder hcount hnone⟩
        · exact ⟨_, .firstImmediate hexact hunder hcount hfirst⟩
    · exact ⟨_, .underDereference hexact hfirst⟩
  · exact ⟨_, .exact hfirst⟩

theorem Lacks.exactImmediate?_eq (h : i.Lacks store (·.Hits target)) : i.exactImmediate? store target = none := by
  rw [exactImmediate?, (find?_placedNodes_eq_none_iff hits_iff).mpr h, Option.map_none]

theorem Lacks.underDereference?_eq (h : i.Lacks store store.Under) : i.underDereference? store = none := by
  rw [underDereference?, (find?_placedNodes_eq_none_iff under_iff).mpr h, Option.map_none]

theorem Lacks.firstImmediate?_eq (h : i.Lacks store (·.isImmediate = true)) : i.firstImmediate? store = none := by
  rw [firstImmediate?, (find?_placedNodes_eq_none_iff fun _ => Iff.rfl).mpr h, Option.map_none]

/-- The search finds the place that the rules say. -/
theorem Attributes.locate?_eq (h : i.Attributes store target found) : i.locate? store target = found := by
  unfold locate?
  cases h with
  | exact hfirst =>
    rw [exactImmediate?, hfirst.find?_placedNodes hits_iff]
    rfl
  | underDereference hexact hfirst =>
    rw [hexact.exactImmediate?_eq, underDereference?, hfirst.find?_placedNodes under_iff]
    rfl
  | onlyOperand hexact hunder hcount =>
    rw [hexact.exactImmediate?_eq, hunder.underDereference?_eq, onlyOperand?, if_pos hcount]
    rfl
  | firstImmediate hexact hunder hcount hfirst =>
    rw [hexact.exactImmediate?_eq, hunder.underDereference?_eq, onlyOperand?, if_neg hcount, firstImmediate?,
      hfirst.find?_placedNodes fun _ => Iff.rfl]
    rfl
  | nowhere hexact hunder hcount hnone =>
    rw [hexact.exactImmediate?_eq, hunder.underDereference?_eq, onlyOperand?, if_neg hcount,
      hnone.firstImmediate?_eq]
    rfl

theorem locate?_eq_iff : i.locate? store target = found ↔ i.Attributes store target found := by
  refine ⟨fun h => ?_, Attributes.locate?_eq⟩
  obtain ⟨result, hresult⟩ := i.exists_attributes store target
  obtain rfl := h.symm.trans hresult.locate?_eq
  exact hresult

/-! ### The target -/

/-- Targets that no immediate of the instruction has for its bits are not told apart. -/
theorem Attributes.of_lacks (h : i.Attributes store target found) (htarget : i.Lacks store (·.Hits target))
    (hother : i.Lacks store (·.Hits other)) : i.Attributes store other found := by
  cases h with
  | exact hfirst => exact absurd hfirst.holds (htarget _ _ hfirst.stands)
  | underDereference _ hfirst => exact .underDereference hother hfirst
  | onlyOperand _ hunder hcount => exact .onlyOperand hother hunder hcount
  | firstImmediate _ hunder hcount hfirst => exact .firstImmediate hother hunder hcount hfirst
  | nowhere _ hunder hcount hnone => exact .nowhere hother hunder hcount hnone

theorem exists_hits_of_locate?_ne (h : i.locate? store target ≠ i.locate? store other) :
    ∃ position node, i.At store position node ∧ (node.Hits target ∨ node.Hits other) := by
  by_contra hnone
  push Not at hnone
  have hsame := (locate?_eq_iff.mp rfl : i.Attributes store target _).of_lacks
    (fun position node hstands => (hnone position node hstands).1)
    (fun position node hstands => (hnone position node hstands).2)
  exact h hsame.locate?_eq.symm

/-- The node that is given out for an integer has its bits, in whatever place it is asked for. -/
theorem hits_of_create {s t : Store} {draft : Draft NodeId} {id : NodeId} (hs : s.Reachable)
    (hkind : draft.kind = .immediateInt) (himmediate : draft.immediate = target.toInt64)
    (hcreate : s.create draft = .ok (id, t)) : ∃ node, t.get? id = some node ∧ node.Hits target := by
  obtain ⟨node, hnode, hlink, -⟩ := hs.wellFormed.exists_node_of_create hcreate
  have hnodekind : node.kind = .immediateInt := (congrArg Link.kind hlink).trans hkind
  have hnodeimmediate : node.immediate = target.toInt64 := (congrArg Link.immediate hlink).trans himmediate
  refine ⟨node, hnode, ?_, ?_⟩
  · rw [Node.isImmediate, hnodekind]
    rfl
  · rw [hnodeimmediate, UInt64.toUInt64_toInt64]

/-- A reference is attributed to the place that the rules say, whatever the store and whatever the ids. Another target
is attributed to another place only if an immediate of the instruction has the bits of one of both. Integers that
are stored for a target have its bits. -/
theorem locate?_rules (i : Instruction) (store : Store) (target : Address) :
    (∀ found, i.locate? store target = found ↔ i.Attributes store target found) ∧
      (∀ other, i.locate? store target ≠ i.locate? store other →
        ∃ position node, i.At store position node ∧ (node.Hits target ∨ node.Hits other)) ∧
      ∀ (s t : Store) (symbol : String) (position : UInt16) (relocatable : Bool) (parent : Option NodeId)
        (id : NodeId), s.Reachable →
        s.create { (Draft.immediateInt target : Draft NodeId) with symbol, position, relocatable, parent } =
          .ok (id, t) →
        ∃ node, t.get? id = some node ∧ node.Hits target :=
  ⟨fun _ => locate?_eq_iff, fun _ => exists_hits_of_locate?_ne,
    fun _ _ _ _ _ _ _ hs hcreate => hits_of_create hs rfl rfl hcreate⟩

/-- An instruction with an id that is not known, with the base register of the memory access in an operand of its own,
and with the constant. -/
def scattered : Instruction where
  address := 0x400
  size := 2
  operands := [[⟨9⟩], [⟨2⟩], [⟨3⟩]]

/-- The constant is found for its own value. For another one it is the place before the register, which opens its
operand. -/
theorem locate?_rules_scattered :
    scattered.Attributes Store.withConstant 0x1000 (some ⟨2, 0⟩) ∧
      scattered.Attributes Store.withConstant 0x2000 (some ⟨1, -1⟩) ∧
      (∃ position node, scattered.At Store.withConstant position node ∧ (node.Hits 0x1000 ∨ node.Hits 0x2000)) ∧
      ∃ t, Store.withConstant.create Store.movable = .ok (⟨3⟩, t) ∧
        ∃ node, t.get? ⟨3⟩ = some node ∧ node.Hits 0x1000 := by
  have hexact : scattered.locate? Store.withConstant 0x1000 = some ⟨2, 0⟩ := by decide +kernel
  have hunder : scattered.locate? Store.withConstant 0x2000 = some ⟨1, -1⟩ := by decide +kernel
  obtain ⟨hrules, hother, hstored⟩ := locate?_rules scattered Store.withConstant 0x1000
  refine ⟨(hrules _).mp hexact, ((locate?_rules _ _ _).1 _).mp hunder, hother 0x2000 ?_, _, Store.create_movable, ?_⟩
  · rw [hexact, hunder]
    decide
  · exact hstored _ _ "" 0 true none _ Store.reachable_withConstant Store.create_movable

end Instruction

end Disassembly
