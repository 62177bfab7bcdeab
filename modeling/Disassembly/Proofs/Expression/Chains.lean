import Mathlib.Data.List.Nodup
import Mathlib.Data.List.Perm.Subperm
import Mathlib.Logic.Equiv.Defs
import Disassembly.Proofs.Expression.Numbering
import Disassembly.Proofs.Expression.Renaming
import Disassembly.Proofs.Expression.Rollback
import Disassembly.Proofs.Expression.Sharing

/-!
# The chains of a store

A store is known by the chains of its nodes but for the order in which they came: between stores with the same
chains each node is carried to the one with its chain (`Store.translate`), and this takes one store to the other
(`SameChains.renames`) and the ids of an operand in the one to those in the other (`SameChains.spells`). Chains
also tell when requests succeed. Where a larger store has all the chains that a request asks for, it cannot
fail for lack of room, since the nodes stored so far and a new one are not more than those of the larger store
(`WellFormed.exists_internOperand`).
-/

namespace Disassembly.Expression

theorem Draft.exists_resolveParent {draft : Draft Nat} {ids : Array NodeId}
    (h : ∀ p ∈ draft.parent, p < ids.size) : ∃ resolved, draft.resolveParent ids = .ok resolved := by
  unfold resolveParent
  cases hparent : draft.parent with
  | none => exact ⟨_, rfl⟩
  | some place =>
    simp only [Array.getElem?_eq_getElem (h place hparent)]
    exact ⟨_, rfl⟩

/-- A chain only depends on what is at its start and below. -/
theorem readUp_congr {above above' : Nat → Option (Link × Option Nat)} {i : Nat}
    (h : ∀ j ≤ i, above j = above' j) : readUp above i = readUp above' i := by
  induction i using Nat.strong_induction_on with
  | _ i ih =>
    rw [readUp, readUp, h i le_rfl]
    rcases above' i with _ | ⟨link, _ | parent⟩
    · rfl
    · rfl
    · dsimp only
      by_cases hlt : parent < i
      · rw [if_pos hlt, if_pos hlt, ih parent hlt fun j hj => h j (hj.trans hlt.le)]
      · rw [if_neg hlt, if_neg hlt]

theorem Draft.chain_append {done : List (Draft Nat)} (more : List (Draft Nat)) {i : Nat} (h : i < done.length) :
    Draft.chain (done ++ more) i = Draft.chain done i :=
  readUp_congr fun j hj => by rw [List.getElem?_append_left (hj.trans_lt h)]

namespace Store

variable {s t big : Store} {draft : Draft NodeId} {drafts : List (Draft Nat)} {id : NodeId} {ids : List NodeId}
  {c : List Link}

theorem chain_of_get? (h : ∀ id node, s.get? id = some node → t.get? id = some node) (hid : id.index < s.size) :
    t.chain id = s.chain id := by
  refine readUp_congr fun j hj => ?_
  obtain ⟨node, hnode⟩ : ∃ node, s.get? ⟨j⟩ = some node := exists_get? (hj.trans_lt hid)
  rw [hnode, h _ node hnode]

/-- The chains of the nodes, in the order of their ids. -/
def chains (s : Store) : List (List Link) := (List.range s.size).map fun i => s.chain ⟨i⟩

/-- The id of the node with a chain. -/
def place (s : Store) (c : List Link) : NodeId := ⟨s.chains.idxOf c⟩

/-- The chain that the node of a draft has. -/
def chainOf (s : Store) (draft : Draft NodeId) : List Link := draft.link :: draft.parent.elim [] s.chain

theorem mem_chains_iff : c ∈ s.chains ↔ ∃ id : NodeId, id.index < s.size ∧ s.chain id = c := by
  simp only [chains, List.mem_map, List.mem_range]
  exact ⟨fun ⟨i, hi, h⟩ => ⟨⟨i⟩, hi, h⟩, fun ⟨id, hid, h⟩ => ⟨id.index, hid, h⟩⟩

theorem chain_mem_chains (hid : id.index < s.size) : s.chain id ∈ s.chains := mem_chains_iff.mpr ⟨id, hid, rfl⟩

theorem length_chains (s : Store) : s.chains.length = s.size := by simp [chains]

theorem place_lt_size (hc : c ∈ s.chains) : (s.place c).index < s.size := by
  rw [← s.length_chains]
  exact List.idxOf_lt_length_of_mem hc

theorem getElem_chains {i : Nat} (hi : i < s.chains.length) : s.chains[i] = s.chain ⟨i⟩ := by simp [chains]

theorem chain_place (hc : c ∈ s.chains) : s.chain (s.place c) = c := by
  have hlt := List.idxOf_lt_length_of_mem hc
  exact (getElem_chains hlt).symm.trans (List.getElem_idxOf hlt)

namespace WellFormed

variable (h : s.WellFormed)

include h

theorem nodup_chains : s.chains.Nodup :=
  List.Nodup.map_on (fun i hi j hj heq => congrArg NodeId.index
    (h.chain_inj (a := ⟨i⟩) (b := ⟨j⟩) (List.mem_range.mp hi) (List.mem_range.mp hj) heq)) List.nodup_range

/-- Parents are told apart by their chains, and from there being none. -/
theorem parent_inj {p q : Option NodeId} (hp : ∀ parent ∈ p, parent.index < s.size)
    (hq : ∀ parent ∈ q, parent.index < s.size) (heq : p.elim [] s.chain = q.elim [] s.chain) : p = q := by
  cases p with
  | none =>
    cases q with
    | none => rfl
    | some q => exact absurd heq.symm (h.chain_ne_nil (hq q rfl))
  | some p =>
    cases q with
    | none => exact absurd heq (h.chain_ne_nil (hp p rfl))
    | some q => exact congrArg some (h.chain_inj (hp p rfl) (hq q rfl) heq)

/-- A draft whose node is not there asks for a new chain. -/
theorem chainOf_not_mem (hparent : ∀ parent ∈ draft.parent, parent.index < s.size)
    (hnew : s.bySignature[draft.signature]? = none) : s.chainOf draft ∉ s.chains := by
  intro hmem
  obtain ⟨id, hid, hchain⟩ := mem_chains_iff.mp hmem
  obtain ⟨node, hnode⟩ := exists_get? hid
  rw [h.chain_eq hnode, chainOf, List.cons.injEq] at hchain
  have hnodeparent (parent : NodeId) (hp : parent ∈ node.parent) : parent.index < s.size :=
    h.parent_lt_size hnode hp
  have hsig : node.signature = draft.signature :=
    (h.signature_eq_iff hnode hparent).mpr ⟨hchain.1, h.parent_inj hnodeparent hparent hchain.2⟩
  rw [h.known_iff.mpr (signature?_eq_some_iff.mpr ⟨node, hnode, hsig⟩)] at hnew
  cases hnew

/-- A store that has all chains of another and one more is larger. -/
theorem size_lt_of_not_mem (hsub : s.chains ⊆ big.chains) (hnew : c ∉ s.chains) (hc : c ∈ big.chains) :
    s.size < big.size := by
  have hle := ((List.nodup_cons.mpr ⟨hnew, h.nodup_chains⟩).subperm
    (List.cons_subset.mpr ⟨hc, hsub⟩)).length_le
  rwa [List.length_cons, length_chains, length_chains] at hle

/-- The node given out for a draft has its chain. -/
theorem chain_of_create (hcreate : s.create draft = .ok (id, t)) : t.chain id = s.chainOf draft := by
  obtain ⟨node, hnode, hlink, hparent⟩ := h.exists_node_of_create hcreate
  rw [(h.create hcreate).chain_eq hnode, chainOf, hlink, hparent]
  obtain ⟨-, hlive, -⟩ := create_cases hcreate
  cases hp : draft.parent with
  | none => rfl
  | some parent =>
    exact congrArg _ (chain_of_get? (fun _ _ => get?_of_create hcreate) (hlive parent hp))

/-- A request adds no chain but that of its draft. -/
theorem chains_of_create (hcreate : s.create draft = .ok (id, t)) (hsub : s.chains ⊆ big.chains)
    (hc : s.chainOf draft ∈ big.chains) : t.chains ⊆ big.chains := by
  intro c hmem
  obtain ⟨other, hother, rfl⟩ := mem_chains_iff.mp hmem
  by_cases hold : other.index < s.size
  · rw [chain_of_get? (fun _ _ => get?_of_create hcreate) hold]
    exact hsub (chain_mem_chains hold)
  · obtain ⟨-, -, ⟨-, rfl⟩ | ⟨-, -, happend⟩⟩ := create_cases hcreate
    · exact absurd hother hold
    · obtain rfl : t = (s.append draft).2 := congrArg Prod.snd happend
      obtain rfl : id = ⟨s.size⟩ := congrArg Prod.fst happend
      rw [size_append] at hother
      obtain rfl : other = ⟨s.size⟩ := congrArg NodeId.mk (show other.index = s.size by omega)
      rw [h.chain_of_create hcreate]
      exact hc

/-- A request for a chain of a larger store is not refused. -/
theorem exists_create (hbig : big.WellFormed) (hsub : s.chains ⊆ big.chains) (hsymbol : draft.lacksSymbol = false)
    (hparent : ∀ parent ∈ draft.parent, parent.index < s.size) (hc : s.chainOf draft ∈ big.chains) :
    ∃ id t, s.create draft = .ok (id, t) := by
  unfold Store.create
  rw [objection?_eq_none_iff.mpr ⟨hsymbol, hparent⟩]
  cases hknown : s.bySignature[draft.signature]? with
  | some id => exact ⟨id, _, rfl⟩
  | none =>
    have hroom : s.size < capacity :=
      (h.size_lt_of_not_mem hsub (h.chainOf_not_mem hparent hknown) hc).trans_le hbig.size_le
    exact ⟨_, _, if_pos hroom⟩

end WellFormed

/-! ### Operands that a larger store has -/

namespace Spells

variable {done more : List (Draft Nat)} {draft : Draft Nat} {resolved : Draft NodeId} {ids : Array NodeId}
  {all : List NodeId}

theorem parent_lt_size (h : s.Spells done ids.toList) (hresolve : draft.resolveParent ids = .ok resolved) :
    ∀ parent ∈ resolved.parent, parent.index < s.size := by
  intro parent hparent
  rw [(Draft.resolveParent_eq_ok hresolve).2.2] at hparent
  obtain ⟨place, -, hplace⟩ := Option.bind_eq_some_iff.mp hparent
  exact h.lt_size (List.mem_of_getElem? hplace)

/-- The next draft of an operand asks for the chain that is read off the drafts. -/
theorem chainOf_eq (h : s.Spells done ids.toList) (hs : s.WellFormed)
    (hresolve : draft.resolveParent ids = .ok resolved) :
    s.chainOf resolved = Draft.chain (done ++ draft :: more) done.length := by
  obtain ⟨hlt, hlink, hparent⟩ := Draft.resolveParent_eq_ok hresolve
  have hlength : ids.size = done.length := h.length_eq
  rw [hlength] at hlt
  have hdraft : (done ++ draft :: more)[done.length]? = some draft := by simp
  rw [chainOf, Draft.chain, readUp_eq (by rw [hdraft, Option.map_some]) hlt, hlink, hparent]
  cases hp : draft.parent with
  | none => rfl
  | some place =>
    have hplace := hlt place hp
    have hid : ids.toList[place]? = some ids[place] := by simp [hlength, hplace]
    rw [Option.bind_some, hid]
    show _ :: s.chain _ = _ :: Draft.chain _ place
    rw [h.chain_eq hs hid, Draft.chain_append _ hplace]

theorem exists_internAfter (hs : s.WellFormed) (hbig : big.WellFormed) (hsub : s.chains ⊆ big.chains)
    (h : s.Spells done ids.toList) (hall : big.Spells (done ++ more) all)
    (hsymbol : ∀ draft ∈ more, draft.lacksSymbol = false) :
    ∃ out t, s.internAfter ids more = (.ok out, t) ∧ t.chains ⊆ big.chains := by
  induction more generalizing s done ids with
  | nil => exact ⟨ids.toList, s, rfl, hsub⟩
  | cons draft more ih =>
    obtain ⟨hdraft, hmore⟩ := List.forall_mem_cons.mp hsymbol
    have hlength : ids.size = done.length := h.length_eq
    have hnext : (done ++ draft :: more)[done.length]? = some draft := by simp
    obtain ⟨hlt, id, -, hid, -⟩ := hall.exists_node hnext
    rw [← hlength] at hlt
    obtain ⟨resolved, hresolve⟩ := Draft.exists_resolveParent hlt
    have hchain : s.chainOf resolved ∈ big.chains := by
      rw [h.chainOf_eq hs hresolve, ← hall.chain_eq hbig hid]
      exact chain_mem_chains (hall.lt_size (List.mem_of_getElem? hid))
    obtain ⟨next, t, hcreate⟩ := hs.exists_create hbig hsub
      ((Draft.lacksSymbol_of_resolveParent hresolve).symm.trans hdraft) (h.parent_lt_size hresolve) hchain
    obtain ⟨out, u, hout, hu⟩ := ih (hs.create hcreate) (hs.chains_of_create hcreate hsub hchain)
      (h.create hs hresolve hcreate) (by rwa [← List.append_cons]) hmore
    refine ⟨out, u, ?_, hu⟩
    rw [Store.internAfter, hresolve]
    dsimp only
    rw [hcreate]
    exact hout

end Spells

/-- An operand that a larger store has is stored without fail. -/
theorem WellFormed.exists_internOperand (hs : s.WellFormed) (hbig : big.WellFormed) (hsub : s.chains ⊆ big.chains)
    (hall : big.Spells drafts ids) (hsymbol : ∀ draft ∈ drafts, draft.lacksSymbol = false) :
    ∃ out t, s.internOperand drafts = (.ok out, t) ∧ t.chains ⊆ big.chains :=
  Spells.exists_internAfter hs hbig hsub Spells.nil hall hsymbol

/-! ### Stores with the same chains -/

/-- The id in `t` of the node with the chain that an id has in `s`. Ids that are not used in `s` stay. -/
def translate (s t : Store) (id : NodeId) : NodeId := if id.index < s.size then t.place (s.chain id) else id

/-- The stores are well-formed, and their nodes have the same chains. -/
structure SameChains (s t : Store) : Prop where
  /-- The first store is well-formed, -/
  left : s.WellFormed
  /-- and the second is. -/
  right : t.WellFormed
  /-- The second has the chains of the first, -/
  subset : s.chains ⊆ t.chains
  /-- and no others. -/
  superset : t.chains ⊆ s.chains

namespace SameChains

theorem symm (h : s.SameChains t) : t.SameChains s := ⟨h.right, h.left, h.superset, h.subset⟩

theorem size_eq (h : s.SameChains t) : s.size = t.size := by
  have hst := (h.left.nodup_chains.subperm h.subset).length_le
  have hts := (h.right.nodup_chains.subperm h.superset).length_le
  rw [length_chains, length_chains] at hst hts
  exact le_antisymm hst hts

variable (h : s.SameChains t)

include h

theorem translate_lt_iff : (s.translate t id).index < t.size ↔ id.index < s.size := by
  unfold translate
  split
  · rename_i hid
    exact iff_of_true (place_lt_size (h.subset (chain_mem_chains hid))) hid
  · rw [h.size_eq]

theorem chain_translate (hid : id.index < s.size) : t.chain (s.translate t id) = s.chain id := by
  rw [translate, if_pos hid, chain_place (h.subset (chain_mem_chains hid))]

theorem translate_eq {id' : NodeId} (hid : id.index < s.size) (hid' : id'.index < t.size)
    (hchain : s.chain id = t.chain id') : s.translate t id = id' :=
  h.right.chain_inj (h.translate_lt_iff.mpr hid) hid' ((h.chain_translate hid).trans hchain)

theorem translate_translate : t.translate s (s.translate t id) = id := by
  by_cases hid : id.index < s.size
  · exact h.symm.translate_eq (h.translate_lt_iff.mpr hid) hid (h.chain_translate hid)
  · have hstay : s.translate t id = id := if_neg hid
    rw [hstay, translate, if_neg (h.size_eq ▸ hid)]

theorem bijective : Function.Bijective (s.translate t) :=
  Function.bijective_iff_has_inverse.mpr ⟨t.translate s, fun _ => h.translate_translate,
    fun _ => h.symm.translate_translate⟩

/-- The second store is the first with its nodes renamed. -/
theorem renames : Renames (s.translate t) s t where
  node_eq id := by
    by_cases hid : id.index < s.size
    · obtain ⟨node, hnode⟩ := exists_get? hid
      obtain ⟨node', hnode'⟩ := exists_get? (h.translate_lt_iff.mpr hid)
      have hchain := h.chain_translate hid
      rw [h.left.chain_eq hnode, h.right.chain_eq hnode', List.cons.injEq] at hchain
      have hparent : node'.parent = node.parent.map (s.translate t) := by
        refine h.right.parent_inj (fun _ hp => h.right.parent_lt_size hnode' hp) ?_ (hchain.2.trans ?_)
        · intro parent hp
          obtain ⟨p, hmem, rfl⟩ := Option.map_eq_some_iff.mp hp
          exact h.translate_lt_iff.mpr (h.left.parent_lt_size hnode hmem)
        · cases hp : node.parent with
          | none => rfl
          | some p => exact (h.chain_translate (h.left.parent_lt_size hnode hp)).symm
      rw [hnode, hnode', Option.map_some, Option.map_some, hchain.1, hparent]
    · have hid' : ¬ (s.translate t id).index < t.size := fun hlt => hid (h.translate_lt_iff.mp hlt)
      rw [get?_eq_none_iff.mpr (Nat.le_of_not_lt hid), get?_eq_none_iff.mpr (Nat.le_of_not_lt hid')]
      rfl

/-- The ids of an operand are carried to its ids in the other store. -/
theorem spells {ids' : List NodeId} (hs : s.Spells drafts ids) (ht : t.Spells drafts ids') :
    ids' = ids.map (s.translate t) := by
  refine List.ext_getElem? fun i => ?_
  rw [List.getElem?_map]
  by_cases hi : i < drafts.length
  · have hid := List.getElem?_eq_getElem (hs.length_eq ▸ hi)
    have hid' := List.getElem?_eq_getElem (ht.length_eq ▸ hi)
    rw [hid, hid', Option.map_some, h.translate_eq (hs.lt_size (List.mem_of_getElem? hid))
      (ht.lt_size (List.mem_of_getElem? hid'))]
    rw [hs.chain_eq h.left hid, ht.chain_eq h.right hid']
  · rw [List.getElem?_eq_none (by rw [ht.length_eq]; omega),
      List.getElem?_eq_none (by rw [hs.length_eq]; omega)]
    rfl

end SameChains

end Store

end Disassembly.Expression
