import Disassembly.Proofs.Expression.Numbering
import Disassembly.Proofs.Expression.Rollback

/-!
# Calls to a store

What a caller may ask of a store and what the store replies (`Store.Call`, `Store.replies`). A call for nodes is
answered with one id after the other, up to its end or to the draft that cannot be stored (`Store.Answered`). A
store that is taken back to a mark is what it was when the mark was taken, whatever it was asked in between, so
long as it was not taken back further than that (`Reachable.rollback_after`). Its statistics are so only if a node
was created since: otherwise they go on counting the ids given out (`Answered.stats_rollback`).
-/

namespace Disassembly.Expression.Store

variable {s t u : Store} {draft : Draft NodeId} {drafts : List (Draft Nat)} {id : NodeId} {ids ids' : List NodeId}
  {node : Node} {n : Nat}

/-! ### Calls and replies -/

/-- What a store may be asked for. To mark its end takes no call, as nothing changes. -/
inductive Call where
  /-- A node. -/
  | create (draft : Draft NodeId)
  /-- The nodes of an operand. -/
  | internOperand (drafts : List (Draft Nat))
  /-- To forget everything. -/
  | clear
  /-- To go back to a mark. -/
  | rollback (mark : Checkpoint)
  deriving DecidableEq, Repr

variable {call : Call} {calls : List Call}

/-- What a store replies. -/
inductive Reply where
  /-- The id of the node, or why there is none. -/
  | created (result : Except Error NodeId)
  /-- The ids of the nodes of the operand, or why there is none. -/
  | interned (result : Except Error (List NodeId))
  /-- Everything asked for was forgotten. -/
  | done
  deriving DecidableEq

/-- The reply to a call, and the store after it. -/
def answer (s : Store) : Call → Reply × Store
  | .create draft =>
    match s.create draft with
    | .error error => (.created (.error error), s)
    | .ok (id, t) => (.created (.ok id), t)
  | .internOperand drafts => (.interned (s.internOperand drafts).1, (s.internOperand drafts).2)
  | .clear => (.done, s.clear)
  | .rollback mark => (.done, s.rollback mark)

/-- The replies to some calls made one after the other. -/
def replies (s : Store) : List Call → List Reply
  | [] => []
  | call :: calls => (s.answer call).1 :: (s.answer call).2.replies calls

/-- The store after some calls. -/
def after (s : Store) (calls : List Call) : Store := calls.foldl (fun s call => (s.answer call).2) s

theorem answer_create_of_error {error : Error} (h : s.create draft = .error error) :
    s.answer (.create draft) = (.created (.error error), s) := by
  rw [answer, h]

theorem answer_create_of_ok (h : s.create draft = .ok (id, t)) :
    s.answer (.create draft) = (.created (.ok id), t) := by
  rw [answer, h]

theorem create_eq_ok_of_answer (h : (s.answer (.create draft)).1 = .created (.ok id)) :
    s.create draft = .ok (id, (s.answer (.create draft)).2) := by
  cases hcreate : s.create draft with
  | error error =>
    rw [answer_create_of_error hcreate] at h
    cases h
  | ok answered =>
    rw [answer_create_of_ok hcreate] at h ⊢
    cases h
    rfl

namespace Call

/-- Whether nodes are asked for. -/
def isRequest : Call → Bool
  | create _ | internOperand _ => true
  | clear | rollback _ => false

/-- The call leaves the first `n` nodes alone: nodes are asked for, or the store goes back no further than to `n`
nodes. The mark to which it goes may be of any store. -/
def Keeps (n : Nat) : Call → Prop
  | create _ | internOperand _ => True
  | clear => False
  | rollback mark => n ≤ mark.size ∧ ∃ u : Store, u.Reachable ∧ u.checkpoint = mark

end Call

/-! ### Ids given out -/

/-- The store gave out the ids, each for one draft, and was asked for nothing else with success. -/
inductive Answered : Store → List NodeId → Store → Prop where
  /-- No id was given out. -/
  | nil (s : Store) : Answered s [] s
  /-- An id was given out, and then the others. -/
  | cons {s t u : Store} {draft : Draft NodeId} {id : NodeId} {ids : List NodeId} :
    s.create draft = .ok (id, t) → Answered t ids u → Answered s (id :: ids) u

namespace Answered

theorem append (h : s.Answered ids t) (h' : t.Answered ids' u) : s.Answered (ids ++ ids') u := by
  induction h with
  | nil s => exact h'
  | cons hcreate _ ih => exact .cons hcreate (ih h')

theorem reachable (h : s.Answered ids t) (hs : s.Reachable) : t.Reachable := by
  induction h with
  | nil s => exact hs
  | cons hcreate _ ih => exact ih (hs.step (.create hcreate))

/-- Nodes stay as they are. -/
theorem get? (h : s.Answered ids t) (hnode : s.get? id = some node) : t.get? id = some node := by
  induction h with
  | nil s => exact hnode
  | cons hcreate _ ih => exact ih (get?_of_create hcreate hnode)

theorem introduces (h : s.Answered ids t) (hs : s.WellFormed) : Introduces s.size ids t.size := by
  induction h with
  | nil s => exact .nil _
  | cons hcreate _ ih => exact (hs.introduces_of_create hcreate).append (ih (hs.create hcreate))

/-- Every id that was given out is counted. -/
theorem stats_eq (h : s.Answered ids t) :
    t.stats.created + t.stats.deduplicated = s.stats.created + s.stats.deduplicated + ids.length := by
  induction h with
  | nil s => rfl
  | cons hcreate _ ih =>
    rw [ih, answered_of_create hcreate, List.length_cons]
    omega

end Answered

section Covers

variable {α β : Type} {result : Except Error α} {error : Error} {drafts' : List (Draft Nat)}

/-- What is known of the ids that were given out for some drafts: they are as many as the drafts if all went well,
and fewer if there was an error. -/
def Covers (result : Except Error α) (ids : List NodeId) (drafts : List (Draft Nat)) : Prop :=
  match result with
  | .ok _ => ids.length = drafts.length
  | .error _ => ids.length < drafts.length

theorem covers_map {f : α → β} : Covers (result.map f) ids drafts ↔ Covers result ids drafts := by
  cases result <;> rfl

/-- Drafts that were all answered come first. -/
theorem Covers.append (h : ids.length = drafts.length) (h' : Covers result ids' drafts') :
    Covers result (ids ++ ids') (drafts ++ drafts') := by
  cases result with
  | ok a =>
    have hlength : ids'.length = drafts'.length := h'
    simp [Covers, h, hlength]
  | error error =>
    have hlength : ids'.length < drafts'.length := h'
    simp [Covers, h, hlength]

/-- After an error other drafts are not looked at. -/
theorem Covers.error_append (h : Covers (α := α) (.error error) ids drafts) :
    Covers (α := β) (.error error) ids (drafts ++ drafts') := by
  have hlength : ids.length < drafts.length := h
  show ids.length < (drafts ++ drafts').length
  rw [List.length_append]
  exact Nat.lt_add_right _ hlength

end Covers

theorem exists_answered_internAfter (s : Store) (before : Array NodeId) (drafts : List (Draft Nat)) :
    ∃ ids, s.Answered ids (s.internAfter before drafts).2 ∧
      Covers (s.internAfter before drafts).1 ids drafts := by
  fun_induction Store.internAfter s before drafts with
  | case1 s before => exact ⟨[], .nil s, rfl⟩
  | case2 s before draft drafts place hresolve => exact ⟨[], .nil s, Nat.succ_pos _⟩
  | case3 s before draft drafts resolved hresolve error hcreate => exact ⟨[], .nil s, Nat.succ_pos _⟩
  | case4 s before draft drafts resolved hresolve id t hcreate ih =>
    obtain ⟨ids, hanswered, hcovers⟩ := ih
    have hfirst : [id].length = [draft].length := rfl
    exact ⟨id :: ids, .cons hcreate hanswered, .append hfirst hcovers⟩

theorem exists_answered_answer (s : Store) (h : call.isRequest = true) :
    ∃ ids, s.Answered ids (s.answer call).2 := by
  cases call with
  | create draft =>
    cases hcreate : s.create draft with
    | error error =>
      rw [answer_create_of_error hcreate]
      exact ⟨[], .nil s⟩
    | ok answered =>
      rw [answer_create_of_ok hcreate]
      exact ⟨[answered.1], .cons hcreate (.nil _)⟩
  | internOperand drafts =>
    obtain ⟨ids, hanswered, -⟩ := s.exists_answered_internAfter #[] drafts
    exact ⟨ids, hanswered⟩
  | clear => cases h
  | rollback mark => cases h

theorem exists_answered_after (s : Store) (h : ∀ call ∈ calls, call.isRequest = true) :
    ∃ ids, s.Answered ids (s.after calls) := by
  induction calls generalizing s with
  | nil => exact ⟨[], .nil s⟩
  | cons call calls ih =>
    obtain ⟨hfirst, hrest⟩ := List.forall_mem_cons.mp h
    obtain ⟨ids, hanswered⟩ := s.exists_answered_answer hfirst
    obtain ⟨ids', hanswered'⟩ := ih (s.answer call).2 hrest
    exact ⟨ids ++ ids', hanswered.append hanswered'⟩

/-! ### Going back -/

/-- A call that leaves the first nodes alone. -/
theorem Call.Keeps.answer (h : call.Keeps n) (hs : s.Reachable) (hn : n ≤ s.size) :
    (s.answer call).2.Reachable ∧ n ≤ (s.answer call).2.size ∧
      ∀ id, id.index < n → (s.answer call).2.get? id = s.get? id := by
  cases hrequest : call.isRequest with
  | true =>
    obtain ⟨ids, hanswered⟩ := s.exists_answered_answer hrequest
    refine ⟨hanswered.reachable hs, hn.trans (hanswered.introduces hs.wellFormed).le, fun id hid => ?_⟩
    obtain ⟨node, hnode⟩ := exists_get? (hid.trans_le hn)
    rw [hnode, hanswered.get? hnode]
  | false =>
    cases call with
    | create draft => cases hrequest
    | internOperand drafts => cases hrequest
    | clear => cases h
    | rollback mark =>
      obtain ⟨hmark, u, hu, rfl⟩ := h
      refine ⟨hs.step (.rollback s hu), ?_, fun id hid => Option.ext fun node => ?_⟩
      · show n ≤ (s.rollback u.checkpoint).size
        rw [size_rollback]
        exact le_min hn hmark
      · exact get?_rollback_eq_some_iff.trans (and_iff_right (hid.trans_le hmark))

theorem keeps_after (h : ∀ call ∈ calls, call.Keeps n) (hs : s.Reachable) (hn : n ≤ s.size) :
    (s.after calls).Reachable ∧ ∀ id, id.index < n → (s.after calls).get? id = s.get? id := by
  induction calls generalizing s with
  | nil => exact ⟨hs, fun _ _ => rfl⟩
  | cons call calls ih =>
    obtain ⟨hfirst, hrest⟩ := List.forall_mem_cons.mp h
    obtain ⟨hreach, hsize, hget⟩ := hfirst.answer hs hn
    obtain ⟨hreach', hget'⟩ := ih hrest hreach hsize
    exact ⟨hreach', fun id hid => (hget' id hid).trans (hget id hid)⟩

theorem Alike.rollback (h : s.Alike t) (mark : Checkpoint) : (s.rollback mark).Alike (t.rollback mark) := by
  unfold Store.rollback size
  rw [h.nodes_eq, h.bySignature_eq, h.symbols_eq]
  split
  · exact h
  · exact ⟨rfl, rfl, rfl, rfl⟩

theorem Alike.answer (h : s.Alike t) (call : Call) :
    (s.answer call).1 = (t.answer call).1 ∧ (s.answer call).2.Alike (t.answer call).2 := by
  cases call with
  | create draft =>
    obtain ⟨error, hs, ht⟩ | ⟨id, s', t', hs, ht, h'⟩ := h.create draft
    · rw [answer_create_of_error hs, answer_create_of_error ht]
      exact ⟨rfl, h⟩
    · rw [answer_create_of_ok hs, answer_create_of_ok ht]
      exact ⟨rfl, h'⟩
  | internOperand drafts =>
    obtain ⟨hresult, hnext⟩ := h.internOperand drafts
    exact ⟨congrArg Reply.interned hresult, hnext⟩
  | clear => exact ⟨rfl, .refl _⟩
  | rollback mark => exact ⟨rfl, h.rollback mark⟩

theorem Alike.replies (h : s.Alike t) (calls : List Call) : s.replies calls = t.replies calls := by
  induction calls generalizing s t with
  | nil => rfl
  | cons call calls ih =>
    obtain ⟨hreply, hnext⟩ := h.answer call
    rw [Store.replies, Store.replies, hreply, ih hnext]

/-- Going back to a mark undoes all calls made since it was taken, if none of them went back further than it: there
are the same nodes under the same ids, the same signatures and the same symbols as then, and whatever the store is
asked for from now on, it replies as it would have then. -/
theorem Reachable.rollback_after (hs : s.Reachable) (hcalls : ∀ call ∈ calls, call.Keeps s.size) :
    let r := (s.after calls).rollback s.checkpoint
    r.nodes = s.nodes ∧ r.bySignature = s.bySignature ∧ r.symbols = s.symbols ∧
      (∀ id, r.get? id = s.get? id) ∧ ∀ later, r.replies later = s.replies later := by
  intro r
  obtain ⟨hreach, hget⟩ := keeps_after hcalls hs le_rfl
  have halike : r.Alike s := hs.tidy.alike_rollback hreach.tidy fun id node hnode => by
    rw [hget id (lt_size hnode), hnode]
  exact ⟨halike.nodes_eq, halike.bySignature_eq, halike.symbols_eq, halike.get?_eq, halike.replies⟩

/-- A store of the memory access. -/
def accessed : Store := (({} : Store).internOperand access).2

theorem reachable_accessed : accessed.Reachable := Reachable.empty.step (.internOperand _ _)

/-- Calls of which two fail, the second one at the second draft of its operand, and of which one goes back to where
the store was after the first. -/
def detour : List Call :=
  [.create (.register "eax"), .create (.register ""),
    .internOperand [.register "ebx", { kind := .operator, symbol := "+", parent := some 7 }],
    .rollback (accessed.after [.create (.register "eax")]).checkpoint, .internOperand access,
    .create (.register "esp")]

/-- The symbol of a node that is taken back is still that of another one. -/
theorem rollback_after_detour :
    let r := (accessed.after detour).rollback accessed.checkpoint
    (accessed.after detour).size = 5 ∧ r.nodes = accessed.nodes ∧ r.symbols = accessed.symbols ∧
      r.replies [.create (.register "ecx"), .internOperand access] =
        [.created (.ok ⟨3⟩), .interned (.ok [⟨0⟩, ⟨1⟩, ⟨2⟩])] := by
  intro r
  have heax : (accessed.after [.create (.register "eax")]).Reachable :=
    (keeps_after (n := 0) (by simp [Call.Keeps]) reachable_accessed (Nat.zero_le _)).1
  have hdetour : ∀ call ∈ detour, call.Keeps accessed.size := by
    simp only [detour, List.forall_mem_cons, Call.Keeps, true_and]
    exact ⟨⟨by decide +kernel, _, heax, rfl⟩, by simp⟩
  obtain ⟨hnodes, -, hsymbols, -, hreplies⟩ := reachable_accessed.rollback_after hdetour
  refine ⟨by decide +kernel, hnodes, hsymbols, (hreplies _).trans ?_⟩
  decide +kernel

/-! ### Statistics -/

/-- How many of the ids that a store gave out since it was marked stay counted when it goes back to the mark: none if
the node of one of them was new, and all of them otherwise. -/
def leftover (s : Store) (ids : List NodeId) : Nat :=
  if ∃ id ∈ ids, s.size ≤ id.index then 0 else ids.length

theorem leftover_eq_zero_iff : s.leftover ids = 0 ↔ ids = [] ∨ ∃ id ∈ ids, s.get? id = none := by
  simp only [get?_eq_none_iff]
  unfold leftover
  split
  · rename_i hnew
    exact iff_of_true rfl (.inr hnew)
  · rename_i hknown
    rw [List.length_eq_zero_iff, or_iff_left hknown]

theorem stats_rollback (s : Store) (mark : Checkpoint) :
    (s.rollback mark).stats = if s.size ≤ mark.size then s.stats else mark.stats := by
  unfold rollback
  split <;> rfl

/-- If a node was created since a mark, going back to the mark restores the statistics. Otherwise nothing is taken
back, and every id that was given out stays counted. -/
theorem Answered.stats_rollback (h : s.Answered ids t) (hs : s.Reachable) :
    (t.rollback s.checkpoint).stats =
      { s.stats with deduplicated := s.stats.deduplicated + s.leftover ids } := by
  have hintroduces := h.introduces hs.wellFormed
  rw [Store.stats_rollback, leftover]
  show (if t.size ≤ s.size then t.stats else s.stats) = _
  by_cases hlt : s.size < t.size
  · rw [if_neg (Nat.not_le.mpr hlt), if_pos (hintroduces.lt_iff.mp hlt), Nat.add_zero]
  · have hsize : t.size = s.size := le_antisymm (Nat.le_of_not_lt hlt) hintroduces.le
    have hcreated : t.stats.created = s.stats.created := by
      rw [(h.reachable hs).wellFormed.created_eq, hs.wellFormed.created_eq, hsize]
    have hdeduplicated : t.stats.deduplicated = s.stats.deduplicated + ids.length := by
      have := h.stats_eq
      omega
    rw [if_pos hsize.le, if_neg (hintroduces.lt_iff.not.mp hlt)]
    show (⟨t.stats.created, t.stats.deduplicated⟩ : StoreStats) = _
    rw [hcreated, hdeduplicated]

/-- Going back to a mark restores the statistics exactly if since the mark no id was given out, or that of a new
node. -/
theorem Answered.stats_rollback_eq_iff (h : s.Answered ids t) (hs : s.Reachable) :
    (t.rollback s.checkpoint).stats = s.stats ↔ ids = [] ∨ ∃ id ∈ ids, s.get? id = none := by
  rw [h.stats_rollback hs, ← leftover_eq_zero_iff]
  constructor
  · intro heq
    exact Nat.add_eq_left.mp (congrArg StoreStats.deduplicated heq)
  · intro hnone
    rw [hnone, Nat.add_zero]

end Disassembly.Expression.Store
