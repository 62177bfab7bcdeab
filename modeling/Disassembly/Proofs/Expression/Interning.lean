import Mathlib.Data.List.Induction
import Disassembly.Proofs.Expression.Chains
import Disassembly.Proofs.Expression.Creation

/-!
# What a request for an operand does

Whether an operand can be stored is told by its drafts alone: each names a parent that comes before it, or none, and
has the symbol that its kind needs (`Draft.Fault`). The drafts before the first fault are stored, and then the request
fails with that fault (`Reachable.internOperand_outcome`). An operand whose nodes are still there is answered with the
same ids again, whatever was stored in between (`Spells.internOperand_eq`). Apart from faults one thing can go wrong,
that the store has no id left (`Store.Fills`), as happens to a full one (`internOperand_counting`).
-/

namespace Disassembly.Expression

namespace Draft

variable {i : Nat} {draft : Draft Nat} {drafts : List (Draft Nat)} {ids : Array NodeId} {error : Error}

/-! ### Faults -/

/-- What is wrong with a draft at place `i` of its operand. That it names a parent that does not come before it is
noticed first. -/
inductive Fault (i : Nat) (draft : Draft Nat) : Error → Prop where
  /-- Its parent does not come before it. -/
  | parentOutOfOrder {parent : Nat} : parent ∈ draft.parent → i ≤ parent →
    Fault i draft (.parentOutOfOrder i parent)
  /-- It has no symbol and its kind needs one. -/
  | emptySymbol : (∀ parent ∈ draft.parent, parent < i) → draft.symbol = "" → draft.kind.isImmediate = false →
    Fault i draft (.emptySymbol draft.kind)

/-- No draft of the operand is at fault. -/
def Flawless (drafts : List (Draft Nat)) : Prop :=
  ∀ (i : Nat) (draft : Draft Nat), drafts[i]? = some draft → ∀ error, ¬ draft.Fault i error

/-- Draft `i` of the operand is at fault, with the given error, and none before it is. -/
structure FirstFault (drafts : List (Draft Nat)) (i : Nat) (error : Error) : Prop where
  /-- There is such a draft, and it is at fault. -/
  exists_fault : ∃ draft, drafts[i]? = some draft ∧ draft.Fault i error
  /-- The drafts before it are not. -/
  flawless_take : Flawless (drafts.take i)

/-- A draft is at fault for its parent or for its symbol. -/
theorem not_fault_iff :
    (∀ error, ¬ draft.Fault i error) ↔ (∀ parent ∈ draft.parent, parent < i) ∧ draft.lacksSymbol = false := by
  constructor
  · intro h
    have hparent (parent : Nat) (hp : parent ∈ draft.parent) : parent < i :=
      Nat.lt_of_not_le fun hle => h _ (.parentOutOfOrder hp hle)
    refine ⟨hparent, Bool.eq_false_iff.mpr fun hlacks => ?_⟩
    obtain ⟨hsymbol, hkind⟩ := lacksSymbol_iff.mp hlacks
    exact h _ (.emptySymbol hparent hsymbol hkind)
  · rintro ⟨hparent, hsymbol⟩ error (⟨hp, hle⟩ | ⟨-, hempty, hkind⟩)
    · exact Nat.not_lt.mpr hle (hparent _ hp)
    · rw [lacksSymbol_iff.mpr ⟨hempty, hkind⟩] at hsymbol
      cases hsymbol

/-- Immediates without parents are never at fault. -/
theorem flawless_of_immediates (h : ∀ draft ∈ drafts, draft.parent = none ∧ draft.kind.isImmediate = true) :
    Flawless drafts := by
  intro i draft hi
  obtain ⟨hparent, hkind⟩ := h draft (List.mem_of_getElem? hi)
  exact not_fault_iff.mpr ⟨by simp [hparent], by simp [lacksSymbol, hkind]⟩

theorem flawless_concat_iff :
    Flawless (drafts ++ [draft]) ↔ Flawless drafts ∧ ∀ error, ¬ draft.Fault drafts.length error := by
  constructor
  · intro h
    refine ⟨fun i other hi => h i other ?_, h drafts.length draft List.getElem?_concat_length⟩
    rw [List.getElem?_append_left (List.getElem?_eq_some_iff.mp hi).1, hi]
  · rintro ⟨hinit, hlast⟩ i other hi
    rcases Nat.lt_or_ge i drafts.length with hlt | hge
    · rw [List.getElem?_append_left hlt] at hi
      exact hinit i other hi
    · obtain ⟨hi, rfl⟩ : i - drafts.length = 0 ∧ draft = other := by
        simpa [List.getElem?_append_right hge, List.getElem?_singleton] using hi
      obtain rfl : i = drafts.length := by omega
      exact hlast

theorem FirstFault.append (h : FirstFault drafts i error) (more : List (Draft Nat)) :
    FirstFault (drafts ++ more) i error := by
  obtain ⟨⟨draft, hi, hfault⟩, hbefore⟩ := h
  have hlt := (List.getElem?_eq_some_iff.mp hi).1
  refine ⟨⟨draft, ?_, hfault⟩, ?_⟩
  · rw [List.getElem?_append_left hlt, hi]
  · rwa [List.take_append_of_le_length hlt.le]

/-- If any draft is at fault there is a first one. -/
theorem flawless_or_firstFault (drafts : List (Draft Nat)) :
    Flawless drafts ∨ ∃ i error, FirstFault drafts i error := by
  induction drafts using List.reverseRecOn with
  | nil => exact .inl fun i draft hi => by simp at hi
  | append_singleton drafts draft ih =>
    obtain hflawless | ⟨i, error, hfirst⟩ := ih
    · by_cases hlast : ∀ error, ¬ draft.Fault drafts.length error
      · exact .inl (flawless_concat_iff.mpr ⟨hflawless, hlast⟩)
      · obtain ⟨error, hfault⟩ := not_forall_not.mp hlast
        refine .inr ⟨drafts.length, error, ⟨draft, List.getElem?_concat_length, hfault⟩, ?_⟩
        rwa [List.take_left]
    · exact .inr ⟨i, error, hfirst.append _⟩

/-- The place of a parent that does not come before its child names no id. -/
theorem resolveParent_eq_error {parent : Nat} (hparent : parent ∈ draft.parent) (hle : ids.size ≤ parent) :
    draft.resolveParent ids = .error parent := by
  rw [resolveParent, Option.mem_def.mp hparent]
  simp only [Array.getElem?_eq_none hle]

end Draft

namespace Store

variable {s t : Store} {draft : Draft Nat} {drafts : List (Draft Nat)} {before : Array NodeId}
  {ids : List NodeId} {id : NodeId} {i : Nat} {error : Error}

/-! ### One operand after another -/

theorem internAfter_append (s : Store) (before : Array NodeId) (drafts more : List (Draft Nat)) :
    s.internAfter before (drafts ++ more) =
      match s.internAfter before drafts with
      | (.ok ids, t) => t.internAfter ids.toArray more
      | (.error error, t) => (.error error, t) := by
  fun_induction Store.internAfter s before drafts with
  | case1 s before => rfl
  | case2 s before draft drafts place hresolve => rw [List.cons_append, internAfter, hresolve]
  | case3 s before draft drafts resolved hresolve error hcreate =>
    rw [List.cons_append, internAfter, hresolve]
    dsimp only
    rw [hcreate]
  | case4 s before draft drafts resolved hresolve id t hcreate ih =>
    rw [List.cons_append, internAfter, hresolve]
    dsimp only
    rw [hcreate]
    exact ih

theorem internOperand_append_of_ok (h : s.internOperand drafts = (.ok ids, t)) (more : List (Draft Nat)) :
    s.internOperand (drafts ++ more) = t.internAfter ids.toArray more := by
  rw [internOperand, internAfter_append, ← internOperand, h]

theorem internOperand_append_of_error (h : s.internOperand drafts = (.error error, t)) (more : List (Draft Nat)) :
    s.internOperand (drafts ++ more) = (.error error, t) := by
  rw [internOperand, internAfter_append, ← internOperand, h]

/-- An operand ends with its last draft. -/
theorem internOperand_concat {resolved : Draft NodeId} (h : s.internOperand drafts = (.ok ids, t))
    (hresolve : draft.resolveParent ids.toArray = .ok resolved) :
    s.internOperand (drafts ++ [draft]) =
      match t.create resolved with
      | .error error => (.error error, t)
      | .ok (id, u) => (.ok (ids ++ [id]), u) := by
  rw [internOperand_append_of_ok h, internAfter, hresolve]
  dsimp only
  rcases t.create resolved with error | ⟨id, u⟩
  · rfl
  · simp [internAfter]

/-- A draft at fault ends the operand, and nothing is stored for it. -/
theorem internAfter_of_fault (h : draft.Fault before.size error) (more : List (Draft Nat)) :
    s.internAfter before (draft :: more) = (.error error, s) := by
  cases h with
  | parentOutOfOrder hparent hle => rw [internAfter, Draft.resolveParent_eq_error hparent hle]
  | emptySymbol hparent hsymbol hkind =>
    obtain ⟨resolved, hresolve⟩ := Draft.exists_resolveParent hparent
    have hlacks : resolved.lacksSymbol = true := by
      rw [← Draft.lacksSymbol_of_resolveParent hresolve, Draft.lacksSymbol_iff]
      exact ⟨hsymbol, hkind⟩
    have hkind : resolved.kind = draft.kind := congrArg Link.kind (Draft.resolveParent_eq_ok hresolve).2.1
    rw [internAfter, hresolve]
    dsimp only
    rw [create, objection?, if_pos hlacks, hkind]

/-! ### Running out of ids -/

/-- The store has no id left for a draft of the operand: it has become full, as the operand has more drafts than
there was room for nodes. -/
structure Fills (s : Store) (drafts : List (Draft Nat)) : Prop where
  /-- The error says so. -/
  error_eq : (s.internOperand drafts).1 = .error .idSpaceExhausted
  /-- There are as many nodes as there are ids. -/
  size_eq : (s.internOperand drafts).2.size = capacity
  /-- There was no room for a node for every draft. -/
  capacity_lt : capacity < s.size + drafts.length

/-- An operand adds fewer nodes than it has drafts if there is an error. -/
theorem Fills.of_error (hs : s.WellFormed) (h : s.internOperand drafts = (.error .idSpaceExhausted, t))
    (hsize : t.size = capacity) : s.Fills drafts := by
  refine ⟨congrArg Prod.fst h, by rw [h, hsize], ?_⟩
  obtain ⟨ids, hanswered, hcovers⟩ := s.exists_answered_internAfter #[] drafts
  rw [← internOperand, h] at hanswered hcovers
  have hfewer : ids.length < drafts.length := hcovers
  have hle : t.size ≤ s.size + ids.length := (hanswered.introduces hs).le_add_length
  omega

theorem Fills.append (h : s.Fills drafts) (hs : s.WellFormed) (more : List (Draft Nat)) :
    s.Fills (drafts ++ more) :=
  .of_error hs (internOperand_append_of_error (Prod.ext h.error_eq rfl) more) h.size_eq

/-! ### Operands without a fault -/

/-- The next draft of an operand is stored, or there is no id for it. -/
theorem WellFormed.create_of_spells {resolved : Draft NodeId} (h : t.WellFormed) (hspells : t.Spells drafts ids)
    (hresolve : draft.resolveParent ids.toArray = .ok resolved) (hsymbol : draft.lacksSymbol = false) :
    (∃ id u, t.create resolved = .ok (id, u)) ∨
      t.create resolved = .error .idSpaceExhausted ∧ t.size = capacity := by
  have hadmits : t.Admits resolved := by
    refine admits_iff.mpr (objection?_eq_none_iff.mpr ⟨?_, hspells.parent_lt_size hresolve⟩)
    rw [← Draft.lacksSymbol_of_resolveParent hresolve, hsymbol]
  by_cases hknown : ∃ id, t.Has resolved id
  · obtain ⟨id, hid⟩ := hknown
    exact .inl ⟨id, _, h.create_of_has hadmits hid⟩
  · rw [h.create_of_not_has hadmits (not_exists.mp hknown)]
    by_cases hroom : t.size < capacity
    · exact .inl ⟨_, _, if_pos hroom⟩
    · exact .inr ⟨if_neg hroom, le_antisymm h.size_le (Nat.le_of_not_lt hroom)⟩

/-- Drafts without a fault are all stored if there are ids for them. -/
theorem WellFormed.internOperand_of_flawless (hs : s.WellFormed) (hflawless : Draft.Flawless drafts) :
    (∃ ids t, s.internOperand drafts = (.ok ids, t) ∧ t.WellFormed ∧ t.Spells drafts ids) ∨ s.Fills drafts := by
  induction drafts using List.reverseRecOn with
  | nil => exact .inl ⟨[], s, rfl, hs, .nil⟩
  | append_singleton drafts draft ih =>
    obtain ⟨hinit, hlast⟩ := Draft.flawless_concat_iff.mp hflawless
    obtain ⟨ids, t, hintern, ht, hspells⟩ | hfills := ih hinit
    · obtain ⟨hparent, hsymbol⟩ := Draft.not_fault_iff.mp hlast
      rw [← hspells.length_eq] at hparent
      obtain ⟨resolved, hresolve⟩ : ∃ resolved, draft.resolveParent ids.toArray = .ok resolved :=
        Draft.exists_resolveParent hparent
      have hconcat := internOperand_concat hintern hresolve
      obtain ⟨id, u, hcreate⟩ | ⟨hcreate, hsize⟩ := ht.create_of_spells hspells hresolve hsymbol
      · rw [hcreate] at hconcat
        have hnext : u.Spells (drafts ++ [draft]) (ids.toArray.push id).toList :=
          Spells.create hspells ht hresolve hcreate
        rw [Array.toList_push] at hnext
        exact .inl ⟨_, u, hconcat, ht.create hcreate, hnext⟩
      · rw [hcreate] at hconcat
        exact .inr (.of_error hs hconcat hsize)
    · exact .inr (hfills.append hs _)

/-- The drafts before the first fault are stored, and then the fault is the error. -/
theorem WellFormed.internOperand_of_firstFault (hs : s.WellFormed) (h : Draft.FirstFault drafts i error) :
    (∃ ids t, s.internOperand (drafts.take i) = (.ok ids, t) ∧ s.internOperand drafts = (.error error, t)) ∨
      s.Fills drafts := by
  obtain ⟨⟨draft, hi, hfault⟩, hbefore⟩ := h
  obtain ⟨hlt, rfl⟩ := List.getElem?_eq_some_iff.mp hi
  have hsplit : drafts = drafts.take i ++ drafts[i] :: drafts.drop (i + 1) := by
    rw [← List.drop_eq_getElem_cons hlt, List.take_append_drop]
  obtain ⟨ids, t, hintern, -, hspells⟩ | hfills := hs.internOperand_of_flawless hbefore
  · have hplace : ids.toArray.size = i := by
      rw [List.size_toArray, hspells.length_eq, List.length_take_of_le hlt.le]
    refine .inl ⟨ids, t, hintern, ?_⟩
    rw [hsplit, internOperand_append_of_ok hintern, internAfter_of_fault (by rwa [hplace])]
  · refine .inr ?_
    rw [hsplit]
    exact hfills.append hs _

/-! ### Operands that are there -/

/-- The store after `n` more requests that were answered with a node that was there. -/
def recount (s : Store) (n : Nat) : Store :=
  { s with stats := { s.stats with deduplicated := s.stats.deduplicated + n } }

theorem recount_recount (s : Store) (m n : Nat) : (s.recount m).recount n = s.recount (m + n) := by
  simp only [recount, Nat.add_assoc]

/-- The ids of an operand without those of its last draft. -/
theorem Spells.exists_init (h : s.Spells (drafts ++ [draft]) ids) :
    ∃ init id, ids = init ++ [id] ∧ s.Spells drafts init := by
  obtain ⟨init, id, rfl⟩ : ∃ init id, ids = init ++ [id] := by
    rcases List.eq_nil_or_concat ids with rfl | ⟨init, id, rfl⟩
    · simpa using h.length_eq
    · exact ⟨init, id, List.concat_eq_append⟩
  have hlength : init.length = drafts.length := by simpa using h.length_eq
  refine ⟨init, id, rfl, hlength, fun {i other} hi => ?_⟩
  have hlt := (List.getElem?_eq_some_iff.mp hi).1
  obtain ⟨hparents, id', node, hid, hnode, hlink, hparent⟩ :=
    h.exists_node ((List.getElem?_append_left hlt).trans hi)
  rw [← hlength] at hlt
  rw [List.getElem?_append_left hlt] at hid
  rw [bind_append fun p hp => (hparents p hp).trans hlt] at hparent
  exact ⟨hparents, id', node, hid, hnode, hlink, hparent⟩

/-- An operand that is there is answered with its ids, and nothing is added. -/
theorem Spells.internOperand_eq (hs : s.WellFormed) (h : s.Spells drafts ids)
    (hsymbol : ∀ draft ∈ drafts, draft.lacksSymbol = false) :
    s.internOperand drafts = (.ok ids, s.recount drafts.length) := by
  induction drafts using List.reverseRecOn generalizing ids with
  | nil =>
    obtain rfl : ids = [] := List.length_eq_zero_iff.mp h.length_eq
    rfl
  | append_singleton drafts draft ih =>
    obtain ⟨hinit, hlast⟩ := List.forall_mem_append.mp hsymbol
    obtain ⟨init, id, rfl, hspells⟩ := h.exists_init
    obtain ⟨hparents, id', node, hid, hnode, hlink, hparent⟩ := h.exists_node List.getElem?_concat_length
    rw [← hspells.length_eq] at hparents hid
    obtain rfl : id = id' := by simpa using hid
    rw [bind_append hparents] at hparent
    obtain ⟨resolved, hresolve⟩ : ∃ resolved, draft.resolveParent init.toArray = .ok resolved :=
      Draft.exists_resolveParent hparents
    obtain ⟨-, hresolvedlink, hresolvedparent⟩ := Draft.resolveParent_eq_ok hresolve
    -- To count requests changes no node, so that the last draft finds its node where it was.
    have hs' : (s.recount drafts.length).WellFormed := hs.deduplicate _
    have hspells' : (s.recount drafts.length).Spells drafts init := hspells.of_get? fun _ _ _ hnode => hnode
    have hadmits : (s.recount drafts.length).Admits resolved := by
      refine admits_iff.mpr (objection?_eq_none_iff.mpr ⟨?_, hspells'.parent_lt_size hresolve⟩)
      rw [← Draft.lacksSymbol_of_resolveParent hresolve]
      exact hlast draft List.mem_cons_self
    have hhas : (s.recount drafts.length).Has resolved id :=
      ⟨node, hnode, Node.matches_iff.mpr ⟨hlink.trans hresolvedlink.symm, hparent.trans hresolvedparent.symm⟩⟩
    rw [internOperand_concat (ih hspells hinit) hresolve, hs'.create_of_has hadmits hhas]
    show (_, (s.recount drafts.length).recount 1) = _
    rw [recount_recount, List.length_append, List.length_singleton]

/-- Every draft of an operand that was stored has the symbol that its kind needs. -/
theorem Holds.hasSymbol (h : s.Holds drafts ids) : ∀ draft ∈ drafts, draft.lacksSymbol = false := by
  induction h with
  | intern hs hintern => exact (hs.wellFormed.stored hintern).hasSymbol
  | step _ _ _ ih => exact ih

/-! ### The outcome of a request -/

/-- The errors are the first fault, if there is one, and that there is no id left. -/
theorem WellFormed.fault_of_error (hs : s.WellFormed) (h : (s.internOperand drafts).1 = .error error) :
    (∃ i, Draft.FirstFault drafts i error) ∨ error = .idSpaceExhausted := by
  obtain hflawless | ⟨i, fault, hfirst⟩ := Draft.flawless_or_firstFault drafts
  · obtain ⟨ids, t, hintern, -⟩ | hfills := hs.internOperand_of_flawless hflawless
    · rw [hintern] at h
      cases h
    · exact .inr (Except.error.inj (h.symm.trans hfills.error_eq))
  · obtain ⟨ids, t, -, hintern⟩ | hfills := hs.internOperand_of_firstFault hfirst
    · rw [hintern] at h
      cases h
      exact .inl ⟨i, hfirst⟩
    · exact .inr (Except.error.inj (h.symm.trans hfills.error_eq))

/-- If no draft of an operand is at fault each gets an id, in order. While these nodes are there, the same operand
gets the same ids and is only counted, whatever happened in between. If a draft is at fault the request fails with
the first fault, and leaves the store that the drafts before it make. It fails for no other reason than that the
store has become full, and never because a parent is not known. -/
theorem Reachable.internOperand_outcome (hs : s.Reachable) (drafts : List (Draft Nat)) :
    (Draft.Flawless drafts →
        (∃ ids t, s.internOperand drafts = (.ok ids, t) ∧ ids.length = drafts.length ∧ t.Spells drafts ids) ∨
          s.Fills drafts) ∧
      (∀ ids, s.Holds drafts ids → s.internOperand drafts = (.ok ids,
        { s with stats := { s.stats with deduplicated := s.stats.deduplicated + drafts.length } })) ∧
      (∀ i error, Draft.FirstFault drafts i error →
        (∃ ids t, s.internOperand (drafts.take i) = (.ok ids, t) ∧ s.internOperand drafts = (.error error, t)) ∨
          s.Fills drafts) ∧
      ∀ parent, (s.internOperand drafts).1 ≠ .error (.unknownParent parent) := by
  have h := hs.wellFormed
  refine ⟨fun hflawless => ?_, fun ids hholds => ?_, fun i error hfirst => ?_, fun parent herror => ?_⟩
  · refine (h.internOperand_of_flawless hflawless).imp_left ?_
    rintro ⟨ids, t, hintern, -, hspells⟩
    exact ⟨ids, t, hintern, hspells.length_eq, hspells⟩
  · exact hholds.spells.2.internOperand_eq h hholds.hasSymbol
  · exact h.internOperand_of_firstFault hfirst
  · obtain ⟨i, ⟨draft, -, hfault⟩, -⟩ | hfull := h.fault_of_error herror
    · cases hfault
    · cases hfull

/-- A store with the memory access and a register. -/
def widened : Store := accessed.after [.create (.register "eax")]

/-- An operand whose second draft is a register that has no name and stands under itself. -/
def misplaced : List (Draft Nat) :=
  [.register "ebx", { kind := .register, parent := some 1 }, .register ""]

/-- The memory access is found again after the register was stored. Of what is wrong with the misplaced register, the
parent is reported, and the register before it stays. -/
theorem internOperand_outcome_misplaced :
    widened.Holds access [⟨0⟩, ⟨1⟩, ⟨2⟩] ∧
      widened.internOperand access = (.ok [⟨0⟩, ⟨1⟩, ⟨2⟩], { widened with stats := ⟨4, 3⟩ }) ∧
      Draft.FirstFault misplaced 1 (.parentOutOfOrder 1 1) ∧
      ∃ t, widened.internOperand (misplaced.take 1) = (.ok [⟨4⟩], t) ∧
        widened.internOperand misplaced = (.error (.parentOutOfOrder 1 1), t) := by
  have hcreate : accessed.create (.register "eax") = .ok (⟨3⟩, widened) := create_eq_ok_of_answer (by decide +kernel)
  have hreach : widened.Reachable := reachable_accessed.step (.create hcreate)
  have haccess : accessed.Holds access [⟨0⟩, ⟨1⟩, ⟨2⟩] := .intern .empty (Prod.ext (by decide +kernel) rfl)
  have hholds : widened.Holds access [⟨0⟩, ⟨1⟩, ⟨2⟩] := haccess.step (.create hcreate) (by decide +kernel)
  have hfirst : Draft.FirstFault misplaced 1 (.parentOutOfOrder 1 1) := by
    have hregister : Draft.Flawless ([] ++ [.register "ebx"]) := Draft.flawless_concat_iff.mpr
      ⟨fun i draft hi => by simp at hi, Draft.not_fault_iff.mpr ⟨by simp [Draft.register], by decide⟩⟩
    exact ⟨⟨_, rfl, .parentOutOfOrder rfl le_rfl⟩, hregister⟩
  obtain ⟨-, hagain, -, -⟩ := hreach.internOperand_outcome access
  obtain ⟨-, -, hfault, -⟩ := hreach.internOperand_outcome misplaced
  refine ⟨hholds, hagain _ hholds, hfirst, ?_⟩
  obtain ⟨ids, t, hinit, hall⟩ | hfills := hfault 1 _ hfirst
  · have hids : (widened.internOperand (misplaced.take 1)).1 = .ok [⟨4⟩] := by decide +kernel
    rw [hinit] at hids
    cases hids
    exact ⟨t, hinit, hall⟩
  · have hroom : widened.size + misplaced.length ≤ capacity := by decide +kernel
    exact absurd hfills.capacity_lt (Nat.not_lt.mpr hroom)

/-! ### A full store -/

/-- Drafts that say different things of themselves have a node each. -/
theorem Spells.length_le_size (h : s.Spells drafts ids) (hdistinct : (drafts.map Draft.link).Nodup) :
    drafts.length ≤ s.size := by
  have hlinks : ids.map (fun id => (s.get? id).map Node.link) = (drafts.map Draft.link).map some := by
    refine List.ext_getElem? fun i => ?_
    rw [List.getElem?_map, List.getElem?_map, List.getElem?_map]
    cases hi : drafts[i]? with
    | none =>
      rw [List.getElem?_eq_none_iff, ← h.length_eq, ← List.getElem?_eq_none_iff] at hi
      rw [hi]
      rfl
    | some draft =>
      obtain ⟨-, id, node, hid, hnode, hlink, -⟩ := h.exists_node hi
      simp [hid, hnode, hlink]
  have hnodup : ids.Nodup := by
    refine .of_map (fun id => (s.get? id).map Node.link) ?_
    rw [hlinks]
    exact hdistinct.map (Option.some_injective _)
  have hsubset : ids ⊆ (List.range s.size).map NodeId.mk := fun id hid =>
    Introduces.mem_places_iff.mpr (h.lt_size hid)
  have hle := (hnodup.subperm hsubset).length_le
  rwa [List.length_map, List.length_range, h.length_eq] at hle

/-- The immediate of a number. -/
def numeral (k : Nat) : Draft Nat := .immediateInt (.ofNat k)

/-- An operand of the immediates of the first `n` numbers. -/
def numerals (n : Nat) : List (Draft Nat) := (List.range n).map numeral

variable {n : Nat}

theorem length_numerals (n : Nat) : (numerals n).length = n := by simp [numerals]

theorem numerals_succ (n : Nat) : numerals (n + 1) = numerals n ++ [numeral n] := by simp [numerals, List.range_succ]

theorem flawless_numerals (n : Nat) : Draft.Flawless (numerals n) := by
  refine Draft.flawless_of_immediates fun draft hdraft => ?_
  obtain ⟨k, -, rfl⟩ := List.mem_map.mp hdraft
  exact ⟨rfl, rfl⟩

theorem flawless_numeral (k : Nat) : Draft.Flawless [numeral k] :=
  Draft.flawless_of_immediates (List.forall_mem_singleton.mpr ⟨rfl, rfl⟩)

theorem nodup_numerals (hn : n ≤ UInt64.size) : ((numerals n).map Draft.link).Nodup := by
  rw [numerals, List.map_map]
  refine List.Nodup.map_on (fun a ha b hb heq => ?_) List.nodup_range
  have hvalue : UInt64.ofNat a = UInt64.ofNat b := congrArg (fun link => link.immediate.toUInt64) heq
  have ha : (UInt64.ofNat a).toNat = a := UInt64.toNat_ofNat_of_lt' ((List.mem_range.mp ha).trans_le hn)
  have hb : (UInt64.ofNat b).toNat = b := UInt64.toNat_ofNat_of_lt' ((List.mem_range.mp hb).trans_le hn)
  rw [← ha, ← hb, hvalue]

/-- The store of the immediates of the first `n` numbers. -/
def counting (n : Nat) : Store := (({} : Store).internOperand (numerals n)).2

theorem reachable_counting (n : Nat) : (counting n).Reachable := Reachable.empty.step (.internOperand _ _)

theorem exists_spells_counting (hn : n ≤ capacity) : ∃ ids, (counting n).Spells (numerals n) ids := by
  obtain ⟨ids, t, hintern, -, hspells⟩ | hfills := wellFormed_empty.internOperand_of_flawless (flawless_numerals n)
  · obtain rfl : counting n = t := congrArg Prod.snd hintern
    exact ⟨ids, hspells⟩
  · have hempty : ({} : Store).size = 0 := rfl
    have hlt := hfills.capacity_lt
    rw [length_numerals, hempty, Nat.zero_add] at hlt
    exact absurd hn (Nat.not_le.mpr hlt)

/-- A store of as many immediates as there are ids has none left for one more. -/
theorem internOperand_counting (hn : n = capacity) :
    ((counting n).internOperand [numeral n]).1 = .error .idSpaceExhausted := by
  have hoperand := (reachable_counting n).wellFormed.internOperand_of_flawless (flawless_numeral n)
  obtain ⟨next, t, hintern, ht, hnext⟩ | hfills := hoperand
  · obtain ⟨ids, hspells⟩ := exists_spells_counting hn.le
    obtain ⟨-, id, node, -, hnode, hlink, hparent⟩ := hnext.exists_node List.getElem?_cons_zero
    obtain rfl : ((counting n).internOperand [numeral n]).2 = t := congrArg Prod.snd hintern
    have hkept : ((counting n).internOperand [numeral n]).2.Spells (numerals n) ids :=
      hspells.of_get? fun _ _ _ => get?_internAfter
    -- All the immediates would have a node each, one more than there are ids.
    have hall := hkept.snoc hnode hlink (fun parent hp => by cases hp) hparent
    rw [← numerals_succ] at hall
    have hfits : n + 1 ≤ UInt64.size := by simp [hn, capacity, UInt32.size, UInt64.size]
    have hle := hall.length_le_size (nodup_numerals hfits)
    have hcapacity := ht.size_le
    rw [length_numerals] at hle
    omega
  · exact hfills.error_eq

/-- A full store refuses a draft with which nothing is wrong if it has no node for it, and does not get to a fault that
comes after it. -/
theorem internOperand_not_complete :
    (¬ ∀ (s : Store) (drafts : List (Draft Nat)), s.Reachable → Draft.Flawless drafts →
      ∃ ids t, s.internOperand drafts = (.ok ids, t) ∧ ids.length = drafts.length) ∧
      ¬ ∀ (s : Store) (drafts : List (Draft Nat)) (i : Nat) (error : Error), s.Reachable →
        Draft.FirstFault drafts i error →
          ∃ ids t, s.internOperand (drafts.take i) = (.ok ids, t) ∧ s.internOperand drafts = (.error error, t) := by
  -- The number is kept as a variable, as the store cannot be computed.
  obtain ⟨n, hn⟩ : ∃ n, n = capacity := ⟨_, rfl⟩
  have hrefused (ids : List NodeId) (t : Store) : (counting n).internOperand [numeral n] ≠ (.ok ids, t) := by
    intro hintern
    have herror := internOperand_counting hn
    rw [hintern] at herror
    cases herror
  constructor
  · intro h
    obtain ⟨ids, t, hintern, -⟩ := h _ _ (reachable_counting n) (flawless_numeral n)
    exact hrefused ids t hintern
  · intro h
    have hfault : (Draft.register "").Fault 1 (.emptySymbol .register) :=
      .emptySymbol (fun parent hp => by cases hp) rfl rfl
    obtain ⟨ids, t, hintern, -⟩ := h _ [numeral n, .register ""] 1 _ (reachable_counting n)
      ⟨⟨_, rfl, hfault⟩, flawless_numeral n⟩
    exact hrefused ids t hintern

end Store

end Disassembly.Expression
