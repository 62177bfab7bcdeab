import Disassembly.Proofs.Expression.Operand

/-!
# The numbering of nodes

Ids are given out in the order of first creation. So in the ids that answer a row of requests, those of new
nodes come first in ascending order, without a gap from the size of the store before to its size afterwards
(`Introduces`), and starting from an empty store the row names every node, the first occurrences in order
(`Introduces.eraseDups`). `Stored` adds what else is known of requests that all succeeded: each of them was
counted, and each draft has the symbol that its kind needs.
-/

namespace Disassembly.Expression

/-! ### New ids in ascending order -/

/-- The ids of a row are known, or are the next new one: there are `n` known ones before the row and `m`
after it. -/
inductive Introduces : Nat → List NodeId → Nat → Prop where
  /-- An empty row. -/
  | nil (n : Nat) : Introduces n [] n
  /-- A known id comes first. -/
  | known {n m : Nat} {id : NodeId} {ids : List NodeId} :
    id.index < n → Introduces n ids m → Introduces n (id :: ids) m
  /-- The next new id comes first. -/
  | new {n m : Nat} {ids : List NodeId} : Introduces (n + 1) ids m → Introduces n (⟨n⟩ :: ids) m

namespace Introduces

variable {n m k : Nat} {id : NodeId} {ids ids' : List NodeId}

theorem append (h : Introduces n ids m) (h' : Introduces m ids' k) : Introduces n (ids ++ ids') k := by
  induction h with
  | nil n => exact h'
  | known hid _ ih => exact .known hid (ih h')
  | new _ ih => exact .new (ih h')

/-- No id is taken back. -/
theorem le (h : Introduces n ids m) : n ≤ m := by
  induction h with
  | nil n => exact Nat.le_refl n
  | known _ _ ih => exact ih
  | new _ ih => exact (Nat.le_succ _).trans ih

/-- A row adds no more ids than it has. -/
theorem le_add_length (h : Introduces n ids m) : m ≤ n + ids.length := by
  induction h with
  | nil n => exact Nat.le_refl n
  | known _ _ ih =>
    rw [List.length_cons]
    omega
  | new _ ih =>
    rw [List.length_cons]
    omega

/-- There are more ids afterwards if one of the row was not known before. -/
theorem lt_iff (h : Introduces n ids m) : n < m ↔ ∃ id ∈ ids, n ≤ id.index := by
  induction h with
  | nil n => simp
  | known hid _ ih =>
    rw [ih]
    simp [Nat.not_le.mpr hid]
  | new hrest ih => simp [Nat.lt_of_succ_le hrest.le]

theorem mem_places_iff : id ∈ (List.range n).map NodeId.mk ↔ id.index < n := by
  obtain ⟨i⟩ := id
  simp

theorem eraseDups_places (n : Nat) :
    ((List.range n).map NodeId.mk).eraseDups = (List.range n).map NodeId.mk := by
  induction n with
  | zero => rfl
  | succ n ih =>
    rw [List.range_succ, List.map_append, List.eraseDups_append, ih]
    simp [List.removeAll, List.eraseDups_cons]

/-- A row after all known ids, without repetitions: the ids known afterwards. -/
theorem eraseDups_places_append (h : Introduces n ids m) :
    ((List.range n).map NodeId.mk ++ ids).eraseDups = (List.range m).map NodeId.mk := by
  induction h with
  | nil n => rw [List.append_nil, eraseDups_places]
  | @known n m id ids hid _ ih =>
    rw [← ih, List.eraseDups_append, List.eraseDups_append, List.cons_removeAll,
      if_neg (by simpa using mem_places_iff.mpr hid)]
  | @new n m ids _ ih =>
    rw [← ih, List.range_succ, List.map_append, List.map_singleton, List.append_assoc,
      List.singleton_append]

/-- A row that starts without known ids names all there are in the end, in their order. -/
theorem eraseDups (h : Introduces 0 ids m) : ids.eraseDups = (List.range m).map NodeId.mk :=
  h.eraseDups_places_append

end Introduces

theorem Draft.lacksSymbol_of_resolveParent {draft : Draft Nat} {resolved : Draft NodeId} {ids : Array NodeId}
    (h : draft.resolveParent ids = .ok resolved) : draft.lacksSymbol = resolved.lacksSymbol := by
  unfold resolveParent at h
  split at h
  · cases h
    rfl
  · split at h
    · cases h
      rfl
    · cases h

namespace Store

variable {s t u : Store} {draft : Draft NodeId} {drafts drafts' : List (Draft Nat)} {id : NodeId}
  {ids ids' : List NodeId}

/-- A request is answered with a known id, or with the next new one. -/
theorem WellFormed.introduces_of_create (h : s.WellFormed) (hcreate : s.create draft = .ok (id, t)) :
    Introduces s.size [id] t.size := by
  obtain ⟨-, -, ⟨hknown, rfl⟩ | ⟨-, -, happend⟩⟩ := create_cases hcreate
  · obtain ⟨node, hnode, -⟩ := signature?_eq_some_iff.mp (h.known_iff.mp hknown)
    exact .known (lt_size hnode) (.nil _)
  · obtain rfl : t = (s.append draft).2 := congrArg Prod.snd happend
    obtain rfl : id = ⟨s.size⟩ := congrArg Prod.fst happend
    rw [size_append]
    exact .new (.nil _)

theorem answered_of_create (hcreate : s.create draft = .ok (id, t)) :
    t.stats.created + t.stats.deduplicated = s.stats.created + s.stats.deduplicated + 1 := by
  obtain ⟨-, -, ⟨-, rfl⟩ | ⟨-, -, happend⟩⟩ := create_cases hcreate
  · rfl
  · obtain rfl : t = (s.append draft).2 := congrArg Prod.snd happend
    exact Nat.add_right_comm _ 1 _

/-! ### Rows of requests -/

/-- What a row of drafts, each answered with an id, did to a store. -/
structure Stored (s : Store) (drafts : List (Draft Nat)) (ids : List NodeId) (t : Store) : Prop where
  /-- New ids were given out in order. -/
  introduces : Introduces s.size ids t.size
  /-- Every request was counted. -/
  answered_eq : t.stats.created + t.stats.deduplicated =
    s.stats.created + s.stats.deduplicated + drafts.length
  /-- Every draft has the symbol that its kind needs. -/
  hasSymbol : ∀ draft ∈ drafts, draft.lacksSymbol = false

theorem Stored.nil (s : Store) : s.Stored [] [] s := ⟨.nil _, rfl, by simp⟩

theorem Stored.append (h : s.Stored drafts ids u) (h' : u.Stored drafts' ids' t) :
    s.Stored (drafts ++ drafts') (ids ++ ids') t where
  introduces := h.introduces.append h'.introduces
  answered_eq := by
    rw [h'.answered_eq, h.answered_eq, List.length_append]
    omega
  hasSymbol := List.forall_mem_append.mpr ⟨h.hasSymbol, h'.hasSymbol⟩

theorem WellFormed.exists_stored {before : Array NodeId} {out : List NodeId} (h : s.WellFormed)
    (hout : s.internAfter before drafts = (.ok out, t)) :
    ∃ ids, out = before.toList ++ ids ∧ s.Stored drafts ids t := by
  induction drafts generalizing s before with
  | nil =>
    cases hout
    exact ⟨[], (List.append_nil _).symm, .nil _⟩
  | cons draft drafts ih =>
    unfold Store.internAfter at hout
    cases hresolve : draft.resolveParent before with
    | error place =>
      rw [hresolve] at hout
      cases hout
    | ok resolved =>
      rw [hresolve] at hout
      cases hcreate : s.create resolved with
      | error error =>
        simp only [hcreate] at hout
        cases hout
      | ok answer =>
        obtain ⟨id, u⟩ := answer
        simp only [hcreate] at hout
        obtain ⟨ids, rfl, hstored⟩ := ih (h.create hcreate) hout
        refine ⟨id :: ids, by simp, ?_⟩
        have hfirst : s.Stored [draft] [id] u := {
          introduces := h.introduces_of_create hcreate
          answered_eq := answered_of_create hcreate
          hasSymbol := by
            rw [List.forall_mem_singleton, Draft.lacksSymbol_of_resolveParent hresolve]
            exact (create_cases hcreate).1 }
        exact hfirst.append hstored

theorem WellFormed.stored (h : s.WellFormed) (hout : s.internOperand drafts = (.ok ids, t)) :
    s.Stored drafts ids t := by
  obtain ⟨ids, rfl, hstored⟩ := h.exists_stored hout
  exact hstored

end Store

end Disassembly.Expression
