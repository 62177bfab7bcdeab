import Mathlib.Data.List.Induction
import Disassembly.Proofs.Graph.Forest

/-!
# Runs of a forest

What a forest may be asked for (`Forest.Call`) and the tree that the links among some calls make (`Forest.linkedBy`).
After orderly calls a forest stands for that tree (`keeps_of_orderly`), which is all that its answers depend on:
`eval?` finds the best vertex on the path of the tree (`Keeps.exists_best`), and two forests that stand for the same
tree with the same values have the same roots (`Keeps.isRootOf_iff`) and yield the same least values
(`Keeps.yield?_congr`).
-/

namespace Disassembly.Graph.Forest

variable {tree : Nat → Option Nat} {f f' : Forest} {p r u v w x : Nat}

/-! ### Calls -/

/-- What a forest may be asked for. -/
inductive Call where
  /-- The best vertex on the path of `v`. -/
  | eval (v : Nat)
  /-- Another value for `v`. -/
  | lower (v value : Nat)
  /-- To hang the tree of the root `child` under `parent`. -/
  | link (parent child : Nat)
  deriving DecidableEq, Repr

variable {call : Call} {calls more : List Call}

/-- The forest after a call. -/
def perform? (f : Forest) : Call → Option Forest
  | .eval v => (f.eval? v).map Prod.snd
  | .lower v value => (write? f.semi v value).map fun semi => { f with semi }
  | .link parent child => f.link? parent child

/-- The forest after some calls. -/
def after? (f : Forest) (calls : List Call) : Option Forest := calls.foldlM perform? f

/-- The tree after a call: only a link changes it. -/
def Call.hang (tree : Nat → Option Nat) : Call → Nat → Option Nat
  | .eval _ | .lower _ _ => tree
  | .link parent child => fun v => if v = child then some parent else tree v

/-- The tree that the links among some calls make of single vertices: what lies above each of them. -/
def linkedBy (calls : List Call) : Nat → Option Nat := calls.foldl Call.hang fun _ => none

/-- Whether the call may be made of a forest with the given tree: vertices are linked under smaller ones, and the value
of a vertex does not change once it is linked. -/
def Call.Allowed (tree : Nat → Option Nat) : Call → Prop
  | .eval _ => True
  | .lower v _ => tree v = none
  | .link parent child => parent < child

instance (tree : Nat → Option Nat) (call : Call) : Decidable (call.Allowed tree) :=
  match call with
  | .eval _ => inferInstanceAs (Decidable True)
  | .lower v _ => inferInstanceAs (Decidable (tree v = none))
  | .link parent child => inferInstanceAs (Decidable (parent < child))

/-- Every call is allowed after those before it. -/
def Orderly (calls : List Call) : Prop := ∀ before call, before ++ [call] <+: calls → call.Allowed (linkedBy before)

theorem after?_append (f : Forest) (calls more : List Call) :
    f.after? (calls ++ more) = (f.after? calls).bind (after? · more) := by
  rw [after?, List.foldlM_append]
  rfl

theorem after?_concat (f : Forest) (calls : List Call) (call : Call) :
    f.after? (calls ++ [call]) = (f.after? calls).bind (perform? · call) := by
  rw [after?_append]
  simp [after?]

theorem linkedBy_concat (calls : List Call) (call : Call) :
    linkedBy (calls ++ [call]) = call.hang (linkedBy calls) := by
  rw [linkedBy, List.foldl_append]
  rfl

theorem orderly_nil : Orderly [] := fun before call h => by simp at h

theorem Orderly.of_prefix (h : Orderly calls) (hmore : more <+: calls) : Orderly more :=
  fun before call hbefore => h before call (hbefore.trans hmore)

theorem orderly_concat_iff : Orderly (calls ++ [call]) ↔ Orderly calls ∧ call.Allowed (linkedBy calls) := by
  constructor
  · intro h
    exact ⟨h.of_prefix (List.prefix_append _ _), h calls call (List.prefix_refl _)⟩
  · rintro ⟨h, hallowed⟩ before other hbefore
    rcases List.prefix_concat_iff.mp hbefore with heq | hbefore
    · obtain ⟨rfl, hsame⟩ := List.append_inj' heq rfl
      obtain rfl := List.singleton_inj.mp hsame
      exact hallowed
    · exact h before other hbefore

theorem orderly_iff_getElem :
    Orderly calls ↔ ∀ i, (hi : i < calls.length) → calls[i].Allowed (linkedBy (calls.take i)) := by
  constructor
  · intro h i hi
    refine h (calls.take i) calls[i] ?_
    rw [← List.take_succ_eq_append_getElem hi]
    exact List.take_prefix (i + 1) calls
  · rintro h before call ⟨rest, rfl⟩
    simpa using h before.length (by simp)

instance (calls : List Call) : Decidable (Orderly calls) := decidable_of_iff _ orderly_iff_getElem.symm

/-! ### What a forest stands for after some calls -/

/-- A call that is allowed changes a forest as it changes the tree. -/
theorem Keeps.perform? (h : Keeps tree f) (hallowed : call.Allowed tree) (hcall : f.perform? call = some f') :
    Keeps (call.hang tree) f' ∧ f'.ancestor.size = f.ancestor.size := by
  cases call with
  | eval v =>
    have hv : v < f.ancestor.size := by
      refine Nat.lt_of_not_le fun hle => ?_
      simp [Forest.perform?, eval?, Array.getElem?_eq_none hle] at hcall
    obtain ⟨u, f₁, heval, hkeeps, -, hsize, -⟩ := h.exists_eval? hv
    obtain rfl : f₁ = f' := by simpa [Forest.perform?, heval] using hcall
    exact ⟨hkeeps, hsize⟩
  | lower v value =>
    obtain ⟨semi, hsemi, rfl⟩ := Option.map_eq_some_iff.mp hcall
    obtain ⟨hv, rfl⟩ := write?_eq_some_iff.mp hsemi
    have hkeeps := h.setSemi (m := value) hallowed
    rw [Array.setIfInBounds, dif_pos hv] at hkeeps
    exact ⟨hkeeps, rfl⟩
  | link p w =>
    obtain ⟨ancestor, hancestor, -⟩ := Option.bind_eq_some_iff.mp hcall
    have hempty : f.ancestor[w]? = some none := by
      unfold fill? at hancestor
      split at hancestor
      · assumption
      · cases hancestor
    have hroot : tree w = none := by
      refine Option.eq_none_iff_forall_ne_some.mpr fun q hq => ?_
      obtain ⟨a, -, ha, -⟩ := h.linked hq
      simp [hempty] at ha
    obtain ⟨f₁, hlink, hkeeps, -, hsize⟩ :=
      h.exists_link? hroot (Array.getElem?_eq_some_iff.mp hempty).1 hallowed
    obtain rfl : f₁ = f' := Option.some.inj (hlink.symm.trans hcall)
    exact ⟨hkeeps, hsize⟩

/-- After orderly calls a forest stands for the tree that the links among them make. -/
theorem keeps_of_orderly {count : Nat} (h : Orderly calls) (hcalls : (singletons count).after? calls = some f) :
    Keeps (linkedBy calls) f ∧ f.ancestor.size = count := by
  induction calls using List.reverseRecOn generalizing f with
  | nil =>
    obtain rfl : singletons count = f := by simpa [after?] using hcalls
    exact ⟨keeps_singletons count, by simp [singletons]⟩
  | append_singleton calls call ih =>
    obtain ⟨hbefore, hallowed⟩ := orderly_concat_iff.mp h
    rw [after?_concat] at hcalls
    obtain ⟨f₁, hf₁, hcall⟩ := Option.bind_eq_some_iff.mp hcalls
    obtain ⟨hkeeps, hsize⟩ := ih hbefore hf₁
    obtain ⟨hkeeps', hsize'⟩ := hkeeps.perform? hallowed hcall
    exact ⟨linkedBy_concat calls call ▸ hkeeps', hsize'.trans hsize⟩

/-! ### Answers -/

/-- `u` is on the path of `v` in a tree: it is `v` or lies above it, and is not the root. -/
def OnPath (tree : Nat → Option Nat) (v u : Nat) : Prop := Ancestor tree u v ∧ tree u ≠ none

/-- The vertex under which a vertex hangs in the compressed forest. -/
def above (f : Forest) (v : Nat) : Option Nat := f.ancestor[v]?.join

/-- `r` is the root to which one comes from `v` in the compressed forest. -/
def IsRootOf (f : Forest) (r v : Nat) : Prop := Ancestor f.above r v ∧ f.above r = none

/-- The least value on the path of `v`, as `eval?` finds it. -/
def yield? (f : Forest) (v : Nat) : Option Nat := (f.eval? v).bind fun (u, f) => f.semi[u]?

theorem yield?_of_size_le (hv : f.ancestor.size ≤ v) : f.yield? v = none := by
  simp [yield?, eval?, Array.getElem?_eq_none hv]

namespace Keeps

section

variable (h : Keeps tree f)

include h

theorem above_eq_none_iff : f.above v = none ↔ tree v = none := by
  cases hp : tree v with
  | some p =>
    obtain ⟨a, -, ha, -⟩ := h.linked hp
    simp [Forest.above, ha]
  | none =>
    by_cases hv : v < f.ancestor.size
    · simp [Forest.above, (h.root hv hp).1]
    · simp [Forest.above, Array.getElem?_eq_none (Nat.le_of_not_lt hv)]

/-- Compressed paths end where those of the tree end. -/
theorem isRootOf_iff : f.IsRootOf r x ↔ Ancestor tree r x ∧ tree r = none := by
  rw [IsRootOf, h.above_eq_none_iff]
  refine and_congr_left fun hroot => ?_
  constructor
  · intro hr
    induction hr with
    | refl => exact .refl
    | @up a x ha _ ih =>
      obtain ⟨-, -, -, hax, -⟩ := h.of_ancestor (Option.join_eq_some_iff.mp ha)
      exact ih.trans hax
  · intro hr
    induction x using Nat.strongRecOn with
    | ind x ih =>
      cases hp : tree x with
      | none => exact hr.of_root hp ▸ .refl
      | some p =>
        obtain ⟨a, -, ha, -, hax, hlt, -⟩ := h.linked hp
        refine .up (Option.join_eq_some_iff.mpr ha) (ih a hlt ?_)
        rcases Nat.le_total r a with hle | hle
        · exact hr.of_le h.descending hax hle
        · exact (hax.of_le h.descending hr hle).of_root hroot ▸ .refl

/-- `eval?` of a vertex that was linked gives a best vertex on its path. -/
theorem exists_best (hp : tree v ≠ none) :
    ∃ u f', f.eval? v = some (u, f') ∧ f'.semi[u]? = some (f.value u) ∧ OnPath tree v u ∧
      ∀ w, OnPath tree v w → f.value u ≤ f.value w := by
  obtain ⟨p, hp'⟩ := Option.ne_none_iff_exists'.mp hp
  have hv := h.lt_size hp'
  obtain ⟨u, f', heval, hkeeps, hsemi, hsize, hu, hroot, hleast⟩ := h.exists_eval? hv
  have hvalue : f'.semi[u]? = some (f.value u) := by
    rw [hkeeps.semi_eq (hkeeps.lt_of_above hu (hsize ▸ hv)), value_congr hsemi]
  exact ⟨u, f', heval, hvalue, ⟨hu, fun hnone => hp (hroot hnone ▸ hnone)⟩, fun w hw => hleast w hw.1 hw.2⟩

theorem yield?_of_root (hv : v < f.ancestor.size) (hr : tree v = none) : f.yield? v = some (f.value v) := by
  simp [yield?, h.eval?_of_root hv hr, h.semi_eq hv]

/-- Forests that stand for the same tree with the same values yield the same, however they are compressed. -/
theorem yield?_congr (h' : Keeps tree f') (hsemi : f'.semi = f.semi) (x : Nat) : f'.yield? x = f.yield? x := by
  have hvalue := value_congr hsemi
  have hsize : f'.ancestor.size = f.ancestor.size := by rw [← h'.size_semi, ← h.size_semi, hsemi]
  by_cases hx : x < f.ancestor.size
  · cases hp : tree x with
    | none => rw [h.yield?_of_root hx hp, h'.yield?_of_root (hsize ▸ hx) hp, hvalue]
    | some p =>
      have hne : tree x ≠ none := by simp [hp]
      obtain ⟨u, g, heval, hu, hpath, hleast⟩ := h.exists_best hne
      obtain ⟨u', g', heval', hu', hpath', hleast'⟩ := h'.exists_best hne
      rw [hvalue] at hu' hleast'
      have hsame : f.value u' = f.value u := Nat.le_antisymm (hleast' u hpath) (hleast u' hpath')
      simp [yield?, heval, heval', hu, hu', hsame]
  · rw [yield?_of_size_le (Nat.le_of_not_lt hx), yield?_of_size_le (hsize ▸ Nat.le_of_not_lt hx)]

end

end Keeps

end Disassembly.Graph.Forest
