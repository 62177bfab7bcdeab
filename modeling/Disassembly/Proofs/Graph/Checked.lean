import Disassembly.Graph.Cell

/-!
# Checked runs

When a run of checked steps has a result, and what it keeps. `exists_foldlM` is the rule for a loop over
a list: a property of the state and of what is left of the list that every step keeps holds at the end,
and no step fails.
-/

namespace Disassembly.Graph

variable {α β σ : Type}

/-! ### Loops -/

theorem exists_foldlM {f : σ → α → Option σ} (P : List α → σ → Prop)
    (step : ∀ a l s, P (a :: l) s → ∃ s', f s a = some s' ∧ P l s') {l : List α} {s : σ}
    (h : P l s) : ∃ s', l.foldlM f s = some s' ∧ P [] s' := by
  induction l generalizing s with
  | nil => exact ⟨s, rfl, h⟩
  | cons a l ih =>
    obtain ⟨s₁, h₁, hP⟩ := step a l s h
    obtain ⟨s₂, h₂, hP⟩ := ih hP
    exact ⟨s₂, by rw [List.foldlM_cons, h₁]; exact h₂, hP⟩

/-- The steps need only go through for the items of the list. -/
theorem exists_foldlM_of_mem {f : σ → α → Option σ} {P : List α → σ → Prop} {l : List α} {s : σ}
    (step : ∀ a ∈ l, ∀ l' s, P (a :: l') s → ∃ s', f s a = some s' ∧ P l' s') (h : P l s) :
    ∃ s', l.foldlM f s = some s' ∧ P [] s' := by
  obtain ⟨s', hs', hP, -⟩ := exists_foldlM (fun l' s => P l' s ∧ ∀ a ∈ l', a ∈ l) (fun a l' s ⟨hs, hsub⟩ => by
    obtain ⟨s', hs', hP⟩ := step a (hsub a (.head _)) l' s hs
    exact ⟨s', hs', hP, fun b hb => hsub b (.tail _ hb)⟩) ⟨h, fun _ ha => ha⟩
  exact ⟨s', hs', hP⟩

/-- What every step keeps is kept by a loop that goes through. -/
theorem of_foldlM {f : σ → α → Option σ} {P : σ → Prop} {l : List α} {s s' : σ}
    (step : ∀ s a s', f s a = some s' → P s → P s') (h : l.foldlM f s = some s') (hs : P s) : P s' := by
  induction l generalizing s with
  | nil =>
    obtain rfl : s = s' := by simpa using h
    exact hs
  | cons a l ih =>
    rw [List.foldlM_cons] at h
    obtain ⟨s₁, hs₁, hrest⟩ := Option.bind_eq_some_iff.mp h
    exact ih hrest (step s a s₁ hs₁ hs)

/-- Loops whose steps are the same up to a map of their states are. -/
theorem map_foldlM {τ : Type} {π : σ → τ} {f : σ → α → Option σ} {g : τ → α → Option τ}
    (h : ∀ s a, (f s a).map π = g (π s) a) (l : List α) (s : σ) :
    (l.foldlM f s).map π = l.foldlM g (π s) := by
  induction l generalizing s with
  | nil => rfl
  | cons a l ih =>
    rw [List.foldlM_cons, List.foldlM_cons, ← h]
    cases f s a with
    | none => rfl
    | some s' => exact ih s'

/-! ### Mapping a list -/

variable {f : α → Option β} {l : List α} {bs : List β}

/-- A list is mapped if each of its items is. -/
theorem exists_mapM (h : ∀ a ∈ l, ∃ b, f a = some b) : ∃ bs, l.mapM f = some bs := by
  induction l with
  | nil => exact ⟨[], rfl⟩
  | cons a l ih =>
    obtain ⟨b, hb⟩ := h a (.head _)
    obtain ⟨bs, hbs⟩ := ih fun a ha => h a (.tail _ ha)
    exact ⟨b :: bs, by simp [hb, hbs]⟩

theorem mapM_cons_eq_some {a : α} (h : (a :: l).mapM f = some bs) :
    ∃ b bs', f a = some b ∧ l.mapM f = some bs' ∧ bs = b :: bs' := by
  simp only [List.mapM_cons, Option.bind_eq_bind, Option.bind_eq_some_iff, Option.pure_def,
    Option.some.injEq] at h
  obtain ⟨b, hb, bs', hbs', rfl⟩ := h
  exact ⟨b, bs', hb, hbs', rfl⟩

/-- Every place of the result comes from that place of the list. -/
theorem getElem?_of_mapM (h : l.mapM f = some bs) (i : Nat) : bs[i]? = l[i]?.bind f := by
  induction l generalizing bs i with
  | nil =>
    obtain rfl : [] = bs := by simpa using h
    simp
  | cons a l ih =>
    obtain ⟨b, bs', hb, hbs', rfl⟩ := mapM_cons_eq_some h
    cases i with
    | zero => simp [hb]
    | succ i => simpa using ih hbs' i

theorem length_of_mapM (h : l.mapM f = some bs) : bs.length = l.length := by
  induction l generalizing bs with
  | nil =>
    obtain rfl : [] = bs := by simpa using h
    rfl
  | cons a l ih =>
    obtain ⟨b, bs', -, hbs', rfl⟩ := mapM_cons_eq_some h
    rw [List.length_cons, List.length_cons, ih hbs']

theorem mem_of_mapM (h : l.mapM f = some bs) (b : β) : b ∈ bs ↔ ∃ a ∈ l, f a = some b := by
  constructor
  · intro hb
    obtain ⟨i, hi⟩ := List.mem_iff_getElem?.mp hb
    rw [getElem?_of_mapM h, Option.bind_eq_some_iff] at hi
    obtain ⟨a, ha, hfa⟩ := hi
    exact ⟨a, List.mem_of_getElem? ha, hfa⟩
  · rintro ⟨a, ha, hfa⟩
    obtain ⟨i, hi⟩ := List.mem_iff_getElem?.mp ha
    refine List.mem_of_getElem? (i := i) ?_
    rw [getElem?_of_mapM h, hi, Option.bind_some, hfa]

/-! ### Writing -/

/-- Filling an empty cell. -/
theorem fill?_of_empty {cells : Array (Option α)} {i : Nat} (h : cells[i]? = some none) (a : α) :
    fill? cells i a = some (cells.setIfInBounds i (some a)) := by
  obtain ⟨hi, -⟩ := Array.getElem?_eq_some_iff.mp h
  rw [fill?, h]
  simp [write?, hi, Array.setIfInBounds]

theorem write?_of_size {cells : Array α} {i : Nat} (h : i < cells.size) (a : α) :
    write? cells i a = some (cells.setIfInBounds i a) := by
  simp [write?, h, Array.setIfInBounds]

/-- What a cell holds after a write to a place of the array. -/
theorem getElem?_setIfInBounds_of_lt {cells : Array α} {i : Nat} (h : i < cells.size) (a : α)
    (j : Nat) : (cells.setIfInBounds i a)[j]? = if i = j then some a else cells[j]? := by
  simp [Array.getElem?_setIfInBounds, h]

end Disassembly.Graph
