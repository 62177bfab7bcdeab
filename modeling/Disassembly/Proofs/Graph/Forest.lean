import Disassembly.Graph.Forest
import Disassembly.Proofs.Graph.Ancestor
import Disassembly.Proofs.Graph.Checked

/-!
# Path compression

`Forest.Keeps tree f` says that the compressed forest `f` stands for the forest `tree` that was built by
the links alone: a vertex hangs under some vertex above it in `tree`, and its label is the best one of the
vertices from itself up to there, that one left out. Compression keeps this (`Keeps.exists_climb?`), and
so `eval?` finds the best vertex on the whole path up to the root, whatever was compressed before
(`Keeps.exists_eval?`).
-/

namespace Disassembly.Graph.Forest

variable {tree : Nat → Option Nat} {f : Forest} {a b p r u v w x : Nat}

/-- The value of a vertex. -/
def value (f : Forest) (v : Nat) : Nat := f.semi[v]?.getD 0

theorem value_congr {f' : Forest} (h : f'.semi = f.semi) : f'.value = f.value := by
  funext x
  rw [value, value, h]

/-- `u` is a vertex of least value among those from `v` up to but without the vertex `a` above it. -/
structure BestBelow (tree : Nat → Option Nat) (value : Nat → Nat) (a v u : Nat) : Prop where
  /-- `u` is on the path. -/
  above : Ancestor tree u v
  /-- It comes before `a`. -/
  lt : a < u
  /-- No vertex there has a lower value. -/
  least : ∀ w, Ancestor tree w v → a < w → value u ≤ value w

/-- `f` stands for the forest `tree`. -/
structure Keeps (tree : Nat → Option Nat) (f : Forest) : Prop where
  /-- Every vertex lies under a smaller one. -/
  descending : Descending tree
  /-- Only vertices of the forest lie under others. -/
  lt_size : ∀ {v p : Nat}, tree v = some p → v < f.ancestor.size
  /-- Every vertex has a value. -/
  size_semi : f.semi.size = f.ancestor.size
  /-- Every vertex has a label. -/
  size_label : f.label.size = f.ancestor.size
  /-- A root hangs under nothing and is its own label. -/
  root : ∀ {v : Nat}, v < f.ancestor.size → tree v = none →
    f.ancestor[v]? = some none ∧ f.label[v]? = some v
  /-- Any other vertex hangs under one above it, and its label is the best one up to there. -/
  linked : ∀ {v p : Nat}, tree v = some p → ∃ a u, f.ancestor[v]? = some (some a) ∧
    f.label[v]? = some u ∧ Ancestor tree a v ∧ a < v ∧ BestBelow tree f.value a v u

/-- The best of two stretches of a path is the better one of the best of each. -/
theorem BestBelow.join {value : Nat → Nat} (hd : Descending tree) (h : BestBelow tree value a v u)
    (ha : Ancestor tree a v) (h' : BestBelow tree value b a w) (hb : b < a) :
    BestBelow tree value b v (if value w < value u then w else u) := by
  have hbetter : value (if value w < value u then w else u) ≤ value u ∧
      value (if value w < value u then w else u) ≤ value w := by
    split <;> omega
  refine ⟨?_, ?_, fun x hx hbx => ?_⟩
  · split
    · exact h'.above.trans ha
    · exact h.above
  · have := h.lt
    have := h'.lt
    split <;> omega
  · by_cases hax : a < x
    · exact Nat.le_trans hbetter.1 (h.least x hx hax)
    · exact Nat.le_trans hbetter.2 (h'.least x (hx.of_le hd ha (by omega)) hbx)

namespace Keeps

variable (h : Keeps tree f)

include h

theorem semi_eq (hv : v < f.ancestor.size) : f.semi[v]? = some (f.value v) := by
  have hlt : v < f.semi.size := h.size_semi ▸ hv
  simp [value, hlt]

theorem lt_of_above (ha : Ancestor tree a v) (hv : v < f.ancestor.size) : a < f.ancestor.size := by
  have := ha.le h.descending
  omega

/-- A vertex that hangs under another one hangs under one above it. -/
theorem of_ancestor (ha : f.ancestor[v]? = some (some a)) :
    (∃ p, tree v = some p) ∧ ∃ u, f.label[v]? = some u ∧ Ancestor tree a v ∧ a < v ∧
      BestBelow tree f.value a v u := by
  obtain ⟨hv, -⟩ := Array.getElem?_eq_some_iff.mp ha
  cases ht : tree v with
  | none => simp [(h.root hv ht).1] at ha
  | some p =>
    obtain ⟨a', u, ha', hu, hav, hlt, hbest⟩ := h.linked ht
    obtain rfl : a' = a := by simpa [ha'] using ha
    exact ⟨⟨p, rfl⟩, u, hu, hav, hlt, hbest⟩

/-- Hanging a vertex higher, with the better one of two labels. -/
theorem exists_shorten? (ha : f.ancestor[v]? = some (some a)) (hb : f.ancestor[a]? = some (some b)) :
    ∃ f', f.shorten? v = some f' ∧ Keeps tree f' ∧ f'.semi = f.semi ∧
      f'.ancestor = f.ancestor.setIfInBounds v (some b) := by
  obtain ⟨⟨p, hp⟩, u, hu, hav, haltv, hbest⟩ := h.of_ancestor ha
  obtain ⟨-, w, hw, hba, hblta, hbest'⟩ := h.of_ancestor hb
  have hv := h.lt_size hp
  have hvl : v < f.label.size := h.size_label ▸ hv
  have hsu := h.semi_eq (h.lt_of_above hbest.above hv)
  have hsw := h.semi_eq (h.lt_of_above (hbest'.above.trans hav) hv)
  have hjoin := hbest.join h.descending hav hbest' hblta
  let l := if f.value w < f.value u then w else u
  refine ⟨{ f with
    label := f.label.setIfInBounds v l, ancestor := f.ancestor.setIfInBounds v (some b) }, ?_, ?_,
    rfl, rfl⟩
  · simp [shorten?, ha, hb, hu, hw, hsu, hsw, write?_of_size hv, write?_of_size hvl, l]
  · refine
      { descending := h.descending
        lt_size := fun hq => by simpa using h.lt_size hq
        size_semi := by simpa using h.size_semi
        size_label := by simpa using h.size_label
        root := ?_
        linked := ?_ }
    · intro x hx ht
      have hvx : v ≠ x := fun heq => by simp [← heq, hp] at ht
      simpa [getElem?_setIfInBounds_of_lt hv, getElem?_setIfInBounds_of_lt hvl, hvx] using
        h.root (by simpa using hx) ht
    · intro x q hq
      simp only [getElem?_setIfInBounds_of_lt hv, getElem?_setIfInBounds_of_lt hvl]
      by_cases hvx : v = x
      · subst hvx
        exact ⟨b, l, if_pos rfl, if_pos rfl, hba.trans hav, by omega, hjoin⟩
      · obtain ⟨a', u', ha', hu', hrest⟩ := h.linked hq
        exact ⟨a', u', by rw [if_neg hvx, ha'], by rw [if_neg hvx, hu'], hrest⟩

/-- Compressing the path of a vertex hangs it just under its root and touches no greater vertex. -/
theorem exists_climb? {fuel : Nat} (hp : tree v = some p) (hfuel : v < fuel) (rest : List Nat) :
    ∃ path f', f.climb? fuel v rest = some (path ++ rest) ∧ path.foldlM shorten? f = some f' ∧
      Keeps tree f' ∧ f'.semi = f.semi ∧ f'.ancestor.size = f.ancestor.size ∧
      (∀ x, v < x → f'.ancestor[x]? = f.ancestor[x]?) ∧
      ∃ r, f'.ancestor[v]? = some (some r) ∧ tree r = none := by
  induction fuel generalizing v p rest with
  | zero => omega
  | succ fuel ih =>
    obtain ⟨a, u, ha, -, hav, haltv, -⟩ := h.linked hp
    cases hq : tree a with
    | none =>
      have hroot := (h.root (h.lt_of_above hav (h.lt_size hp)) hq).1
      exact ⟨[], f, by simp [climb?, ha, hroot], rfl, h, rfl, rfl, fun _ _ => rfl, a, ha, hq⟩
    | some q =>
      obtain ⟨b, -, hb, -⟩ := h.linked hq
      obtain ⟨path, f₁, hclimb, hfold, h₁, hsemi₁, hsize₁, hsame₁, r, hr, hroot⟩ :=
        ih hq (by omega) (v :: rest)
      rw [← hsame₁ v haltv] at ha
      obtain ⟨f₂, hshort, h₂, hsemi₂, hanc₂⟩ := h₁.exists_shorten? ha hr
      have hv₁ := (Array.getElem?_eq_some_iff.mp ha).1
      refine ⟨path ++ [v], f₂, ?_, ?_, h₂, hsemi₂.trans hsemi₁, ?_, fun x hx => ?_, r, ?_, hroot⟩
      · simp [climb?, hsame₁ v haltv ▸ ha, hb, hclimb]
      · simp [hfold, hshort]
      · simp [hanc₂, hsize₁]
      · rw [hanc₂, getElem?_setIfInBounds_of_lt hv₁, if_neg (by omega), hsame₁ x (by omega)]
      · rw [hanc₂, getElem?_setIfInBounds_of_lt hv₁, if_pos rfl]

/-- Compressing the path of a vertex that hangs under another one goes through, keeps what the forest stands for and its
values, and hangs the vertex just under its root. -/
theorem exists_compress? (hp : tree v = some p) :
    ∃ f', f.compress? v = some f' ∧ Keeps tree f' ∧ f'.semi = f.semi ∧ f'.ancestor.size = f.ancestor.size ∧
      ∃ r, f'.ancestor[v]? = some (some r) ∧ tree r = none := by
  obtain ⟨path, f', hclimb, hfold, hkeeps, hsemi, hsize, -, hroot⟩ := h.exists_climb? hp (h.lt_size hp) []
  rw [List.append_nil] at hclimb
  exact ⟨f', by simp [compress?, hclimb, hfold], hkeeps, hsemi, hsize, hroot⟩

theorem eval?_of_root (hv : v < f.ancestor.size) (hr : tree v = none) : f.eval? v = some (v, f) := by
  simp [eval?, (h.root hv hr).1]

/-- `eval?` gives a vertex that has not been linked back, and else one of least value on the path up to
its root, the root left out; the forest stands for the same tree afterwards. -/
theorem exists_eval? (hv : v < f.ancestor.size) :
    ∃ u f', f.eval? v = some (u, f') ∧ Keeps tree f' ∧ f'.semi = f.semi ∧
      f'.ancestor.size = f.ancestor.size ∧ Ancestor tree u v ∧ (tree u = none → u = v) ∧
      ∀ w, Ancestor tree w v → tree w ≠ none → f.value u ≤ f.value w := by
  cases hp : tree v with
  | none =>
    refine ⟨v, f, h.eval?_of_root hv hp, h, rfl, rfl, .refl, fun _ => rfl, ?_⟩
    intro w hw hne
    exact absurd (hw.of_root hp ▸ hp) hne
  | some p =>
    obtain ⟨f₁, hcompress, h₁, hsemi, hsize, r, hr, hroot⟩ := h.exists_compress? hp
    obtain ⟨-, u, hu, hrv, hrlt, hbest⟩ := h₁.of_ancestor hr
    obtain ⟨a, -, ha, -⟩ := h.linked hp
    have hvalue := value_congr hsemi
    refine ⟨u, f₁, ?_, h₁, hsemi, hsize, hbest.above, fun hnone => ?_, fun w hw hne => ?_⟩
    · simp [eval?, ha, hcompress, hu]
    · have := (hrv.of_le h.descending hbest.above (by have := hbest.lt; omega)).of_root hnone
      have := hbest.lt
      omega
    · refine hvalue ▸ hbest.least w hw (Decidable.byContradiction fun hle => hne ?_)
      exact (hw.of_le h.descending hrv (by omega)).of_root hroot ▸ hroot

/-- The value of a root may change: no path to a root counts it. -/
theorem setSemi {m : Nat} (hr : tree r = none) :
    Keeps tree { f with semi := f.semi.setIfInBounds r m } := by
  refine
    { descending := h.descending
      lt_size := h.lt_size
      size_semi := by simpa using h.size_semi
      size_label := h.size_label
      root := h.root
      linked := fun {v p} hp => ?_ }
  obtain ⟨a, u, ha, hu, hav, hlt, hbest⟩ := h.linked hp
  have hvalue {x : Nat} (hx : Ancestor tree x v) (hax : a < x) :
      value { f with semi := f.semi.setIfInBounds r m } x = f.value x := by
    have hne : r ≠ x := by
      rintro rfl
      have := (hav.of_le h.descending hx (by omega)).of_root hr
      omega
    simp [value, hne]
  refine ⟨a, u, ha, hu, hav, hlt, hbest.above, hbest.lt, fun x hx hax => ?_⟩
  rw [hvalue hbest.above hbest.lt, hvalue hx hax]
  exact hbest.least x hx hax

/-- Linking a root under a smaller vertex. -/
theorem exists_link? (hr : tree w = none) (hw : w < f.ancestor.size) (hp : p < w) :
    ∃ f', f.link? p w = some f' ∧ Keeps (fun v => if v = w then some p else tree v) f' ∧
      f'.semi = f.semi ∧ f'.ancestor.size = f.ancestor.size := by
  have hempty := (h.root hw hr).1
  have hsub {v q : Nat} (hq : tree v = some q) : (if v = w then some p else tree v) = some q := by
    rw [if_neg (fun heq => by simp [heq, hr] at hq), hq]
  have hd : Descending fun v => if v = w then some p else tree v := by
    intro q v hq
    simp only at hq
    split at hq
    · obtain rfl := Option.some.inj hq
      omega
    · exact h.descending hq
  refine ⟨{ f with ancestor := f.ancestor.setIfInBounds w (some p) }, ?_, ?_, rfl, by simp⟩
  · simp [link?, fill?_of_empty hempty]
  · refine
      { descending := hd
        lt_size := fun {v q} hq => ?_
        size_semi := by simpa using h.size_semi
        size_label := by simpa using h.size_label
        root := fun {v} hv ht => ?_
        linked := fun {v q} hq => ?_ }
    · simp only [Array.size_setIfInBounds] at hq ⊢
      split at hq
      · omega
      · exact h.lt_size hq
    · simp only [Array.size_setIfInBounds] at hv ht ⊢
      split at ht
      · simp at ht
      · rw [getElem?_setIfInBounds_of_lt hw, if_neg (by omega)]
        exact h.root hv ht
    · simp only [getElem?_setIfInBounds_of_lt hw] at hq ⊢
      by_cases hvw : v = w
      · subst hvw
        refine ⟨p, v, if_pos rfl, (h.root hw hr).2, .of_above (if_pos rfl), hp, .refl, hp, ?_⟩
        intro x hx hpx
        by_cases hxv : x = v
        · exact hxv ▸ Nat.le_refl _
        · obtain ⟨q', hq', hx⟩ := hx.of_ne hxv
          rw [if_pos rfl, Option.some.injEq] at hq'
          have := hx.le hd
          omega
      · rw [if_neg hvw] at hq
        obtain ⟨a, u, ha, hu, hav, hlt, hbest⟩ := h.linked hq
        refine ⟨a, u, by rw [if_neg (Ne.symm hvw), ha], hu, hav.mono hsub, hlt,
          hbest.above.mono hsub, hbest.lt, fun x hx hax => ?_⟩
        exact hbest.least x (hav.of_extended hd hsub hx hax) hax

end Keeps

/-- The forest of single vertices stands for the tree without links. -/
theorem keeps_singletons (count : Nat) : Keeps (fun _ => none) (singletons count) := by
  refine
    { descending := by simp [Descending]
      lt_size := by simp
      size_semi := by simp [singletons]
      size_label := by simp [singletons]
      root := ?_
      linked := by simp }
  intro v hv _
  simp only [singletons, Array.size_replicate] at hv
  simp [singletons, hv]

end Disassembly.Graph.Forest
