import Mathlib.Order.Bounds.Defs
import Disassembly.Proofs.Graph.ForestRuns
import Disassembly.Proofs.Graph.Progress

/-!
# The course of a run

`Course.finish?` is `Progress.finish?` with a log of what happens: what the forest is asked for, and which vertex goes
into which bucket, comes out of it again and is given a relative dominator. Without the log it is the same run
(`Course.map_finish?`), and the log leaves nothing out: the events in it, one after the other, make of the start what
the run comes to (`Course.told_of_finish?`).

`Course.Recorded t k` adds to `Progress.SeenFrom t k` what the log tells. The calls in it were allowed and lead to the
forest as it is (`Course.Faithful`), and what happened to a vertex depends on where it is: nothing before it is seen,
and one thing more each time it goes on, into a bucket, out of it, and off to the relative dominators. In the end every
vertex but the root has gone all the way once, and its value is its semidominator (`Course.semidominators_found`).
-/

namespace Disassembly.Graph

/-! ### Events -/

/-- What happens while vertices are seen. -/
inductive Event where
  /-- The forest was asked for something. -/
  | asked (call : Forest.Call)
  /-- `v` was put into the bucket of `q`. -/
  | placed (v q : Nat)
  /-- `v` was taken out of the bucket of `q`. -/
  | removed (v q : Nat)
  /-- `d` became the relative dominator of `v`. -/
  | assigned (v d : Nat)
  deriving DecidableEq, Repr

namespace Event

/-- What the forest was asked for, if it was. -/
def call? : Event → Option Forest.Call
  | asked call => some call
  | placed _ _ | removed _ _ | assigned _ _ => none

/-- Whether something happened to `v`: asking the forest does nothing to a vertex. -/
def concerns (v : Nat) : Event → Bool
  | asked _ => false
  | placed u _ | removed u _ | assigned u _ => u == v

end Event

/-- The progress after an event, if that can happen: only what is in a bucket is taken out of it, and a vertex is given
a relative dominator once. -/
def Progress.undergo? (s : Progress) : Event → Option Progress
  | .asked call => do return { s with forest := ← s.forest.perform? call }
  | .placed v q => do return { s with bucket := ← write? s.bucket q ((← s.bucket[q]?) ++ [v]) }
  | .removed v q => do
    let waiting ← s.bucket[q]?
    if v ∈ waiting then return { s with bucket := ← write? s.bucket q (waiting.erase v) } else none
  | .assigned v d => do return { s with relative := ← fill? s.relative v d }

/-- A run of the progress with all that happened in it, the latest last. -/
structure Course extends Progress where
  /-- What happened so far. -/
  log : List Event := []

namespace Course

/-- What the forest was asked for so far. -/
def calls (c : Course) : List Forest.Call := c.log.filterMap Event.call?

/-- What happened to a vertex so far. -/
def history (c : Course) (v : Nat) : List Event := c.log.filter (Event.concerns v)

/-- Asks the forest for something. -/
def ask? (c : Course) (call : Forest.Call) : Option Course := do
  return { c with forest := ← c.forest.perform? call, log := c.log ++ [.asked call] }

/-- `Forest.eval?`, logged. -/
def eval? (c : Course) (v : Nat) : Option (Nat × Course) := do
  let (u, forest) ← c.forest.eval? v
  return (u, { c with forest, log := c.log ++ [.asked (.eval v)] })

/-- `Progress.lower?`, logged: to the forest this is two calls. -/
def lower? (w : Nat) (c : Course) (v : Nat) : Option Course := do
  let (u, c) ← c.eval? v
  let offered ← c.forest.semi[u]?
  let own ← c.forest.semi[w]?
  c.ask? (.lower w (min offered own))

/-- `Progress.settle?`, logged. -/
def settle? (p : Nat) (c : Course) (v : Nat) : Option Course := do
  let (u, c) ← c.eval? v
  let shared := (← c.forest.semi[u]?) < (← c.forest.semi[v]?)
  let d := if shared then u else p
  return { c with relative := ← fill? c.relative v d, log := c.log ++ [.assigned v d] }

/-- `Progress.see?`, logged. The bucket of the parent is emptied before any vertex of it is settled. -/
def see? (parents : Array (Option Nat)) (predecessors : Array (List Nat)) (c : Course) (w : Nat) :
    Option Course := do
  let c ← (← predecessors[w]?).foldlM (lower? w) c
  let semi ← c.forest.semi[w]?
  let bucket ← write? c.bucket semi ((← c.bucket[semi]?) ++ [w])
  let p ← (← parents[w]?)
  let c ← { c with bucket, log := c.log ++ [Event.placed w semi] }.ask? (.link p w)
  let waiting ← c.bucket[p]?
  let bucket ← write? c.bucket p []
  waiting.foldlM (settle? p) { c with bucket, log := c.log ++ waiting.map (Event.removed · p) }

/-- `Progress.finish?`, logged. -/
def finish? (numbering : Numbering) (edges : List (Nat × Nat)) : Option Course :=
  let predecessors := (Digraph.ofEdges numbering.count (edges.map Prod.swap)).successors
  numbering.descendants.reverse.foldlM (see? numbering.parent predecessors) { Progress.start numbering.count with }

variable {c c' : Course} {call : Forest.Call} {f : Forest} {d p u v w : Nat}

/-! ### Forgetting the log -/

theorem map_lower? (w : Nat) (c : Course) (v : Nat) : (c.lower? w v).map toProgress =
    (Progress.lower? w c.forest v).map fun forest => { c.toProgress with forest } := by
  simp [lower?, Progress.lower?, eval?, ask?, Forest.perform?, Option.bind_assoc, Option.map_eq_bind]

theorem map_foldlM_lower? (w : Nat) (c : Course) (l : List Nat) : (l.foldlM (lower? w) c).map toProgress =
    (l.foldlM (Progress.lower? w) c.forest).map fun forest => { c.toProgress with forest } := by
  induction l generalizing c with
  | nil => rfl
  | cons v l ih =>
    have hfirst := map_lower? w c v
    rw [List.foldlM_cons, List.foldlM_cons]
    cases hlower : Progress.lower? w c.forest v with
    | none =>
      rw [hlower, Option.map_none, Option.map_eq_none_iff] at hfirst
      rw [hfirst]
      rfl
    | some f =>
      rw [hlower] at hfirst
      obtain ⟨c', hc', hsame⟩ := Option.map_eq_some_iff.mp hfirst
      rw [hc']
      refine (ih c').trans ?_
      rw [hsame]
      rfl

theorem map_settle? (p : Nat) (c : Course) (v : Nat) :
    (c.settle? p v).map toProgress = Progress.settle? p c.toProgress v := by
  simp [settle?, Progress.settle?, eval?, Option.bind_assoc, Option.map_eq_bind]

theorem map_see? (parents : Array (Option Nat)) (predecessors : Array (List Nat)) (c : Course) (w : Nat) :
    (c.see? parents predecessors w).map toProgress = Progress.see? parents predecessors c.toProgress w := by
  unfold see? Progress.see?
  cases predecessors[w]? with
  | none => rfl
  | some preds =>
    have hlower := map_foldlM_lower? w c preds
    simp only [Option.bind_eq_bind, Option.bind_some]
    cases hf : preds.foldlM (Progress.lower? w) c.forest with
    | none =>
      rw [hf, Option.map_none, Option.map_eq_none_iff] at hlower
      rw [hlower]
      rfl
    | some f =>
      rw [hf] at hlower
      obtain ⟨c', hc', hsame⟩ := Option.map_eq_some_iff.mp hlower
      obtain ⟨s, log⟩ := c'
      obtain rfl : s = { c.toProgress with forest := f } := hsame
      rw [hc']
      simp only [ask?, Forest.perform?, Option.bind_eq_bind, Option.pure_def, Option.bind_assoc, Option.bind_some,
        Option.map_bind, Function.comp_def, map_foldlM (map_settle? _)]

/-- A course is a run of the progress, whatever is logged. -/
theorem map_finish? (n : Numbering) (edges : List (Nat × Nat)) :
    (finish? n edges).map toProgress = Progress.finish? n edges := map_foldlM (map_see? _ _) _ _

theorem exists_of_lower? (h : c.lower? w v = some c') : ∃ f m semi, c.forest.perform? (.eval v) = some f ∧
    write? f.semi w m = some semi ∧ c' = { c with
      forest := { f with semi }
      log := c.log ++ [.asked (.eval v)] ++ [.asked (.lower w m)] } := by
  simp only [lower?, eval?, ask?, Forest.perform?, Option.bind_eq_bind, Option.bind_assoc, Option.pure_def,
    Option.bind_some, Option.bind_eq_some_iff, Option.map_eq_some_iff] at h
  obtain ⟨⟨u, f⟩, heval, offered, -, own, -, -, ⟨semi, hsemi, rfl⟩, heq⟩ := h
  exact ⟨f, _, semi, by simp [Forest.perform?, heval], hsemi, (Option.some.inj heq).symm⟩

theorem exists_of_settle? (h : c.settle? p v = some c') : ∃ f d relative, c.forest.perform? (.eval v) = some f ∧
    fill? c.relative v d = some relative ∧ c' = { c with
      forest := f
      relative
      log := c.log ++ [.asked (.eval v)] ++ [.assigned v d] } := by
  simp only [settle?, eval?, Option.bind_eq_bind, Option.bind_assoc, Option.pure_def, Option.bind_some,
    Option.bind_eq_some_iff] at h
  obtain ⟨⟨u, f⟩, heval, offered, -, own, -, relative, hfill, heq⟩ := h
  exact ⟨f, _, relative, by simp [Forest.perform?, heval], hfill, (Option.some.inj heq).symm⟩

/-! ### Nothing happens but by an event -/

/-- The events in the log make the progress what it is. -/
def Told (count : Nat) (c : Course) : Prop := c.log.foldlM Progress.undergo? (.start count) = some c.toProgress

variable {count : Nat}

theorem Told.of_events {events : List Event} (h : c.Told count) (hlog : c'.log = c.log ++ events)
    (hevents : events.foldlM Progress.undergo? c.toProgress = some c'.toProgress) : c'.Told count := by
  rw [Told, hlog, List.foldlM_append, h]
  exact hevents

theorem Told.ask? (h : c.Told count) (hask : c.ask? call = some c') : c'.Told count := by
  obtain ⟨f, hf, heq⟩ := Option.bind_eq_some_iff.mp hask
  obtain rfl := Option.some.inj heq
  exact h.of_events rfl (by simp [Progress.undergo?, hf])

theorem Told.lower? (h : c.Told count) (hlower : c.lower? w v = some c') : c'.Told count := by
  obtain ⟨f, m, semi, heval, hsemi, rfl⟩ := exists_of_lower? hlower
  have hlow : f.perform? (.lower w m) = some { f with semi } := by simp [Forest.perform?, hsemi]
  exact h.of_events (List.append_assoc ..) (by simp [Progress.undergo?, heval, hlow])

theorem Told.settle? (h : c.Told count) (hsettle : c.settle? p v = some c') : c'.Told count := by
  obtain ⟨f, d, relative, heval, hfill, rfl⟩ := exists_of_settle? hsettle
  exact h.of_events (List.append_assoc ..) (by simp [Progress.undergo?, heval, hfill])

/-- Taking out of a bucket one after the other all that is in it empties it. -/
theorem foldlM_removed {s : Progress} {waiting : List Nat} {bucket : Array (List Nat)}
    (hwaiting : s.bucket[p]? = some waiting) (hbucket : write? s.bucket p [] = some bucket) :
    (waiting.map (Event.removed · p)).foldlM Progress.undergo? s = some { s with bucket } := by
  obtain ⟨hp, -⟩ := Array.getElem?_eq_some_iff.mp hwaiting
  rw [write?_of_size hp, Option.some.injEq] at hbucket
  induction waiting generalizing s with
  | nil =>
    have hsame : bucket = s.bucket := by
      refine Array.ext_getElem? fun q => ?_
      rw [← hbucket, getElem?_setIfInBounds_of_lt hp]
      split
      · simp_all
      · rfl
    rw [hsame]
    rfl
  | cons v l ih =>
    have hp' : p < (s.bucket.setIfInBounds p l).size := by simpa using hp
    have hfirst : s.undergo? (.removed v p) = some { s with bucket := s.bucket.setIfInBounds p l } := by
      simp [Progress.undergo?, hwaiting, write?_of_size hp]
    have hrest : (s.bucket.setIfInBounds p l)[p]? = some l := by rw [getElem?_setIfInBounds_of_lt hp, if_pos rfl]
    rw [List.map_cons, List.foldlM_cons, hfirst]
    exact ih (s := { s with bucket := s.bucket.setIfInBounds p l }) hrest (by simpa using hbucket) hp'

theorem Told.see? {parents : Array (Option Nat)} {predecessors : Array (List Nat)} (h : c.Told count)
    (hsee : c.see? parents predecessors w = some c') : c'.Told count := by
  simp only [Course.see?, Option.bind_eq_bind, Option.bind_eq_some_iff] at hsee
  obtain ⟨preds, -, c₁, hlower, semi, -, old, hold, bucket, hbucket, parent, -, p, -, c₂, hask, waiting, hwaiting,
    emptied, hemptied, hsettle⟩ := hsee
  have h₁ : c₁.Told count := of_foldlM (fun _ _ _ hstep hc => hc.lower? hstep) hlower h
  have hplaced : Told count { c₁ with bucket, log := c₁.log ++ [.placed w semi] } :=
    h₁.of_events rfl (by simp [Progress.undergo?, hold, hbucket])
  have h₂ : c₂.Told count := hplaced.ask? hask
  have hremoved : Told count { c₂ with bucket := emptied, log := c₂.log ++ waiting.map (Event.removed · p) } :=
    h₂.of_events rfl (foldlM_removed hwaiting hemptied)
  exact of_foldlM (fun _ _ _ hstep hc => hc.settle? hstep) hsettle hremoved

/-- The events of a run make of its start what it comes to. -/
theorem told_of_finish? {n : Numbering} {edges : List (Nat × Nat)} (h : finish? n edges = some c) :
    c.Told n.count := of_foldlM (fun _ _ _ hstep hc => hc.see? hstep) h rfl

/-! ### What the forest was asked for -/

/-- The forest is what the calls in the log make of single vertices, one allowed after the other, and the links among
them are those of the vertices from `k` on. -/
structure Faithful (t : DepthFirstTree) (k : Nat) (c : Course) : Prop where
  /-- Every call was allowed. -/
  orderly : Forest.Orderly c.calls
  /-- The calls lead to the forest. -/
  after?_eq : (Forest.singletons t.count).after? c.calls = some c.forest
  /-- The vertices from `k` on are linked, and no others. -/
  linkedBy_eq : Forest.linkedBy c.calls = t.linkedFrom k

variable {t : DepthFirstTree} {k : Nat} {hand preds : List Nat}

theorem Faithful.of_eq (h : c.Faithful t k) (hcalls : c'.calls = c.calls) (hforest : c'.forest = c.forest) :
    c'.Faithful t k where
  orderly := hcalls ▸ h.orderly
  after?_eq := by rw [hcalls, hforest, h.after?_eq]
  linkedBy_eq := hcalls ▸ h.linkedBy_eq

theorem Faithful.ask {k' : Nat} (h : c.Faithful t k) (hcall : c.forest.perform? call = some f)
    (hallowed : call.Allowed (t.linkedFrom k)) (hhang : call.hang (t.linkedFrom k) = t.linkedFrom k') :
    Faithful t k' { c with forest := f, log := c.log ++ [.asked call] } := by
  have hcalls : calls { c with forest := f, log := c.log ++ [.asked call] } = c.calls ++ [call] := by
    simp [calls, Event.call?]
  refine { orderly := ?_, after?_eq := ?_, linkedBy_eq := ?_ }
  · rw [hcalls]
    exact Forest.orderly_concat_iff.mpr ⟨h.orderly, h.linkedBy_eq ▸ hallowed⟩
  · rw [hcalls, Forest.after?_concat, h.after?_eq]
    exact hcall
  · rw [hcalls, Forest.linkedBy_concat, h.linkedBy_eq, hhang]

theorem Faithful.lower? (h : c.Faithful t (w + 1)) (hlower : c.lower? w v = some c') : c'.Faithful t (w + 1) := by
  obtain ⟨f, m, semi, heval, hsemi, rfl⟩ := exists_of_lower? hlower
  have hunlinked : t.linkedFrom (w + 1) w = none := if_neg (by omega)
  exact (h.ask heval trivial rfl).ask (by simp [Forest.perform?, hsemi]) hunlinked rfl

/-! ### What happened to the vertices -/

/-- Between the two the forest was asked and nothing else happened. -/
structure OnlyAsks (c c' : Course) : Prop where
  /-- The buckets stayed, -/
  bucket_eq : c'.bucket = c.bucket
  /-- and so did the relative dominators. -/
  relative_eq : c'.relative = c.relative
  /-- Nothing happened to any vertex. -/
  history_eq : c'.history = c.history

theorem OnlyAsks.refl (c : Course) : c.OnlyAsks c := ⟨rfl, rfl, rfl⟩

theorem OnlyAsks.lower? (h : c.OnlyAsks c') {c'' : Course} (hlower : c'.lower? w v = some c'') : c.OnlyAsks c'' := by
  obtain ⟨f, m, semi, -, -, rfl⟩ := exists_of_lower? hlower
  refine ⟨h.bucket_eq, h.relative_eq, ?_⟩
  rw [← h.history_eq]
  funext x
  simp [history, Event.concerns]

/-- Looking at all predecessors of a vertex. -/
theorem exists_foldlM_lower? (hlow : Progress.Lowering t w preds c.forest) (hw : w < t.count)
    (hfaithful : c.Faithful t (w + 1)) : ∃ c', preds.foldlM (lower? w) c = some c' ∧
      Progress.Lowering t w [] c'.forest ∧ c'.Faithful t (w + 1) ∧ c.OnlyAsks c' := by
  refine exists_foldlM
    (fun l c' => Progress.Lowering t w l c'.forest ∧ c'.Faithful t (w + 1) ∧ c.OnlyAsks c')
    (fun v l c₁ ⟨hlow, hfaithful, hasks⟩ => ?_) ⟨hlow, hfaithful, .refl c⟩
  -- The step goes through without a log, and so with one.
  obtain ⟨f, hf, hlow'⟩ := hlow.exists_lower? hw
  have hmap := map_lower? w c₁ v
  rw [hf] at hmap
  obtain ⟨c₂, hc₂, hsame⟩ := Option.map_eq_some_iff.mp hmap
  have hforest : c₂.forest = f := congrArg Progress.forest hsame
  exact ⟨c₂, hc₂, hforest ▸ hlow', hfaithful.lower? hc₂, hasks.lower? hc₂⟩

/-- What is known of a course when the vertices from `k` on have been seen and those of `hand` are still to be settled:
what happened to a vertex is told by where it is. -/
structure Recorded (t : DepthFirstTree) (k : Nat) (hand : List Nat) (c : Course) : Prop extends
    Progress.SeenFrom t k hand c.toProgress, Faithful t k c where
  /-- Nothing happened to a vertex that was not seen. -/
  history_unseen {v : Nat} : v < k → c.history v = []
  /-- A vertex in a bucket was put there. -/
  history_waiting {q v : Nat} : v ∈ c.waiting q → c.history v = [.placed v q]
  /-- A vertex in hand was put into the bucket of its semidominator and taken out of it. -/
  history_hand : ∀ v ∈ hand, c.history v = [.placed v (t.semi v), .removed v (t.semi v)]
  /-- A vertex with a relative dominator was given it after that. -/
  history_settled {v d : Nat} : c.relative[v]? = some (some d) →
    c.history v = [.placed v (t.semi v), .removed v (t.semi v), .assigned v d]

/-- Settling one vertex. -/
theorem Recorded.exists_settle? (h : Recorded t w (v :: hand) c) (hp : t.parent w = some p) (hwv : w ≤ v)
    (hv : v < t.count) (hsemi : t.semi v = p) : ∃ c', c.settle? p v = some c' ∧ Recorded t w hand c' := by
  obtain ⟨s, hs, hseen⟩ := h.toSeenFrom.exists_settle? hp hwv hv hsemi
  obtain ⟨c', hc', rfl⟩ := Option.map_eq_some_iff.mp ((map_settle? p c v).trans hs)
  obtain ⟨f, d, relative, heval, hfill, heq⟩ := exists_of_settle? hc'
  have hempty := h.hand_empty v (.head _)
  rw [fill?_of_empty hempty, Option.some.injEq] at hfill
  have hrelative : c'.relative = c.relative.setIfInBounds v (some d) := by rw [heq, hfill]
  have hwaiting (q : Nat) : c'.waiting q = c.waiting q := by rw [heq]; rfl
  have hfaithful : c'.Faithful t w := (h.toFaithful.ask heval trivial rfl).of_eq
    (by rw [heq]; simp [calls, Event.call?]) (by rw [heq])
  have hhistory (x : Nat) : c'.history x = c.history x ++ if v = x then [.assigned v d] else [] := by
    rw [heq]
    by_cases hvx : v = x <;> simp [history, Event.concerns, hvx]
  -- Only the history of `v` grows.
  have hsame {x : Nat} (hx : v ≠ x) := (hhistory x).trans (by rw [if_neg hx, List.append_nil])
  have hnodup := List.nodup_cons.mp h.hand_nodup
  refine ⟨c', hc', { hseen, hfaithful with
    history_unseen := fun {x} hx => ?_
    history_waiting := fun {q x} hx => ?_
    history_hand := fun x hx => ?_
    history_settled := fun {x e} hx => ?_ }⟩
  · exact (hsame (by omega)).trans (h.history_unseen hx)
  · rw [hwaiting] at hx
    have hne : v ≠ x := fun heq => h.hand_out v (.head _) q (heq ▸ hx)
    exact (hsame hne).trans (h.history_waiting hx)
  · have hne : v ≠ x := fun heq => hnodup.1 (heq ▸ hx)
    exact (hsame hne).trans (h.history_hand x (.tail _ hx))
  · rw [hrelative, getElem?_setIfInBounds_of_lt (h.size_relative ▸ hv)] at hx
    split at hx
    · rename_i hvx
      subst hvx
      obtain rfl : d = e := by simpa using hx
      rw [hhistory, if_pos rfl, h.history_hand v (.head _)]
      rfl
    · exact (hsame (by assumption)).trans (h.history_settled hx)

/-- What happened to a vertex that is about to be taken out of a bucket: `w` was put there just now and the others
earlier. -/
theorem Recorded.history_joined {q : Nat} (h : Recorded t (w + 1) [] c) (hv : v ∈ Progress.joined t w c.toProgress q) :
    (c.history v ++ if w = v then [.placed w (t.semi w)] else []) = [.placed v q] := by
  have hold (hv : v ∈ c.waiting q) : (c.history v ++ if w = v then [.placed w (t.semi w)] else []) = [.placed v q] := by
    have := (h.waits hv).1
    rw [if_neg (by omega), List.append_nil, h.history_waiting hv]
  unfold Progress.joined at hv
  split at hv
  · rename_i hq
    rcases List.mem_append.mp hv with hv | hv
    · exact hold hv
    · obtain rfl := List.mem_singleton.mp hv
      rw [h.history_unseen (by omega), if_pos rfl, hq]
      rfl
  · exact hold hv

/-- Taking vertices out of a bucket asks the forest for nothing. -/
theorem filterMap_removed (l : List Nat) (p : Nat) : (l.map (Event.removed · p)).filterMap Event.call? = [] := by
  rw [List.filterMap_map]
  exact List.filterMap_eq_nil_iff.mpr fun _ _ => rfl

/-- Of the vertices taken out of a bucket one at a time each is taken out once. -/
theorem filter_removed {l : List Nat} (hl : l.Nodup) (p x : Nat) :
    (l.map (Event.removed · p)).filter (Event.concerns x) = if x ∈ l then [.removed x p] else [] := by
  have hcomp : (Event.concerns x ∘ fun v => Event.removed v p) = (· == x) := rfl
  rw [List.filter_map, hcomp, List.filter_beq]
  split
  · rw [List.count_eq_one_of_mem hl (by assumption)]
    rfl
  · rw [List.count_eq_zero_of_not_mem (by assumption)]
    rfl

/-- When `w` has been put into a bucket and linked to its parent, the bucket of the parent is emptied. -/
theorem Recorded.take {c₁ : Course} {bucket : Array (List Nat)} (h : Recorded t (w + 1) [] c) (hp : t.parent w = some p)
    (hw : w < t.count) (hasks : c.OnlyAsks c₁) (hfaithful : c₁.Faithful t (w + 1))
    (hlink : c₁.forest.link? p w = some f)
    (hmem : ∀ q, bucket[q]?.getD [] = if p = q then [] else Progress.joined t w c.toProgress q)
    (hseen : Progress.SeenFrom t w (Progress.joined t w c.toProgress p) { c.toProgress with forest := f, bucket })
    (hc' : c' = { c₁ with
      forest := f
      bucket
      log := c₁.log ++ [.placed w (t.semi w)] ++ [.asked (.link p w)] ++
        (Progress.joined t w c.toProgress p).map (Event.removed · p) }) :
    Recorded t w (Progress.joined t w c.toProgress p) c' := by
  have hprogress : c'.toProgress = { c.toProgress with forest := f, bucket } := by rw [hc', hasks.relative_eq]
  have hplaced : Faithful t (w + 1) { c₁ with log := c₁.log ++ [.placed w (t.semi w)] } :=
    hfaithful.of_eq (by simp [calls, Event.call?]) rfl
  have hcall : c₁.forest.perform? (.link p w) = some f := hlink
  have hlinked := hplaced.ask hcall (t.parent_lt hp) (DepthFirstTree.linkedFrom_eq hp).symm
  have hcalls : c'.calls = calls { c₁ with
      forest := f
      log := c₁.log ++ [.placed w (t.semi w)] ++ [.asked (.link p w)] } := by
    rw [hc', calls, List.filterMap_append, filterMap_removed, List.append_nil]
    rfl
  have hfaithful' : c'.Faithful t w := hlinked.of_eq hcalls (by rw [hc'])
  have hhistory (x : Nat) : c'.history x = (c.history x ++ if w = x then [.placed w (t.semi w)] else []) ++
      if x ∈ Progress.joined t w c.toProgress p then [.removed x p] else [] := by
    rw [← hasks.history_eq, ← filter_removed h.toSeenFrom.nodup_joined, hc']
    by_cases hwx : w = x <;> simp [history, Event.concerns, hwx]
  -- What was neither placed nor removed just now keeps its history.
  have hother {x : Nat} (hwx : w ≠ x) (hx : x ∉ Progress.joined t w c.toProgress p) :=
    (hhistory x).trans (by rw [if_neg hwx, if_neg hx, List.append_nil, List.append_nil])
  refine { hprogress ▸ hseen, hfaithful' with
    history_unseen := fun {x} hx => ?_
    history_waiting := fun {q x} hx => ?_
    history_hand := fun x hx => ?_
    history_settled := fun {x d} hx => ?_ }
  · refine (hother (by omega) fun hj => ?_).trans (h.history_unseen (by omega))
    have := (h.toSeenFrom.waits_joined hw hj).1
    omega
  · rw [hprogress, Progress.waiting, hmem] at hx
    split at hx
    · simp at hx
    · have hout : x ∉ Progress.joined t w c.toProgress p := fun hj => by
        have := (h.toSeenFrom.waits_joined hw hj).2.2.1
        have := (h.toSeenFrom.waits_joined hw hx).2.2.1
        omega
      rw [hhistory, h.history_joined hx, if_neg hout, List.append_nil]
  · rw [hhistory, h.history_joined hx, if_pos hx, (h.toSeenFrom.waits_joined hw hx).2.2.1]
    rfl
  · rw [hprogress] at hx
    refine (hother ?_ fun hj => ?_).trans (h.history_settled hx)
    · rintro rfl
      simp [h.unsettled (Nat.lt_succ_self w) hw] at hx
    · simp [(h.toSeenFrom.waits_joined hw hj).2.2.2.1] at hx

/-- Seeing one more vertex. -/
theorem Recorded.exists_see? {parents : Array (Option Nat)} {predecessors : Array (List Nat)}
    (h : Recorded t (w + 1) [] c) (hp : t.parent w = some p) (hw : w < t.count) (hparents : parents[w]? = some (some p))
    (hlist : predecessors[w]? = some preds) (hpreds : ∀ v, v ∈ preds ↔ t.edge v w) :
    ∃ c', c.see? parents predecessors w = some c' ∧ Recorded t w [] c' := by
  obtain ⟨c₁, hc₁, hlow, hfaithful, hasks⟩ := exists_foldlM_lower? (h.toSeenFrom.lowering hpreds) hw h.toFaithful
  obtain ⟨bucket, f, bucket', hsemi, hold, hbucket, hf, htake, hbucket', hmem, hseen⟩ :=
    h.toSeenFrom.exists_taken hp hw hlow
  obtain ⟨c', hc', hdone⟩ := exists_foldlM_of_mem (P := Recorded t w) (fun v hv l c hc => by
    obtain ⟨hwv, hlt, hsemi, -⟩ := h.toSeenFrom.waits_joined hw hv
    exact hc.exists_settle? hp hwv hlt hsemi) (h.take hp hw hasks hfaithful hf hmem hseen rfl)
  refine ⟨c', ?_, hdone⟩
  simp [see?, ask?, Forest.perform?, hlist, hc₁, hsemi, hasks.bucket_eq, hold, hbucket, hparents, hf, htake, hbucket',
    ← hc']

/-- Before any vertex is seen. -/
theorem recorded_start : Recorded t t.count [] { Progress.start t.count with } where
  toSeenFrom := Progress.seenFrom_start
  orderly := Forest.orderly_nil
  after?_eq := rfl
  linkedBy_eq := t.linkedFrom_count.symm
  history_unseen := fun _ => rfl
  history_waiting := fun {q v} hv => by
    have := (Progress.seenFrom_start.waits hv).1
    have := (Progress.seenFrom_start.waits hv).2.1
    omega
  history_hand := by simp
  history_settled := fun {v d} hv => by
    simp [Progress.start, Array.getElem?_replicate] at hv

/-- All vertices of a depth-first numbering are seen without fail, and it is known what happened. -/
theorem exists_finish? {g : Digraph} {root : Nat} {n : Numbering} {edges : List (Nat × Nat)} (h : n.IsDepthFirst g root)
    (hedges : ∀ v w, (v, w) ∈ edges ↔ n.Edge g v w) : ∃ c, finish? n edges = some c ∧ Recorded h.tree 1 [] c := by
  refine Numbering.exists_foldlM_descendants (Recorded h.tree · []) (fun w c h0 hw hc => ?_)
    (Numbering.lt_count h.root_eq) recorded_start
  obtain ⟨p, hp⟩ := h.exists_above h0 hw
  obtain ⟨preds, hlist, hpreds⟩ := Numbering.exists_predecessors hedges hw
  exact hc.exists_see? (t := h.tree) hp hw (Option.join_eq_some_iff.mp hp) hlist hpreds

/-- When all vertices but the root have been seen, each has gone through the bucket of its semidominator and has a
relative dominator. -/
theorem Recorded.history_eq (h : Recorded t 1 [] c) (h0 : 0 < v) (hv : v < t.count) :
    ∃ d, c.relative[v]? = some (some d) ∧
      c.history v = [.placed v (t.semi v), .removed v (t.semi v), .assigned v d] := by
  obtain ⟨d, hd, -⟩ := h.toSeenFrom.exists_relative h0 hv
  exact ⟨d, hd, h.history_settled hd⟩

/-- Nothing waits any more then. -/
theorem Recorded.waiting_eq_nil (h : Recorded t 1 [] c) (q : Nat) : c.waiting q = [] := by
  refine List.eq_nil_iff_forall_not_mem.mpr fun v hv => ?_
  obtain ⟨h0, hlt, -, hempty, -⟩ := h.waits hv
  obtain ⟨d, hd, -⟩ := h.toSeenFrom.exists_relative h0 hlt
  simp [hd] at hempty

/-! ### What a run comes to -/

/-- In a graph with a root among its nodes all vertices are seen without fail, as in a run without a log. -/
theorem exists_recorded {g : Digraph} {root : Nat} (hroot : root < g.size) :
    ∃ n edges c, g.depthFirst? root = some n ∧ n.edges? g = some edges ∧ finish? n edges = some c ∧
      Progress.finish? n edges = some c.toProgress ∧ ∃ h : n.IsDepthFirst g root, Recorded h.tree 1 [] c := by
  obtain ⟨n, hn, h⟩ := exists_depthFirst? hroot
  obtain ⟨edges, hedges, hmem⟩ := h.exists_edges?
  obtain ⟨c, hc, hdone⟩ := exists_finish? h hmem
  refine ⟨n, edges, c, hn, hedges, hc, ?_, h, hdone⟩
  rw [← map_finish?, hc]
  rfl

/-- In a graph with a root among its nodes, seeing all vertices of the depth-first numbering leaves every vertex but
the root with its semidominator as its value: the least number from which a detour leads to it. Nothing happens on the
way but by the events in the log, and of those three concern the vertex: it is put into the bucket of its
semidominator, is taken out of it, and is then given a relative dominator. In the end all buckets are empty. -/
theorem semidominators_found (g : Digraph) (root : Nat) (hroot : root < g.size) :
    ∃ n edges c, g.depthFirst? root = some n ∧ n.edges? g = some edges ∧ finish? n edges = some c ∧
      Progress.finish? n edges = some c.toProgress ∧
      c.log.foldlM Progress.undergo? (.start n.count) = some c.toProgress ∧
      (∀ w, 0 < w → w < n.count → ∃ v d, c.forest.semi[w]? = some v ∧ IsLeast {v | Detour (n.Edge g) v w} v ∧
        c.history w = [.placed w v, .removed w v, .assigned w d] ∧ c.relative[w]? = some (some d)) ∧
      ∀ q < n.count, c.bucket[q]? = some [] := by
  obtain ⟨n, edges, c, hn, hedges, hc, hprogress, h, hdone⟩ := exists_recorded hroot
  refine ⟨n, edges, c, hn, hedges, hc, hprogress, told_of_finish? hc, fun w h0 hw => ?_, fun q hq => ?_⟩
  · obtain ⟨d, hd, hhistory⟩ := hdone.history_eq h0 hw
    refine ⟨h.tree.semi w, d, ?_, DepthFirstTree.isLeast_semi (t := h.tree) h0 hw, hhistory, hd⟩
    rw [hdone.keeps.semi_eq (hdone.size ▸ hw), hdone.seen h0 hw]
  · have hq : q < c.bucket.size := hdone.size_bucket ▸ hq
    have hempty := hdone.waiting_eq_nil q
    rw [Progress.waiting, Array.getElem?_eq_getElem hq] at hempty
    rw [Array.getElem?_eq_getElem hq]
    exact congrArg some hempty

/-- A path of four nodes with a shortcut from the root to the last of them, whose semidominator the root thus is. -/
def shortcut : Digraph := ⟨#[[1, 3], [2], [3], []]⟩

/-- Number 3 waits in the bucket of the root while 2 is seen, and is taken out of it when 1 is. -/
theorem semidominators_found_shortcut : ∃ n edges c, shortcut.depthFirst? 0 = some n ∧
    n.edges? shortcut = some edges ∧ finish? n edges = some c ∧ IsLeast {v | Detour (n.Edge shortcut) v 3} 0 ∧
    c.history 3 = [.placed 3 0, .removed 3 0, .assigned 3 0] ∧
    c.log.filter (fun event => event.concerns 2 || event.concerns 3) =
      [.placed 3 0, .placed 2 1, .removed 2 1, .assigned 2 1, .removed 3 0, .assigned 3 0] := by
  obtain ⟨n, edges, c, hn, hedges, hc, -, -, hall, -⟩ := semidominators_found shortcut 0 (by decide)
  have hrun : (do
      let n ← shortcut.depthFirst? 0
      let c ← finish? n (← n.edges? shortcut)
      return (n.count, c.forest.semi[3]?, c.relative[3]?,
        c.log.filter fun event => event.concerns 2 || event.concerns 3)) =
      some (4, some 0, some (some 0),
        [.placed 3 0, .placed 2 1, .removed 2 1, .assigned 2 1, .removed 3 0, .assigned 3 0]) := by
    decide +kernel
  rw [hn, Option.bind_eq_bind, Option.bind_some, hedges, Option.bind_eq_bind, Option.bind_some, hc] at hrun
  simp only [Option.bind_eq_bind, Option.bind_some, Option.pure_def, Option.some.injEq, Prod.mk.injEq] at hrun
  obtain ⟨hcount, hsemi, hrelative, hlog⟩ := hrun
  obtain ⟨v, d, hv, hleast, hhistory, hd⟩ := hall 3 (by decide) (by omega)
  obtain rfl : 0 = v := by simpa [hsemi] using hv
  obtain rfl : 0 = d := by simpa [hrelative] using hd
  exact ⟨n, edges, c, hn, hedges, hc, hleast, hhistory, hlog⟩

end Course

end Disassembly.Graph
