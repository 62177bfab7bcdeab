import Disassembly.Proofs.Export.Refusal
import Disassembly.Proofs.Flow.FunctionTable
import Disassembly.Proofs.Flow.Growth

/-!
# What a pass took in

A pass that started on some store has taken in the functions that it accepted since (`Took`): each of them is
filed in the table with instructions that stand for the decoded ones, the nodes of the start are as they were,
and new nodes were numbered in reading order. Every call keeps this up, a refusal because it leaves a pass that
is alike. So the model a pass ends in holds what was decoded (`snapshot_lifts`).
-/

namespace Disassembly

open Disassembly.Expression Disassembly.Flow

namespace Flow.FunctionTable

variable {table : FunctionTable} {entry : Address}

@[simp] theorem get?_nameModule {name : Option String} : (table.nameModule name).get? entry = table.get? entry := by
  rw [get?, get?, functions_nameModule]

end Flow.FunctionTable

namespace Export.Pass

variable {R : Function → Function → Prop} {start p q : Pass} {functions : List DecodedFunction}
  {lifted : List (List (List Instruction))} {decoded : DecodedFunction} {blocks : List (List Instruction)}
  {s t : Store} {table : FunctionTable}

/-! ### The functions that were accepted -/

/-- The function that was accepted, if a call added one. -/
def taken? : Call × Answer → Option DecodedFunction
  | (.add decoded, .added (.ok _)) => some decoded
  | _ => none

/-- The functions among some calls that are accepted, in their order. -/
def accepted (p : Pass) (calls : List Call) : List DecodedFunction := (p.history calls).filterMap taken?

theorem accepted_cons (p : Pass) (call : Call) (calls : List Call) :
    p.accepted (call :: calls) =
      (taken? (call, (p.answer call).1)).toList ++ (p.answer call).2.accepted calls := by
  rw [accepted, Pass.history, List.filterMap_cons]
  cases taken? (call, (p.answer call).1) <;> rfl

/-- The function is filed with the given instructions in its blocks, which stand for those decoded. `R` says in
which forms a function may be filed. -/
structure Filed (R : Function → Function → Prop) (store : Store) (table : FunctionTable)
    (decoded : DecodedFunction) (blocks : List (List Instruction)) : Prop where
  /-- In every block there are as many instructions as decoded, each of them spelled by the store. -/
  lifts : List.Forall₂ (List.Forall₂ (Lifts store)) decoded.blocks blocks
  /-- The function is in the table. -/
  exists_get? : ∃ f, table.get? decoded.entry = some f ∧ R (decoded.assemble blocks) f

theorem Filed.lifts_of_get? (h : List.Forall₂ (List.Forall₂ (Lifts s)) decoded.blocks blocks)
    (hkeep : ∀ id node, s.get? id = some node → t.get? id = some node) :
    List.Forall₂ (List.Forall₂ (Lifts t)) decoded.blocks blocks :=
  h.imp fun _ _ hblock => hblock.imp fun _ _ hi => hi.of_get? hkeep

/-- The pass has taken in the functions since its start, and made the given instructions of them. -/
structure Took (R : Function → Function → Prop) (start : Pass) (functions : List DecodedFunction)
    (lifted : List (List (List Instruction))) (p : Pass) : Prop where
  /-- It is asked to do the same as at the start. -/
  settings_eq : p.settings = start.settings
  /-- The store is reachable. -/
  reachable : p.store.Reachable
  /-- The nodes of the start are there. -/
  kept : ∀ id node, start.store.get? id = some node → p.store.get? id = some node
  /-- Nodes were numbered in reading order. -/
  introduces : Introduces start.store.size
    (lifted.flatMap fun blocks => blocks.flatMap fun block => block.flatMap Instruction.ids) p.store.size
  /-- The functions are filed, -/
  filed : List.Forall₂ (Filed R p.store p.table) functions lifted
  /-- and no others are. -/
  exists_mem : ∀ entry f, p.table.get? entry = some f → ∃ decoded ∈ functions, decoded.entry = entry
  /-- Once finalized they are in their final form. -/
  final_eq : p.finalized = true → ∀ entry f, p.table.get? entry = some f → p.settings.final f = f

theorem get?_accept {u : Lifting} {entry : Address} :
    (p.accept decoded (decoded.assemble blocks) u).table.get? entry =
      if decoded.entry = entry then some (decoded.assemble blocks) else p.table.get? entry := by
  simp [Pass.accept, FunctionTable.get?_insert, DecodedFunction.assemble]

namespace Took

theorem nil (settings : Settings) {store : Store} (hstore : store.Reachable) :
    Took R (onStore settings store) [] [] (onStore settings store) where
  settings_eq := rfl
  reachable := reachable_onStore hstore settings
  kept _ _ := id
  introduces := .nil _
  filed := .nil
  exists_mem entry f hf := by simp [onStore, FunctionTable.get?] at hf
  final_eq h := by cases h

/-- A pass that is alike has taken in the same. -/
theorem of_alike (h : Took R start functions lifted p) (hq : q.Alike p) (hreach : q.store.Reachable) :
    Took R start functions lifted q := by
  have hnode (id : NodeId) : q.store.get? id = p.store.get? id := hq.alike.get?_eq id
  have hfiled (entry : Address) : q.table.get? entry = p.table.get? entry := by
    rw [FunctionTable.get?, FunctionTable.get?, hq.functions_eq]
  have hsize : q.store.size = p.store.size := congrArg Array.size hq.alike.nodes_eq
  exact {
    settings_eq := hq.settings_eq.symm.trans h.settings_eq
    reachable := hreach
    kept := fun id node hid => by rw [hnode, h.kept id node hid]
    introduces := hsize ▸ h.introduces
    filed := h.filed.imp fun decoded blocks hf => {
      lifts := Filed.lifts_of_get? hf.lifts fun id node hid => by rw [hnode, hid]
      exists_get? := by
        rw [hfiled]
        exact hf.exists_get? }
    exists_mem := fun entry f hf => h.exists_mem entry f (by rw [← hfiled, hf])
    final_eq := fun hfinal entry f hf => by
      rw [← hq.settings_eq]
      exact h.final_eq (hq.finalized_eq.trans hfinal) entry f (by rw [← hfiled, hf]) }

/-- A function that is accepted is filed as it was made. -/
theorem accept (h : Took R start functions lifted p) (hR : R (decoded.assemble blocks) (decoded.assemble blocks))
    (hnew : p.table.contains decoded.entry = false) {u : Lifting} (hgrows : p.store.Grows u.store)
    (hintroduces : Introduces p.store.size (blocks.flatMap fun block => block.flatMap Instruction.ids) u.store.size)
    (hlifts : List.Forall₂ (List.Forall₂ (Lifts u.store)) decoded.blocks blocks) :
    Took R start (functions ++ [decoded]) (lifted ++ [blocks]) (p.accept decoded (decoded.assemble blocks) u) := by
  -- No function is replaced, as there was none with this entry point.
  have hold {entry : Address} {f : Function} (hf : p.table.get? entry = some f) :
      (p.accept decoded (decoded.assemble blocks) u).table.get? entry = some f := by
    rw [get?_accept, if_neg, hf]
    rintro rfl
    rw [FunctionTable.contains_eq_isSome, hf] at hnew
    cases hnew
  exact {
    settings_eq := h.settings_eq
    reachable := hgrows.reachable h.reachable
    kept := fun id node hid => hgrows.get? (h.kept id node hid)
    introduces := by
      rw [List.flatMap_append, List.flatMap_singleton]
      exact h.introduces.append hintroduces
    filed := by
      refine List.rel_append (h.filed.imp fun decoded blocks hf => ?_) (.cons ?_ .nil)
      · obtain ⟨f, hf', hform⟩ := hf.exists_get?
        exact ⟨Filed.lifts_of_get? hf.lifts fun _ _ => hgrows.get?, f, hold hf', hform⟩
      · exact ⟨hlifts, _, by rw [get?_accept, if_pos rfl], hR⟩
    exists_mem := fun entry f hf => by
      rw [get?_accept] at hf
      split at hf
      · rename_i hentry
        exact ⟨decoded, by simp, hentry⟩
      · obtain ⟨other, hmem, hentry⟩ := h.exists_mem entry f hf
        exact ⟨other, List.mem_append_left _ hmem, hentry⟩
    final_eq := fun hfinal => by cases hfinal }

end Took

theorem get?_finalize (p : Pass) (entry : Address) :
    p.finalize.2.table.get? entry = (p.table.get? entry).map p.settings.final := by
  have htable : p.finalize.2.table =
      if p.settings.classifyTypes then (p.table.finalize p.settings.repairEdges).2.map
        fun f => { f with type := f.classify } else (p.table.finalize p.settings.repairEdges).2 := rfl
  rw [htable]
  unfold Settings.final
  cases p.settings.classifyTypes with
  | false => exact FunctionTable.get?_finalize ..
  | true =>
    rw [if_pos rfl, FunctionTable.get?_map, FunctionTable.get?_finalize, Option.map_map]
    refine Option.map_congr fun f hf => ?_
    obtain rfl := p.table.entry_eq hf
    exact congrArg (fun entry => { (f.finalize p.settings.repairEdges).1 with
      type := (f.finalize p.settings.repairEdges).1.classify, entry }) (f.entry_finalize _).symm

theorem modules_finalize (p : Pass) : p.finalize.2.table.modules = p.table.modules := by
  unfold finalize
  dsimp only
  split <;> rfl

namespace Took

/-- Finalization puts all functions into their final form. -/
theorem finalize (h : Took R start functions lifted p)
    (hR : ∀ f g, R f g → R f (start.settings.final g)) : Took R start functions lifted p.finalize.2 where
  settings_eq := h.settings_eq
  reachable := h.reachable
  kept := h.kept
  introduces := h.introduces
  filed := h.filed.imp fun decoded blocks hf => {
    lifts := hf.lifts
    exists_get? := by
      obtain ⟨f, hget, hform⟩ := hf.exists_get?
      exact ⟨_, by rw [get?_finalize, hget, Option.map_some, h.settings_eq], hR _ _ hform⟩ }
  exists_mem entry f hf := by
    rw [get?_finalize] at hf
    obtain ⟨g, hg, -⟩ := Option.map_eq_some_iff.mp hf
    exact h.exists_mem entry g hg
  final_eq _ entry f hf := by
    rw [get?_finalize] at hf
    obtain ⟨g, -, rfl⟩ := Option.map_eq_some_iff.mp hf
    exact p.settings.final_final g

theorem ensureFinalized (h : Took R start functions lifted p)
    (hR : ∀ f g, R f g → R f (start.settings.final g)) : Took R start functions lifted p.ensureFinalized := by
  unfold Pass.ensureFinalized
  split
  · exact h
  · exact h.finalize hR

theorem locate (h : Took R start functions lifted p) (hR : ∀ f g, R f g → R f (start.settings.final g))
    (reference : Reference) : Took R start functions lifted (p.locate reference).2 :=
  { h.ensureFinalized hR with }

/-- A call takes in the function that it adds, if it is accepted. -/
theorem answer (h : Took R start functions lifted p) (hrefl : ∀ f, R f f)
    (hR : ∀ f g, R f g → R f (start.settings.final g)) (call : Call) :
    ∃ more, Took R start (functions ++ (taken? (call, (p.answer call).1)).toList) (lifted ++ more)
      (p.answer call).2 := by
  have hrefusal (hrefused : (p.answer call).1.isRefusal = true) :
      Took R start functions lifted (p.answer call).2 :=
    h.of_alike (alike_of_refusal h.reachable.tidy hrefused) (reachable_answer h.reachable call)
  cases call with
  | add decoded =>
    obtain ⟨-, hadd⟩ | ⟨-, error, u, -, hadd⟩ | ⟨hnew, f, u, hlift, hadd⟩ := p.add_cases decoded
    · refine ⟨[], ?_⟩
      simpa [Pass.answer, hadd, taken?] using hrefusal (by rw [Pass.answer, hadd]; rfl)
    · refine ⟨[], ?_⟩
      simpa [Pass.answer, hadd, taken?] using hrefusal (by rw [Pass.answer, hadd]; rfl)
    · obtain ⟨blocks, rfl, hstored, hlifts, -⟩ := Lifting.function_eq_ok h.reachable.tidy hlift
      refine ⟨[blocks], ?_⟩
      rw [Pass.answer, hadd]
      exact h.accept (hrefl _) hnew (grows_of_function hlift) hstored.introduces hlifts
  | finalize =>
    refine ⟨[], ?_⟩
    rw [taken?, Option.toList_none, List.append_nil, List.append_nil]
    · exact h.finalize hR
    · simp
  | locate reference =>
    refine ⟨[], ?_⟩
    rw [taken?, Option.toList_none, List.append_nil, List.append_nil]
    · exact h.locate hR reference
    · simp

theorem after (h : Took R start functions lifted p) (hrefl : ∀ f, R f f)
    (hR : ∀ f g, R f g → R f (start.settings.final g)) (calls : List Call) :
    ∃ more, Took R start (functions ++ p.accepted calls) (lifted ++ more) (p.after calls) := by
  induction calls generalizing p functions lifted with
  | nil => exact ⟨[], by simpa [accepted, Pass.history, Pass.after] using h⟩
  | cons call calls ih =>
    obtain ⟨more, hnext⟩ := h.answer hrefl hR call
    obtain ⟨rest, hend⟩ := ih hnext
    refine ⟨more ++ rest, ?_⟩
    rw [accepted_cons, ← List.append_assoc, ← List.append_assoc]
    exact hend

end Took

/-- What a pass took in is in its final form in the end. -/
theorem took_ensureFinalized {store : Store} (hstore : store.Reachable) (settings : Settings) (calls : List Call) :
    ∃ lifted, Took (fun f g => g = settings.final f) (onStore settings store)
      ((onStore settings store).accepted calls) lifted ((onStore settings store).after calls).ensureFinalized := by
  have hfinal (f g : Function) (h : g = f ∨ g = settings.final f) :
      settings.final g = f ∨ settings.final g = settings.final f := by
    obtain rfl | rfl := h
    · exact .inr rfl
    · exact .inr (settings.final_final f)
  obtain ⟨lifted, hafter⟩ := (Took.nil (R := fun f g => g = f ∨ g = settings.final f) settings hstore).after
    (fun _ => .inl rfl) hfinal calls
  have hend := hafter.ensureFinalized hfinal
  rw [List.nil_append, List.nil_append] at hend
  have hfinalized : ((onStore settings store).after calls).ensureFinalized.finalized = true := by
    unfold ensureFinalized
    split
    · assumption
    · rfl
  refine ⟨lifted, { hend with filed := hend.filed.imp fun decoded blocks hfiled => ⟨hfiled.lifts, ?_⟩ }⟩
  obtain ⟨f, hget, hform⟩ := hfiled.exists_get?
  have heq := hend.final_eq hfinalized _ f hget
  rw [hend.settings_eq] at heq
  refine ⟨f, hget, ?_⟩
  obtain rfl | rfl := hform
  · exact heq.symm
  · rfl

/-- The model holds what was decoded. For each block of a function that was accepted there is a row with an
instruction for every one decoded, with the nodes that its drafts describe. The blocks that the function has in the
table hold these rows, one each, but for the empty ones; the instructions of a block are those of its row in the order
of their addresses. No function is there that was not accepted. Nodes of the start are as they were. Without any, the
ids in operands are those of all nodes, and appear first in ascending order. -/
theorem snapshot_lifts {store : Store} (hstore : store.Reachable) (settings : Settings) (calls : List Call) :
    let start := onStore settings store
    let t := (start.after calls).snapshot
    ∃ lifted : List (List (List Instruction)),
      List.Forall₂ (fun decoded blocks => List.Forall₂ (List.Forall₂ (Lifts t.store)) decoded.blocks blocks ∧
          ∃ f, t.table.get? decoded.entry = some f ∧
            f.blocks = (blocks.filterMap Block.ofInstructions?).mergeSort (fun a b => a.start ≤ b.start) ∧
            ∃ rows, rows.Perm (blocks.filter fun row => !row.isEmpty) ∧ List.Forall₂ Block.Tight rows f.blocks)
        (start.accepted calls) lifted ∧
      (∀ entry f, t.table.get? entry = some f → ∃ decoded ∈ start.accepted calls, decoded.entry = entry) ∧
      (∀ id node, start.store.get? id = some node → t.store.get? id = some node) ∧
      (start.store.size = 0 →
        (lifted.flatMap fun blocks => blocks.flatMap fun block => block.flatMap Instruction.ids).eraseDups =
          (List.range t.store.size).map NodeId.mk) := by
  intro start t
  obtain ⟨lifted, htook⟩ := took_ensureFinalized hstore settings calls
  refine ⟨lifted, htook.filed.imp ?_, htook.exists_mem, htook.kept, ?_⟩
  · intro decoded blocks hfiled
    obtain ⟨f, hget, rfl⟩ := hfiled.exists_get?
    have hblocks := settings.blocks_final (decoded.assemble blocks)
    refine ⟨hfiled.lifts, _, hget, hblocks, Block.exists_forall₂_tight ?_⟩
    rw [hblocks]
    exact List.mergeSort_perm ..
  · intro hempty
    have hintroduces := htook.introduces
    rw [hempty] at hintroduces
    exact hintroduces.eraseDups

theorem snapshot_lifts_mixed :
    let start := onStore {} (({} : Store).internOperand [.register "eax"]).2
    start.accepted mixed = [spin 0x1000, spin 0x3000] ∧
      ∃ lifted : List (List (List Instruction)), lifted.length = 2 ∧
        (lifted.flatMap fun blocks => blocks.flatMap fun block => block.flatMap Instruction.ids).eraseDups =
          [⟨0⟩, ⟨1⟩, ⟨2⟩, ⟨3⟩] := by
  intro start
  have haccepted : start.accepted mixed = [spin 0x1000, spin 0x3000] := by decide +kernel
  have hsize : (start.after mixed).snapshot.store.size = 4 := by decide +kernel
  have hused : (({} : Store).internOperand [.register "eax"]).2.Reachable :=
    Store.Reachable.empty.step (.internOperand _ _)
  obtain ⟨lifted, hlifts, -, -, hids⟩ := snapshot_lifts hused {} mixed
  refine ⟨haccepted, lifted, ?_, ?_⟩
  · rw [← hlifts.length_eq, haccepted]
    rfl
  · rw [hids (by decide +kernel), hsize]
    rfl

end Export.Pass

end Disassembly
