/-
# Merging a block with its successor

A merge goes step by step: the phis of the successor give way to their first operands, one
after the other, a jump at the end of the block is dropped, and the block takes over what is
left of its successor.  `Inlined` says all that the first of these steps does to a
graph and `InlinedAll` puts such steps one after the other, so that what a merge keeps follows
from what one step keeps.

A merge may be refused between two steps, at a phi without an operand or at a jump whose
result is read.  The phis that gave way by then are gone (`InStep.mergeInto_cases`).
-/

import IrAnalysis.Proofs.EditOutcomes
import IrAnalysis.Proofs.Reshaping

namespace IrAnalysis
namespace Graph

open Edit

variable {g g' : Graph} {b c id next : BlockId} {v w : ValueId} {i : InstId} {vs : List ValueId}

/-! ### One phi gives way -/

/-- What a step of a merge keeps: nothing but phis and instructions goes. -/
structure Keeps (g g' : Graph) : Prop where
  inStep : InStep g'
  successors : ∀ c, (g'.blockAt c).successors = (g.blockAt c).successors
  predecessors : ∀ c, (g'.blockAt c).predecessors = (g.blockAt c).predecessors
  hasBlock : ∀ c, g'.HasBlock c ↔ g.HasBlock c

theorem Keeps.trans {g'' : Graph} (h : Keeps g g') (h' : Keeps g' g'') : Keeps g g'' :=
  ⟨h'.inStep, fun c => (h'.successors c).trans (h.successors c),
    fun c => (h'.predecessors c).trans (h.predecessors c),
    fun c => (h'.hasBlock c).trans (h.hasBlock c)⟩

theorem InStep.keeps_self (h : InStep g) : Keeps g g :=
  ⟨h, fun _ => rfl, fun _ => rfl, fun _ => Iff.rfl⟩

/-- **The phi `v` gave way to its first operand `w`**: whoever read the phi reads the operand, and
the phi is gone. -/
structure Inlined (g g' : Graph) (v w : ValueId) : Prop where
  keeps : Keeps g g'
  operand : ∃ p, (g.valueAt v).livePhi? = some p ∧ p.operands.head? = some w
  operand_live : (g.valueAt w).live = true
  phis : ∀ c, (g'.blockAt c).phis = (g.blockAt c).phis.filter (· ≠ v)
  instructions : ∀ c, (g'.blockAt c).instructions = (g.blockAt c).instructions
  instruction? : ∀ j, g'.instruction? j =
    (g.instruction? j).map fun x => { x with operands := swapped v w x.operands }
  phiBlock? : ∀ u, (g'.valueAt u).phiBlock? = if u = v then none else (g.valueAt u).phiBlock?
  phiOperands : ∀ u, (g'.valueAt u).phiOperands =
    if u = v then [] else swapped v w (g.valueAt u).phiOperands
  live : ∀ u, (g'.valueAt u).live = ((g.valueAt u).live && u ≠ v)

theorem hasBlock_discardPhi : (g.discardPhi v).HasBlock c ↔ g.HasBlock c := by
  unfold Graph.discardPhi
  split
  · rfl
  · rw [hasBlock_modifyValue, hasBlock_modifyBlock, hasBlock_congr blocks_dropPhiUses]
    rfl

theorem swapped_self (l : List ValueId) : swapped v v l = l := by
  refine (List.map_congr_left fun u _ => ?_).trans (List.map_id l)
  split_ifs with hu
  · exact hu.symm
  · rfl

/-- What the readers of a phi read once they were told, whether or not the phi reads itself. -/
theorem InStep.read (h : InStep g) (hw : (g.valueAt w).live = true) :
    let read := if v = w then g else g.substitute v w
    InStep read ∧ (∀ c, read.blockAt c = g.blockAt c) ∧ (∀ c, read.HasBlock c ↔ g.HasBlock c) ∧
      (∀ j, read.instruction? j =
        (g.instruction? j).map fun x => { x with operands := swapped v w x.operands }) ∧
      (∀ u, (read.valueAt u).phiBlock? = (g.valueAt u).phiBlock?) ∧
      (∀ u, (read.valueAt u).phiOperands = swapped v w (g.valueAt u).phiOperands) ∧
      ∀ u, (read.valueAt u).live = (g.valueAt u).live := by
  have hnew := hasValue_of_live hw
  by_cases hvw : v = w
  · subst hvw
    simp only [if_true, swapped_self]
    refine ⟨h, fun _ => trivial, fun _ => trivial, fun j => ?_, fun _ => trivial, fun _ => trivial,
      fun _ => trivial⟩
    cases g.instruction? j <;> rfl
  · simp only [if_neg hvw]
    exact ⟨h.substitute hvw hnew, fun _ => blockAt_substitute, fun _ => hasBlock_substitute,
      fun _ => instruction?_substitute h.filed, fun _ => phiBlock?_substitute hnew,
      fun _ => phiOperands_substitute h.filed hnew,
      fun _ => view_substitute (·.live) (fun _ _ _ => rfl) (fun _ _ => Value.live_mapOperands) hnew⟩

/-- **A phi is refused, or gives way to its first operand.** -/
theorem InStep.inlinePhi (h : InStep g) (v : ValueId) :
    (inlinePhi v).Refuses g ∨
      ∃ w g', (Graph.inlinePhi v).on g = (.ok (), g') ∧ Inlined g g' v w := by
  rcases inlinePhi_outcome g v with href | ⟨p, w, hp, hhead, hw, hok⟩
  · exact Or.inl href
  · obtain ⟨hstep, hblocks, hhas, hinsts, hblock, hops, hlive⟩ := h.read (v := v) hw
    generalize (if v = w then g else g.substitute v w) = read at *
    have hb : (read.valueAt v).phiBlock? = some p.block := by
      rw [hblock, Value.phiBlock?, hp]
      rfl
    obtain ⟨p', hp', hpb⟩ := Value.phiBlock?_eq_some.1 hb
    have hafter : ∀ c, (read.discardPhi v).blockAt c = _ := fun c => blockAt_discardPhi hp'
    have hvalue : ∀ u, (read.discardPhi v).valueAt u = _ := fun u => valueAt_discardPhi hp'
    refine Or.inr ⟨w, _, hok, ⟨hstep.discardPhi hp', fun c => ?_, fun c => ?_, fun c => ?_⟩,
      ⟨p, hp, hhead⟩, hw, fun c => ?_, fun c => ?_, fun j => ?_, fun u => ?_, fun u => ?_,
      fun u => ?_⟩
    · rw [hafter, ← hblocks c]
      split_ifs <;> rfl
    · rw [hafter, ← hblocks c]
      split_ifs <;> rfl
    · rw [hasBlock_discardPhi, hhas]
    · rw [hafter, ← hblocks c]
      split_ifs with hc
      · rfl
      · have hnot : v ∉ (read.blockAt c).phis := by
          rw [hstep.filed.mem_phis, hb]
          exact fun he => hc (hpb ▸ (Option.some.inj he).symm)
        refine (List.filter_eq_self.2 fun u hu => ?_).symm
        have hne : u ≠ v := fun he => hnot (he ▸ hu)
        exact decide_eq_true hne
    · rw [hafter, ← hblocks c]
      split_ifs <;> rfl
    · rw [instruction?_congr instructions_discardPhi, hinsts]
    · rw [hvalue, Value.phiBlock?_dieIf, ← hblock]
      by_cases hu : u = v <;> simp [hu]
    · rw [hvalue, Value.phiOperands_dieIf, ← hops]
      by_cases hu : u = v <;> simp [hu]
    · rw [hvalue, Value.live_dieIf, ← hlive]
      by_cases hu : u = v <;> simp [hu]

/-! ### One phi after the other -/

/-- **The phis of a list gave way in turn.** -/
inductive InlinedAll : Graph → List ValueId → Graph → Prop
  | nil (g : Graph) : InlinedAll g [] g
  | cons {g g₁ g' : Graph} {v w : ValueId} {vs : List ValueId} : Inlined g g₁ v w →
      InlinedAll g₁ vs g' → InlinedAll g (v :: vs) g'

theorem InlinedAll.keeps (hall : InlinedAll g vs g') (h : InStep g) : Keeps g g' := by
  induction hall with
  | nil g => exact h.keeps_self
  | cons hone _ ih => exact hone.keeps.trans (ih hone.keeps.inStep)

/-- Only live phis give way. -/
theorem InlinedAll.phiBlock?_isSome {u : ValueId} (hall : InlinedAll g vs g') (hu : u ∈ vs) :
    ((g.valueAt u).phiBlock?).isSome := by
  induction hall with
  | nil g => exact absurd hu List.not_mem_nil
  | @cons g g₁ g' v w vs hone _ ih =>
    rcases List.mem_cons.1 hu with rfl | hu
    · obtain ⟨p, hp, -⟩ := hone.operand
      rw [Value.phiBlock?, hp]
      rfl
    · have hsome := ih hu
      rw [hone.phiBlock?] at hsome
      split_ifs at hsome with huv
      · exact absurd hsome (by simp)
      · exact hsome

/-- A phi gives way once. -/
theorem Inlined.ne_of_mem {g₁ : Graph} {u : ValueId} (hone : Inlined g g₁ v w)
    (hrest : InlinedAll g₁ vs g') (hu : u ∈ vs) : u ≠ v := by
  rintro rfl
  have hsome := hrest.phiBlock?_isSome hu
  rw [hone.phiBlock?, if_pos rfl] at hsome
  exact absurd hsome (by simp)

theorem InlinedAll.phis (hall : InlinedAll g vs g') (c : BlockId) :
    (g'.blockAt c).phis = (g.blockAt c).phis.filter (· ∉ vs) := by
  induction hall with
  | nil g => simp
  | cons hone _ ih =>
    rw [ih, hone.phis, List.filter_filter]
    refine List.filter_congr fun u _ => ?_
    simp [Bool.and_comm]

theorem InlinedAll.instructions (hall : InlinedAll g vs g') (c : BlockId) :
    (g'.blockAt c).instructions = (g.blockAt c).instructions := by
  induction hall with
  | nil g => rfl
  | cons hone _ ih => rw [ih, hone.instructions]

/-- What gave way is gone, and nothing comes to life. -/
theorem InlinedAll.live (hall : InlinedAll g vs g') (u : ValueId) :
    (g'.valueAt u).live = ((g.valueAt u).live && u ∉ vs) := by
  induction hall with
  | nil g => simp
  | @cons g g₁ g' v w vs hone _ ih =>
    rw [ih, hone.live]
    by_cases hu : u = v <;> simp [hu]

/-- The phis of a list give way up to the first that is refused. -/
theorem InStep.inlinePhis (h : InStep g) (vs : List ValueId) :
    ∃ done rest g', vs = done ++ rest ∧ InlinedAll g done g' ∧
      ((∃ v rest' err, rest = v :: rest' ∧ (Graph.inlinePhi v).Refuses g' ∧
          (vs.forM Graph.inlinePhi : Edit Unit).on g = (.error err, g')) ∨
        rest = [] ∧ (vs.forM Graph.inlinePhi : Edit Unit).on g = (.ok (), g')) := by
  induction vs generalizing g with
  | nil => exact ⟨[], [], g, rfl, .nil g, Or.inr ⟨rfl, rfl⟩⟩
  | cons v vs ih =>
    have hcons : ((v :: vs).forM Graph.inlinePhi : Edit Unit) =
        (do Graph.inlinePhi v; vs.forM Graph.inlinePhi) := rfl
    rw [hcons, on_bind]
    rcases h.inlinePhi v with ⟨err, herr⟩ | ⟨w, g₁, hok, hone⟩
    · exact ⟨[], v :: vs, g, rfl, .nil g, Or.inl ⟨v, vs, err, rfl, ⟨err, herr⟩, by rw [herr]⟩⟩
    · obtain ⟨done, rest, g', hsplit, hall, hcase⟩ := ih hone.keeps.inStep
      rw [hok]
      exact ⟨v :: done, rest, g', by rw [hsplit]; rfl, .cons hone hall, hcase⟩

/-! ### The jump goes, and the block with it -/

/-- What is left when a jump at the end of a block was dropped, if there was one to drop. -/
inductive JumpDropped (g : Graph) (id : BlockId) : Graph → Prop
  | same : g.jump? id = none → JumpDropped g id g
  | jump {i : InstId} {x : Instruction} : g.jump? id = some i → g.instruction? i = some x →
      (∀ v, x.output = some v → (g.valueAt v).isUnused = true) →
      JumpDropped g id (g.eraseInstruction i)

theorem hasBlock_eraseInstruction : (g.eraseInstruction i).HasBlock c ↔ g.HasBlock c := by
  unfold Graph.eraseInstruction
  split
  · rfl
  · rw [hasBlock_congr blocks_discardInstruction, hasBlock_modifyBlock]

/-- Dropping a jump leaves edges and phis alone. -/
theorem JumpDropped.keeps (hjump : JumpDropped g id g') (h : InStep g) :
    Keeps g g' ∧ ∀ c, (g'.blockAt c).phis = (g.blockAt c).phis := by
  cases hjump with
  | same => exact ⟨h.keeps_self, fun _ => rfl⟩
  | jump _ hi _ =>
    refine ⟨⟨h.eraseInstruction hi, fun c => ?_, fun c => ?_, fun c => hasBlock_eraseInstruction⟩,
      fun c => ?_⟩
    all_goals
      rw [blockAt_eraseInstruction hi]
      split_ifs <;> rfl

theorem dropGoto_cases (g : Graph) (id : BlockId) :
    (dropGoto id).Refuses g ∨ ∃ g', (dropGoto id).on g = (.ok (), g') ∧ JumpDropped g id g' := by
  rcases dropGoto_outcome g id with href | ⟨hnone, hsame⟩ | ⟨i, x, hjump, hi, hunused, hok⟩
  · exact Or.inl href
  · exact Or.inr ⟨g, hsame, .same hnone⟩
  · exact Or.inr ⟨_, hok, .jump hjump hi hunused⟩

/-- **How far a merge gets** once it has found that the blocks can be merged.  It is refused at a
phi, or at the jump, after some phis gave way; or it goes through. -/
theorem InStep.mergeInto_cases (h : InStep g) (id next : BlockId) (phis : List ValueId) :
    ∃ done rest g₁, phis = done ++ rest ∧ InlinedAll g done g₁ ∧
      ((∃ err, (mergeInto id next phis).on g = (.error err, g₁) ∧
          ∀ v, rest.head? = some v → (Graph.inlinePhi v).Refuses g₁) ∨
        rest = [] ∧ ∃ g₂, JumpDropped g₁ id g₂ ∧
          (mergeInto id next phis).on g = (.ok next, g₂.absorb id next)) := by
  obtain ⟨done, rest, g₁, hsplit, hall, hcase⟩ := h.inlinePhis phis
  refine ⟨done, rest, g₁, hsplit, hall, ?_⟩
  rw [mergeInto, on_bind]
  rcases hcase with ⟨v, rest', err, hrest, href, herr⟩ | ⟨hrest, hok₁⟩
  · rw [herr]
    refine Or.inl ⟨err, rfl, fun u hu => ?_⟩
    rw [hrest, List.head?_cons, Option.some.injEq] at hu
    exact hu ▸ href
  · rw [hok₁]
    simp only [on_bind]
    rcases dropGoto_cases g₁ id with ⟨err, herr⟩ | ⟨g₂, hok₂, hjump⟩
    · rw [herr]
      refine Or.inl ⟨err, rfl, fun u hu => ?_⟩
      rw [hrest] at hu
      exact absurd hu (by simp)
    · rw [hok₂]
      exact Or.inr ⟨hrest, g₂, hjump, rfl⟩

section Absorbing

variable {n : Block} {g₁ g₂ : Graph}

/-- No phi of the successor is left. -/
theorem Mergeable.phis_eq_nil (hmerge : Mergeable g id next n) (hall : InlinedAll g n.phis g₁) :
    (g₁.blockAt next).phis = [] := by
  rw [hall.phis, blockAt_of_block? hmerge.block?]
  exact List.filter_eq_nil_iff.2 fun u hu => by simpa using hu

/-- When the phis gave way and the jump is dropped the successor is ready to be taken over. -/
theorem Mergeable.ready (hmerge : Mergeable g id next n) (h : InStep g)
    (hall : InlinedAll g n.phis g₁) (hjump : JumpDropped g₁ id g₂) :
    Keeps g g₂ ∧ ∃ n', Mergeable g₂ id next n' ∧ n'.phis = [] := by
  have hkeep := hall.keeps h
  obtain ⟨hkeep', hphis⟩ := hjump.keeps hkeep.inStep
  have hboth := hkeep.trans hkeep'
  have hn := blockAt_of_block? hmerge.block?
  obtain ⟨n', hn'⟩ := Option.isSome_iff_exists.1
    ((hboth.hasBlock next).2 (hasBlock_of_block? hmerge.block?))
  have hnext := blockAt_of_block? hn'
  refine ⟨hboth, n', ⟨(hboth.hasBlock id).2 hmerge.hasBlock, ?_, hmerge.ne, hn', ?_⟩, ?_⟩
  · rw [hboth.successors]
    exact hmerge.successors
  · rw [← hnext, hboth.predecessors, hn]
    exact hmerge.predecessors
  · rw [← hnext, hphis, hmerge.phis_eq_nil hall]

theorem Mergeable.absorb (hmerge : Mergeable g id next n) (h : InStep g) (hphis : n.phis = []) :
    InStep (g.absorb id next) :=
  h.absorb hmerge.hasBlock hmerge.block? hmerge.ne hphis hmerge.predecessors hmerge.successors

end Absorbing

/-- **A merge that goes through**: all phis of the successor gave way, the jump is dropped and
the block takes over what is left. -/
theorem InStep.merge_ok (h : InStep g) (hok : ((merge id).on g).1 = .ok next) :
    ∃ n g₁ g₂, Mergeable g id next n ∧ InlinedAll g n.phis g₁ ∧ JumpDropped g₁ id g₂ ∧
      ((merge id).on g).2 = g₂.absorb id next := by
  rcases merge_outcome g id with ⟨err, herr⟩ | ⟨next', n, hmerge, hon⟩
  · rw [herr] at hok
    exact absurd hok (by simp)
  · obtain ⟨done, rest, g₁, hsplit, hall, hcase⟩ := h.mergeInto_cases id next' n.phis
    rw [hon] at hok ⊢
    rcases hcase with ⟨err, herr, -⟩ | ⟨hrest, g₂, hjump, hdone⟩
    · rw [herr] at hok
      exact absurd hok (by simp)
    · rw [hrest, List.append_nil] at hsplit
      rw [hdone] at hok ⊢
      obtain rfl : next' = next := by simpa using hok
      exact ⟨n, g₁, g₂, hmerge, hsplit ▸ hall, hjump, rfl⟩

/-- **However far a merge gets, the lists are in step.** -/
theorem InStep.merge (h : InStep g) : InStep ((merge id).on g).2 := by
  rcases merge_outcome g id with ⟨err, herr⟩ | ⟨next, n, hmerge, hon⟩
  · rw [herr]
    exact h
  · obtain ⟨done, rest, g₁, hsplit, hall, hcase⟩ := h.mergeInto_cases id next n.phis
    rcases hcase with ⟨err, herr, -⟩ | ⟨hrest, g₂, hjump, hok⟩
    · rw [hon, herr]
      exact (hall.keeps h).inStep
    · rw [hrest, List.append_nil] at hsplit
      obtain ⟨hkeep, n', hmerge', hphis⟩ := hmerge.ready h (hsplit ▸ hall) hjump
      rw [hon, hok]
      exact hmerge'.absorb hkeep.inStep hphis

end Graph
end IrAnalysis
