/-
# Graphs built with the public edits

A graph is reachable if it comes from the empty one by edits, whether they went
through or refused, and by changes of types.  In a reachable graph the lists are in
step, though a phi may lack operands: nothing asks that it is given all of them.

| a command | may be refused for |
| --- | --- |
| `addBlock`, `removeUnreachable` | nothing |
| `appendOperand` | a phi that has an operand for each predecessor |
| `removeInstruction` | a result that is read |
| `merge` | another way out of the first block or into the second, or a phi without operands |
| the others | something that is not live |
-/

import IrAnalysis.Proofs.Merging
import IrAnalysis.Proofs.Pruning
import IrAnalysis.Proofs.Retyping

namespace IrAnalysis

/-- One call of a public edit. -/
inductive Command
  | addBlock
  | addEdge (source target : BlockId)
  | addPhi (b : BlockId) (type : Ty)
  | appendOperand (phi v : ValueId)
  | addInstruction (b : BlockId) (operation : Operation) (operands : List ValueId)
      (type : Option Ty)
  | replaceValue (old new : ValueId)
  | replaceInstruction (i : InstId) (operation : Operation) (operands : List ValueId)
  | removeInstruction (i : InstId)
  | split (b : BlockId) (index : Nat)
  | merge (b : BlockId)
  | removeEdge (source target : BlockId)
  | removeUnreachable

/-- The graph that the call leaves, whether it went through or was refused. -/
def Command.after : Command → Graph → Graph
  | addBlock, g => g.addBlock.1
  | addEdge s t, g => ((Graph.addEdge s t).on g).2
  | addPhi b type, g => ((Graph.addPhi b type).on g).2
  | appendOperand phi v, g => ((Graph.appendOperand phi v).on g).2
  | addInstruction b operation operands type, g =>
    ((Graph.addInstruction b operation operands type).on g).2
  | replaceValue old new, g => ((Graph.replaceValue old new).on g).2
  | replaceInstruction i operation operands, g =>
    ((Graph.replaceInstruction i operation operands).on g).2
  | removeInstruction i, g => ((Graph.removeInstruction i).on g).2
  | split b index, g => ((Graph.split b index).on g).2
  | merge b, g => ((Graph.merge b).on g).2
  | removeEdge s t, g => ((Graph.removeEdge s t).on g).2
  | removeUnreachable, g => g.removeUnreachable.1

namespace Graph

open Edit

variable {g g' : Graph} {b c id next : BlockId} {v w : ValueId} {i : InstId}

/-- **The graphs that the public edits build**, with types changed in whatever way in between. -/
inductive Reachable : Graph → Prop
  | empty (method : Option MethodId) : Reachable (empty method)
  | edit {g : Graph} (c : Command) : Reachable g → Reachable (c.after g)
  | retype {g g' : Graph} : SameButTypes g g' → Reachable g → Reachable g'

/-! ### Every command -/

/-- **No command puts the lists out of step.** -/
theorem InStep.after (h : InStep g) (c : Command) : InStep (c.after g) := by
  cases c with
  | addBlock => exact h.pushBlock
  | addEdge s t =>
    rcases addEdge_outcome g s t with ⟨err, herr⟩ | ⟨hs, ht, hok⟩
    · rw [Command.after, herr]
      exact h
    · rw [Command.after, hok]
      exact h.link hs ht
  | addPhi b type =>
    rcases addPhi_outcome g b type with ⟨err, herr⟩ | ⟨hb, hok⟩
    · rw [Command.after, herr]
      exact h
    · rw [Command.after, hok]
      exact h.pushPhi hb
  | appendOperand phi v =>
    rcases appendOperand_outcome g phi v with
      ⟨err, herr⟩ | ⟨hv, ⟨p, hp, -, hroom⟩, hok⟩
    · rw [Command.after, herr]
      exact h
    · rw [Command.after, hok]
      refine h.pushOperand (hasValue_of_live hv) (b := p.block) ?_ ?_
      · rw [Value.phiBlock?, hp]
        rfl
      · rw [Value.phiOperands_of_livePhi? hp]
        exact hroom
  | addInstruction b operation operands type =>
    rcases addInstruction_outcome g b operation operands type with ⟨err, herr⟩ | ⟨hb, hall, -, hok⟩
    · rw [Command.after, herr]
      exact h
    · rw [Command.after, hok]
      exact h.pushInstruction hb fun v hv => hasValue_of_live (hall v hv)
  | replaceValue old new =>
    rcases replaceValue_outcome g old new with
      ⟨err, herr⟩ | ⟨-, hnew, hok⟩
    · rw [Command.after, herr]
      exact h
    · rw [Command.after, hok]
      show InStep (if old = new then g else g.substitute old new)
      split_ifs with hne
      · exact h
      · exact h.substitute hne (hasValue_of_live hnew)
  | replaceInstruction i operation operands =>
    rcases replaceInstruction_outcome g i operation operands with ⟨err, herr⟩ | ⟨⟨x, hx⟩, hall, hok⟩
    · rw [Command.after, herr]
      exact h
    · rw [Command.after, hok]
      exact h.rewriteInstruction hx fun v hv => hasValue_of_live (hall v hv)
  | removeInstruction i =>
    rcases removeInstruction_outcome g i with ⟨err, herr⟩ | ⟨⟨x, hx, -⟩, hok⟩
    · rw [Command.after, herr]
      exact h
    · rw [Command.after, hok]
      exact h.eraseInstruction hx
  | split b index =>
    rcases split_outcome g b index with ⟨err, herr⟩ | ⟨x, hx, -, hok⟩
    · rw [Command.after, herr]
      exact h
    · rw [Command.after, hok]
      exact h.splitAt hx index
  | merge b => exact h.merge
  | removeEdge s t =>
    rcases removeEdge_outcome g s t with ⟨err, herr⟩ | ⟨g', hg', hok⟩
    · rw [Command.after, herr]
      exact h
    · rw [Command.after, hok]
      exact h.unlink? hg'
  | removeUnreachable => exact h.removeUnreachable

theorem InStep.retype (h : InStep g) (hsame : SameButTypes g g') : InStep g' where
  filed := by
    have hblock : ∀ v, (g'.valueAt v).phiBlock? = (g.valueAt v).phiBlock? :=
      hsame.view (·.phiBlock?) fun _ _ => rfl
    have hops : ∀ v, (g'.valueAt v).phiOperands = (g.valueAt v).phiOperands :=
      hsame.view (·.phiOperands) fun _ _ => rfl
    refine ⟨?_, ?_, ?_, ?_, ?_, ?_⟩
    · intro c w
      rw [hsame.blockAt, hblock]
      exact h.filed.phis c w
    · intro c w hw
      rw [hblock] at hw
      rw [hsame.blockAt, hops]
      exact h.filed.arity c w hw
    · intro c j
      rw [hsame.blockAt, hsame.instruction?]
      exact h.filed.instructions c j
    · intro j w
      rw [hsame.instruction?, hsame.view (·.definer?) fun _ _ => rfl]
      exact h.filed.outputs j w
    · intro j w
      rw [hsame.operandsOf, hsame.view (·.users) fun _ _ => rfl]
      exact h.filed.uses j w
    · intro u w
      rw [hops, hsame.view (·.phiUsers) fun _ _ => rfl]
      exact h.filed.phiUses u w
  mirrored s t := by
    rw [hsame.blockAt, hsame.blockAt]
    exact h.mirrored s t

theorem inStep_empty (method : Option MethodId) : InStep (Graph.empty method) := by
  have hblock : ∀ c, (Graph.empty method).blockAt c = .empty := fun _ => rfl
  have hvalue : ∀ v, (Graph.empty method).valueAt v = .absent := fun _ => rfl
  refine ⟨⟨fun c v => ?_, fun c v hv => ?_, fun _ _ => rfl, fun i v => ?_, fun _ _ => rfl,
    fun _ _ => rfl⟩, fun _ _ => rfl⟩
  · rw [hblock, hvalue]
    rfl
  · rw [hvalue] at hv
    exact absurd hv (by simp)
  · rw [hvalue]
    exact ⟨fun he => absurd he (by simp [instruction?, Graph.empty]), fun he => absurd he (by simp)⟩

/-- What is reachable is in step. -/
theorem Reachable.inStep (h : Reachable g) : InStep g := by
  induction h with
  | empty method => exact inStep_empty method
  | edit c _ ih => exact ih.after c
  | retype hsame _ ih => exact ih.retype hsame

end Graph
end IrAnalysis
