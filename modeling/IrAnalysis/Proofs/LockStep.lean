/-
# What the lists of a reachable graph say

`Graph.LockStep` says of blocks, values and instructions by name what
`Graph.InStep` says of all numbers at once: what one list names is live and named
back, as often as it should be.  It holds of every graph that the public edits
build (`Graph.reachable_lockStep`), at every point, so `Graph.verify` can only find a
phi that lacks operands or an operand that is no longer live.
-/

import IrAnalysis.Proofs.Reachable

namespace IrAnalysis
namespace Graph

variable {g g' : Graph}

/-- **Edges, phis, instructions and uses are kept in lock step.**  A value counts for its uses
whether or not it is live; what reads it counts if it is. -/
structure LockStep (g : Graph) : Prop where
  /-- The two ends of an edge list it equally often. -/
  edge_counts : ∀ b t x y, g.block? b = some x → g.block? t = some y →
    x.successors.count t = y.predecessors.count b
  /-- Both ends of an edge are live. -/
  edges_live : ∀ b x, g.block? b = some x → ∀ t, t ∈ x.successors ∨ t ∈ x.predecessors →
    ∃ y, g.block? t = some y
  /-- A live phi is listed once by the live block that it names, and has no more operands than
  that block has predecessors. -/
  phi_listed : ∀ v x p, g.value? v = some x → x.phi? = some p →
    ∃ b, g.block? p.block = some b ∧ b.phis.count v = 1 ∧
      p.operands.length ≤ b.predecessors.length
  /-- A block lists live phis that name it. -/
  listed_phi : ∀ b y v, g.block? b = some y → v ∈ y.phis →
    ∃ x p, g.value? v = some x ∧ x.phi? = some p ∧ p.block = b
  /-- A live instruction is listed once by the live block that it names. -/
  instruction_listed : ∀ i x, g.instruction? i = some x →
    ∃ b, g.block? x.block = some b ∧ b.instructions.count i = 1
  /-- A block lists live instructions that name it. -/
  listed_instruction : ∀ b y i, g.block? b = some y → i ∈ y.instructions →
    ∃ x, g.instruction? i = some x ∧ x.block = b
  /-- The output of a live instruction is live and defined by it. -/
  output_defined : ∀ i x v, g.instruction? i = some x → x.output = some v →
    ∃ y, g.value? v = some y ∧ y.instruction? = some i
  /-- A live value that is no phi is the output of a live instruction. -/
  value_defined : ∀ v y, g.value? v = some y → y.isPhi = false →
    ∃ i x, y.instruction? = some i ∧ g.instruction? i = some x ∧ x.output = some v
  /-- An instruction is listed by a value as often as it reads the value. -/
  users_count : ∀ v x i, g.slot? v = some x →
    x.users.count i = ((g.instruction? i).map (·.operands.count v)).getD 0
  /-- A phi is listed by a value as often as it reads the value. -/
  phiUsers_count : ∀ v x u, g.slot? v = some x →
    x.phiUsers.count u = (((g.value? u).bind (·.phi?)).map (·.operands.count v)).getD 0

/-- A live phi, by either of its names. -/
theorem livePhi?_eq (g : Graph) (v : ValueId) :
    (g.valueAt v).livePhi? = (g.value? v).bind (·.phi?) := by
  rw [value?_eq, Value.livePhi?]
  split_ifs <;> rfl

theorem definer?_eq (g : Graph) (v : ValueId) :
    (g.valueAt v).definer? = (g.value? v).bind (·.instruction?) := by
  rw [value?_eq, Value.definer?]
  split_ifs <;> rfl

theorem InStep.lockStep (h : InStep g) : LockStep g where
  edge_counts b t x y hx hy := by
    rw [← blockAt_of_block? hx, ← blockAt_of_block? hy]
    exact h.mirrored b t
  edges_live b x hx t ht := by
    have hblock := blockAt_of_block? hx
    have hpos : 0 < (g.blockAt b).successors.count t ∨ 0 < (g.blockAt b).predecessors.count t := by
      rw [hblock, List.count_pos_iff, List.count_pos_iff]
      exact ht
    have hlive : g.HasBlock t := by
      by_contra hno
      have hzero := h.unlisted hno b
      omega
    exact Option.isSome_iff_exists.1 hlive
  phi_listed v x p hx hp := by
    have hphi : (g.valueAt v).livePhi? = some p := by
      rw [livePhi?_eq, hx]
      exact hp
    have hb : (g.valueAt v).phiBlock? = some p.block := by
      rw [Value.phiBlock?, hphi]
      rfl
    have hmem := h.filed.mem_phis.2 hb
    obtain ⟨b, hblock⟩ := Option.isSome_iff_exists.1
      (hasBlock_of_mem (f := (·.phis)) rfl hmem)
    have hcount := h.filed.phis p.block v
    have harity := h.filed.arity p.block v hb
    rw [blockAt_of_block? hblock] at hcount harity
    rw [Value.phiOperands_of_livePhi? hphi] at harity
    rw [if_pos hb] at hcount
    exact ⟨b, hblock, hcount, harity⟩
  listed_phi b y v hy hv := by
    rw [← blockAt_of_block? hy] at hv
    obtain ⟨p, hp, hpb⟩ := Value.phiBlock?_eq_some.1 (h.filed.mem_phis.1 hv)
    rw [livePhi?_eq] at hp
    obtain ⟨x, hx, hxp⟩ := Option.bind_eq_some_iff.1 hp
    exact ⟨x, p, hx, hxp, hpb⟩
  instruction_listed i x hx := by
    have hb : (g.instruction? i).map (·.block) = some x.block := by
      rw [hx]
      rfl
    have hmem := h.filed.mem_instructions.2 hb
    obtain ⟨b, hblock⟩ := Option.isSome_iff_exists.1
      (hasBlock_of_mem (f := (·.instructions)) rfl hmem)
    have hcount := h.filed.instructions x.block i
    rw [blockAt_of_block? hblock, if_pos hb] at hcount
    exact ⟨b, hblock, hcount⟩
  listed_instruction b y i hy hi := by
    rw [← blockAt_of_block? hy] at hi
    exact Option.map_eq_some_iff.1 (h.filed.mem_instructions.1 hi)
  output_defined i x v hx hv := by
    have hdef := (h.filed.outputs i v).1 (by rw [hx]; exact hv)
    rw [definer?_eq] at hdef
    exact Option.bind_eq_some_iff.1 hdef
  value_defined v y hy hphi := by
    obtain ⟨i, hi⟩ : ∃ i, y.instruction? = some i := by
      obtain ⟨t, i | p, us, ps, l⟩ := y
      · exact ⟨i, rfl⟩
      · exact absurd hphi (by simp [Value.isPhi, Value.phi?])
    have hdef : (g.valueAt v).definer? = some i := by
      rw [definer?_eq, hy]
      exact hi
    obtain ⟨x, hx, hout⟩ := Option.bind_eq_some_iff.1 ((h.filed.outputs i v).2 hdef)
    exact ⟨i, x, hi, hx, hout⟩
  users_count v x i hx := by
    have hcount := h.filed.uses i v
    rw [valueAt_of_slot? hx, operandsOf] at hcount
    rw [hcount]
    cases g.instruction? i <;> rfl
  phiUsers_count v x u hx := by
    have hcount := h.filed.phiUses u v
    rw [valueAt_of_slot? hx, Value.phiOperands, livePhi?_eq] at hcount
    rw [hcount]
    cases (g.value? u).bind (·.phi?) <;> rfl

/-- **The lists of a reachable graph are in lock step**, after every edit, whether it went through
or was refused on the way, and whether or not the phis have all their operands. -/
theorem reachable_lockStep (h : Reachable g) : LockStep g := h.inStep.lockStep

/-- The graph that a run of commands leaves. -/
def afterAll (cs : List Command) (g : Graph) : Graph := cs.foldl (fun g c => c.after g) g

theorem Reachable.afterAll (h : Reachable g) (cs : List Command) : Reachable (afterAll cs g) :=
  foldl_preserves (fun _ c _ hg => hg.edit c) h

/-- A loop whose phi has one operand for two predecessors, after a second edge was refused
its source: the hypothesis is satisfiable, and the graph is not empty. -/
theorem reachable_lockStep_loop :
    let g := afterAll [.addBlock, .addBlock, .addEdge ⟨0⟩ ⟨1⟩, .addEdge ⟨1⟩ ⟨1⟩,
      .addPhi ⟨1⟩ .bottom, .appendOperand ⟨0⟩ ⟨0⟩, .addEdge ⟨7⟩ ⟨1⟩] (Graph.empty none)
    g.block? ⟨1⟩ = some ⟨[⟨0⟩], [], [⟨0⟩, ⟨1⟩], [⟨1⟩]⟩ ∧ LockStep g :=
  ⟨by decide, reachable_lockStep (Reachable.afterAll (.empty none) _)⟩

end Graph
end IrAnalysis
