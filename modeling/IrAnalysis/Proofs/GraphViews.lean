/-
# Reading a graph by number

Every number names a block and a value, if need be one with nothing in it:
`blockAt` and `valueAt` are total, and a number that names nothing reads as
`Block.empty` or `Value.absent`.  What is said of lists (an edge is listed by both
its ends, an operand by its use) can then be said of all numbers, live or not.

The lemmas say what each change of a graph does to these views and to
`instruction?`, and a change that is not named in one of them leaves the view as
it was.  A change that only takes out of lists needs no number to be taken; one
that adds to a list is told by `hf` that there is a block or value to add to.
-/

import IrAnalysis.PhiTypes.Recompute
import IrAnalysis.Proofs.Lists
import Mathlib.Tactic.ByContra

namespace IrAnalysis

namespace Value

/-- What a number that names no value reads as. -/
def absent : Value := ⟨.bottom, .instruction ⟨0⟩, [], [], false⟩

/-- The phi of a live value. -/
def livePhi? (x : Value) : Option Phi := if x.live then x.phi? else none

/-- The instruction that defines a live value. -/
def definer? (x : Value) : Option InstId := if x.live then x.instruction? else none

/-- The block of a live phi. -/
def phiBlock? (x : Value) : Option BlockId := x.livePhi?.map (·.block)

/-- The operands of a live phi. -/
def phiOperands (x : Value) : List ValueId := (x.livePhi?.map (·.operands)).getD []

/-- Change the list of instructions that read the value. -/
def mapUsers (f : List InstId → List InstId) (x : Value) : Value := { x with users := f x.users }

/-- Change the list of phis that read the value. -/
def mapPhiUsers (f : List ValueId → List ValueId) (x : Value) : Value :=
  { x with phiUsers := f x.phiUsers }

/-- The value, removed if `dead` says so. -/
def dieIf (dead : Bool) (x : Value) : Value := { x with live := x.live && !dead }

section

variable {x : Value} {f : List InstId → List InstId} {k : List ValueId → List ValueId} {d : Bool}

@[simp] theorem users_mapUsers : (x.mapUsers f).users = f x.users := rfl

@[simp] theorem phiUsers_mapUsers : (x.mapUsers f).phiUsers = x.phiUsers := rfl

@[simp] theorem livePhi?_mapUsers : (x.mapUsers f).livePhi? = x.livePhi? := rfl

@[simp] theorem definer?_mapUsers : (x.mapUsers f).definer? = x.definer? := rfl

@[simp] theorem phiBlock?_mapUsers : (x.mapUsers f).phiBlock? = x.phiBlock? := rfl

@[simp] theorem phiOperands_mapUsers : (x.mapUsers f).phiOperands = x.phiOperands := rfl

@[simp] theorem users_mapPhiUsers : (x.mapPhiUsers k).users = x.users := rfl

@[simp] theorem phiUsers_mapPhiUsers : (x.mapPhiUsers k).phiUsers = k x.phiUsers := rfl

@[simp] theorem livePhi?_mapPhiUsers : (x.mapPhiUsers k).livePhi? = x.livePhi? := rfl

@[simp] theorem definer?_mapPhiUsers : (x.mapPhiUsers k).definer? = x.definer? := rfl

@[simp] theorem phiBlock?_mapPhiUsers : (x.mapPhiUsers k).phiBlock? = x.phiBlock? := rfl

@[simp] theorem phiOperands_mapPhiUsers : (x.mapPhiUsers k).phiOperands = x.phiOperands := rfl

@[simp] theorem live_mapUsers : (x.mapUsers f).live = x.live := rfl

@[simp] theorem live_mapPhiUsers : (x.mapPhiUsers k).live = x.live := rfl

@[simp] theorem mapUsers_id : x.mapUsers (fun l => l) = x := rfl

@[simp] theorem mapPhiUsers_id : x.mapPhiUsers (fun l => l) = x := rfl

@[simp] theorem mapOperands_id : x.mapOperands (fun l => l) = x := by
  obtain ⟨t, _ | p, us, ps, l⟩ := x <;> rfl

@[simp] theorem users_mapOperands : (x.mapOperands k).users = x.users := by
  unfold mapOperands
  split <;> rfl

@[simp] theorem phiUsers_mapOperands : (x.mapOperands k).phiUsers = x.phiUsers := by
  unfold mapOperands
  split <;> rfl

@[simp] theorem definer?_mapOperands : (x.mapOperands k).definer? = x.definer? := by
  obtain ⟨t, _ | p, us, ps, l⟩ := x <;> rfl

@[simp] theorem livePhi?_mapOperands :
    (x.mapOperands k).livePhi? = x.livePhi?.map fun p => { p with operands := k p.operands } := by
  obtain ⟨t, _ | p, us, ps, _ | _⟩ := x <;> rfl

@[simp] theorem phiBlock?_mapOperands : (x.mapOperands k).phiBlock? = x.phiBlock? := by
  obtain ⟨t, _ | p, us, ps, _ | _⟩ := x <;> rfl

theorem phiOperands_mapOperands (hk : k [] = [] ∨ x.livePhi?.isSome) :
    (x.mapOperands k).phiOperands = k x.phiOperands := by
  rw [phiOperands, livePhi?_mapOperands, phiOperands]
  cases hp : x.livePhi? with
  | none => rcases hk with hk | hk <;> simp_all
  | some p => rfl

@[simp] theorem live_mapOperands : (x.mapOperands k).live = x.live := by
  unfold mapOperands
  split <;> rfl

@[simp] theorem live_dieIf : (x.dieIf d).live = (x.live && !d) := rfl

@[simp] theorem dieIf_false : x.dieIf false = x := by
  simp [dieIf]

@[simp] theorem users_dieIf : (x.dieIf d).users = x.users := rfl

@[simp] theorem phiUsers_dieIf : (x.dieIf d).phiUsers = x.phiUsers := rfl

@[simp] theorem livePhi?_dieIf : (x.dieIf d).livePhi? = if d then none else x.livePhi? := by
  cases d <;> simp [livePhi?, dieIf, phi?]

@[simp] theorem definer?_dieIf : (x.dieIf d).definer? = if d then none else x.definer? := by
  cases d <;> simp [definer?, dieIf, instruction?]

@[simp] theorem phiBlock?_dieIf : (x.dieIf d).phiBlock? = if d then none else x.phiBlock? := by
  cases d <;> simp [phiBlock?]

@[simp] theorem phiOperands_dieIf : (x.dieIf d).phiOperands = if d then [] else x.phiOperands := by
  cases d <;> simp [phiOperands]

end

@[simp] theorem users_absent : absent.users = [] := rfl

@[simp] theorem phiUsers_absent : absent.phiUsers = [] := rfl

@[simp] theorem livePhi?_absent : absent.livePhi? = none := rfl

@[simp] theorem phiBlock?_absent : absent.phiBlock? = none := rfl

@[simp] theorem phiOperands_absent : absent.phiOperands = [] := rfl

@[simp] theorem definer?_absent : absent.definer? = none := rfl

theorem livePhi?_eq_some {x : Value} {p : Phi} :
    x.livePhi? = some p ↔ x.live = true ∧ x.definition = .phi p := by
  obtain ⟨t, d, us, ps, l⟩ := x
  cases l <;> cases d <;> simp [livePhi?, phi?]

theorem definer?_eq_some {x : Value} {i : InstId} :
    x.definer? = some i ↔ x.live = true ∧ x.definition = .instruction i := by
  obtain ⟨t, d, us, ps, l⟩ := x
  cases l <;> cases d <;> simp [definer?, instruction?]

theorem phiBlock?_eq_some {x : Value} {b : BlockId} :
    x.phiBlock? = some b ↔ ∃ p, x.livePhi? = some p ∧ p.block = b := by
  simp [phiBlock?]

theorem phiOperands_of_livePhi? {x : Value} {p : Phi} (hp : x.livePhi? = some p) :
    x.phiOperands = p.operands := by
  simp [phiOperands, hp]

theorem phiBlock?_of_definer? {x : Value} {i : InstId} (hx : x.definer? = some i) :
    x.phiBlock? = none := by
  obtain ⟨hlive, hdef⟩ := definer?_eq_some.1 hx
  simp [phiBlock?, livePhi?, phi?, hdef]

theorem phiOperands_of_phiBlock?_none {x : Value} (hx : x.phiBlock? = none) :
    x.phiOperands = [] := by
  simp only [phiBlock?, Option.map_eq_none_iff] at hx
  simp [phiOperands, hx]

theorem livePhi?_of_definer? {x : Value} {i : InstId} (hx : x.definer? = some i) :
    x.livePhi? = none := by
  obtain ⟨hlive, hdef⟩ := definer?_eq_some.1 hx
  simp [livePhi?, phi?, hdef]

theorem definer?_of_livePhi? {x : Value} {p : Phi} (hx : x.livePhi? = some p) :
    x.definer? = none := by
  obtain ⟨hlive, hdef⟩ := livePhi?_eq_some.1 hx
  simp [definer?, instruction?, hdef]

end Value

namespace Graph

variable {g : Graph}

/-- The block with a number, or the block with nothing in it. -/
def blockAt (g : Graph) (b : BlockId) : Block := (g.block? b).getD .empty

/-- The value with a number, live or removed, or what stands for none. -/
def valueAt (g : Graph) (v : ValueId) : Value := (g.slot? v).getD .absent

/-- The operands of an instruction, none if it is not live. -/
def operandsOf (g : Graph) (i : InstId) : List ValueId :=
  ((g.instruction? i).map (·.operands)).getD []

/-- There is a live block with the number. -/
def HasBlock (g : Graph) (b : BlockId) : Prop := (g.block? b).isSome

/-- There is a value with the number, live or removed. -/
def HasValue (g : Graph) (v : ValueId) : Prop := (g.slot? v).isSome

theorem blockAt_of_block? {b : BlockId} {x : Block} (hb : g.block? b = some x) :
    g.blockAt b = x := by
  simp [blockAt, hb]

theorem hasBlock_of_block? {b : BlockId} {x : Block} (hb : g.block? b = some x) :
    g.HasBlock b := by
  simp [HasBlock, hb]

theorem blockAt_of_not_hasBlock {b : BlockId} (hb : ¬ g.HasBlock b) : g.blockAt b = .empty := by
  rw [HasBlock, Option.not_isSome_iff_eq_none] at hb
  simp [blockAt, hb]

/-- A number that reads as more than nothing names a block. -/
theorem hasBlock_of_mem {b : BlockId} {α : Type} {a : α} {f : Block → List α}
    (hf : f .empty = []) (ha : a ∈ f (g.blockAt b)) : g.HasBlock b := by
  by_contra hb
  rw [blockAt_of_not_hasBlock hb, hf] at ha
  simp at ha

theorem valueAt_of_slot? {v : ValueId} {x : Value} (hv : g.slot? v = some x) :
    g.valueAt v = x := by
  simp [valueAt, hv]

theorem valueAt_of_not_hasValue {v : ValueId} (hv : ¬ g.HasValue v) : g.valueAt v = .absent := by
  rw [HasValue, Option.not_isSome_iff_eq_none] at hv
  simp [valueAt, hv]

theorem hasValue_of_valueAt_ne {v : ValueId} (hv : g.valueAt v ≠ .absent) : g.HasValue v := by
  by_contra h
  exact hv (valueAt_of_not_hasValue h)

theorem value?_eq (g : Graph) (v : ValueId) :
    g.value? v = if (g.valueAt v).live then some (g.valueAt v) else none := by
  unfold value? valueAt
  cases g.slot? v with
  | none => rfl
  | some x =>
    rw [Option.filter_some]
    rfl

theorem hasValue_of_live {v : ValueId} (hv : (g.valueAt v).live = true) : g.HasValue v := by
  refine hasValue_of_valueAt_ne fun habs => ?_
  rw [habs] at hv
  exact absurd hv (by decide)

theorem typeAt_eq (g : Graph) (v : ValueId) : g.typeAt v = (g.valueAt v).type := by
  unfold typeAt valueAt
  cases g.slot? v <;> rfl

theorem readingPhis_eq (g : Graph) (v : ValueId) : g.readingPhis v = (g.valueAt v).phiUsers := by
  unfold readingPhis valueAt
  cases g.slot? v <;> rfl

theorem readingInstructions_eq (g : Graph) (v : ValueId) :
    g.readingInstructions v = (g.valueAt v).users := by
  unfold readingInstructions valueAt
  cases g.slot? v <;> rfl

theorem phi?_eq (g : Graph) (v : ValueId) : g.phi? v = (g.valueAt v).phi? := by
  unfold phi? valueAt
  cases g.slot? v <;> rfl

theorem phi?_of_livePhi? {v : ValueId} {p : Phi} (hv : (g.valueAt v).livePhi? = some p) :
    g.phi? v = some p := by
  rw [phi?_eq, Value.phi?, (Value.livePhi?_eq_some.1 hv).2]

/-! ### Single changes -/

section Modify

variable {b c : BlockId} {v w : ValueId} {i j : InstId}

theorem block?_modifyBlock {f : Block → Block} :
    (g.modifyBlock b f).block? c = if c = b then (g.block? c).map f else g.block? c := by
  have hbc : b.index = c.index ↔ c = b := by
    cases b; cases c; simp [eq_comm]
  simp only [block?, modifyBlock, List.getElem?_modify, hbc]
  by_cases h : c = b
  · simp only [h, if_true]
    cases g.blocks[b.index]? <;> simp
  · simp [h]

theorem slot?_modifyValue {f : Value → Value} :
    (g.modifyValue v f).slot? w = if w = v then (g.slot? w).map f else g.slot? w := by
  have hvw : v.index = w.index ↔ w = v := by
    cases v; cases w; simp [eq_comm]
  simp only [slot?, modifyValue, List.getElem?_modify, hvw]
  by_cases h : w = v <;> simp [h]

theorem instruction?_modifyInstruction {f : Instruction → Instruction} :
    (g.modifyInstruction i f).instruction? j =
      if j = i then (g.instruction? j).map f else g.instruction? j := by
  have hij : i.index = j.index ↔ j = i := by
    cases i; cases j; simp [eq_comm]
  simp only [instruction?, modifyInstruction, List.getElem?_modify, hij]
  by_cases h : j = i
  · simp only [h, if_true]
    cases g.instructions[i.index]? <;> simp
  · simp [h]

theorem blockAt_modifyBlock {f : Block → Block} (hf : f .empty = .empty ∨ g.HasBlock b) :
    (g.modifyBlock b f).blockAt c = if c = b then f (g.blockAt c) else g.blockAt c := by
  rw [blockAt, block?_modifyBlock]
  by_cases hc : c = b
  · subst hc
    simp only [if_true, blockAt]
    cases hg : g.block? c with
    | none =>
      rcases hf with hf | hf
      · exact hf.symm
      · simp [HasBlock, hg] at hf
    | some x => rfl
  · simp only [if_neg hc, blockAt]

theorem valueAt_modifyValue {f : Value → Value} (hf : f .absent = .absent ∨ g.HasValue v) :
    (g.modifyValue v f).valueAt w = if w = v then f (g.valueAt w) else g.valueAt w := by
  rw [valueAt, slot?_modifyValue]
  by_cases hw : w = v
  · subst hw
    simp only [if_true, valueAt]
    cases hg : g.slot? w with
    | none =>
      rcases hf with hf | hf
      · exact hf.symm
      · simp [HasValue, hg] at hf
    | some x => rfl
  · simp only [if_neg hw, valueAt]

@[simp] theorem blockAt_modifyValue {f : Value → Value} :
    (g.modifyValue v f).blockAt c = g.blockAt c := rfl

@[simp] theorem blockAt_modifyInstruction {f : Instruction → Instruction} :
    (g.modifyInstruction i f).blockAt c = g.blockAt c := rfl

@[simp] theorem valueAt_modifyBlock {f : Block → Block} :
    (g.modifyBlock b f).valueAt w = g.valueAt w := rfl

@[simp] theorem valueAt_modifyInstruction {f : Instruction → Instruction} :
    (g.modifyInstruction i f).valueAt w = g.valueAt w := rfl

@[simp] theorem instruction?_modifyBlock {f : Block → Block} :
    (g.modifyBlock b f).instruction? j = g.instruction? j := rfl

@[simp] theorem instruction?_modifyValue {f : Value → Value} :
    (g.modifyValue v f).instruction? j = g.instruction? j := rfl

@[simp] theorem hasBlock_modifyBlock {f : Block → Block} :
    (g.modifyBlock b f).HasBlock c ↔ g.HasBlock c := by
  unfold HasBlock
  rw [block?_modifyBlock]
  split <;> simp

@[simp] theorem hasBlock_modifyValue {f : Value → Value} :
    (g.modifyValue v f).HasBlock c ↔ g.HasBlock c := Iff.rfl

@[simp] theorem hasBlock_modifyInstruction {f : Instruction → Instruction} :
    (g.modifyInstruction i f).HasBlock c ↔ g.HasBlock c := Iff.rfl

@[simp] theorem hasValue_modifyBlock {f : Block → Block} :
    (g.modifyBlock b f).HasValue w ↔ g.HasValue w := Iff.rfl

@[simp] theorem hasValue_modifyValue {f : Value → Value} :
    (g.modifyValue v f).HasValue w ↔ g.HasValue w := by
  unfold HasValue
  rw [slot?_modifyValue]
  split <;> simp

@[simp] theorem hasValue_modifyInstruction {f : Instruction → Instruction} :
    (g.modifyInstruction i f).HasValue w ↔ g.HasValue w := Iff.rfl

end Modify

/-! ### Graphs that read alike -/

/-- What is not read by number: the method, and how many numbers of each kind were given out. -/
def extent (g : Graph) : Option MethodId × Nat × Nat × Nat :=
  (g.method, g.blocks.length, g.values.length, g.instructions.length)

section Extent

variable {b : BlockId} {v : ValueId} {i : InstId}

@[simp] theorem extent_modifyBlock {f : Block → Block} : (g.modifyBlock b f).extent = g.extent := by
  simp [extent, modifyBlock]

@[simp] theorem extent_modifyValue {f : Value → Value} : (g.modifyValue v f).extent = g.extent := by
  simp [extent, modifyValue]

@[simp] theorem extent_modifyInstruction {f : Instruction → Instruction} :
    (g.modifyInstruction i f).extent = g.extent := by
  simp [extent, modifyInstruction]

end Extent

/-- **A graph is what is read of it by number**, up to the numbers that it gave out. -/
theorem eq_of_views {g' : Graph} (hextent : g'.extent = g.extent)
    (hblock : ∀ b, g'.block? b = g.block? b) (hvalue : ∀ v, g'.valueAt v = g.valueAt v)
    (hinst : ∀ i, g'.instruction? i = g.instruction? i) : g' = g := by
  simp only [extent, Prod.mk.injEq] at hextent
  obtain ⟨hmethod, hblocks, hvalues, hinsts⟩ := hextent
  have hb : g'.blocks = g.blocks := eq_of_join_getElem? hblocks fun n => hblock ⟨n⟩
  have hi : g'.instructions = g.instructions := eq_of_join_getElem? hinsts fun n => hinst ⟨n⟩
  have hv : g'.values = g.values := by
    refine List.ext_getElem hvalues fun n h₁ h₂ => ?_
    have hn := hvalue ⟨n⟩
    rwa [valueAt, valueAt, slot?, slot?, List.getElem?_eq_getElem h₁,
      List.getElem?_eq_getElem h₂] at hn
  cases g
  cases g'
  simp_all

end Graph
end IrAnalysis
