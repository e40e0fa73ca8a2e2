/-
# Blocks that are looked for again

The edits in `IrAnalysis.Graph.Edit` look at what they are given first and then make all their
changes at once.  Here the changes are made one after the other, and a block is looked for again
when its turn comes (`Graph.Rechecked`).  If it were not live the edit would refuse half done.

| edit | what is looked for again |
| --- | --- |
| `addEdge` | the source and the target |
| `addPhi`, `addInstruction` | the block |
| `removeInstruction` | the block that the instruction names |
| `split` | the block, its successors, the new block, and the block once more for the jump |
| `merge` | the successor, the successors of that, and the block |

Where the lists are in step no edit refuses half done.  What a live block or instruction names is
live, and a block that is found at first stays live: of these edits only a merge removes a block,
the one that it takes over, and nothing that it looks for after that leads back there.  So on a
reachable graph the edits done step by step are those done at once (`Reachable.rechecked`).
-/

import IrAnalysis.Proofs.Reachable

namespace IrAnalysis
namespace Graph

open Edit

/-! ### The edits step by step -/

namespace Rechecked

/-- Change a block, which must be live, and return what it was. -/
def changeBlock (id : BlockId) (f : Block → Block) : Edit Block := do
  let b ← check (·.checkBlock id)
  change (·.modifyBlock id f)
  return b

/-- Tell the successors of a block that was `old` that it is `new`. -/
def renamePredecessor (old new : BlockId) (successors : List BlockId) : Edit Unit :=
  successors.forM fun s => discard <| changeBlock s fun b =>
    { b with predecessors := b.predecessors.map fun p => if p = old then new else p }

def addEdge (source target : BlockId) : Edit Unit := do
  discard <| check (·.checkBlock target)
  discard <| changeBlock source fun b => { b with successors := b.successors ++ [target] }
  discard <| changeBlock target fun b => { b with predecessors := b.predecessors ++ [source] }

def addPhi (b : BlockId) (t : Ty) : Edit ValueId := do
  discard <| check (·.checkBlock b)
  let v := (← get).nextValue
  change fun g => { g with values := g.values ++ [⟨t, .phi ⟨b, []⟩, [], [], true⟩] }
  discard <| changeBlock b fun x => { x with phis := x.phis ++ [v] }
  return v

/-- Note an instruction and what it reads and defines, but not in its block. -/
def noteInstruction (g : Graph) (b : BlockId) (operation : Operation) (operands : List ValueId)
    (type : Option Ty) : Graph :=
  let i := g.nextInstruction
  let defined := type.toList.map fun t => (⟨t, .instruction i, [], [], true⟩ : Value)
  let reading := operands.foldl (addUse i) { g with values := g.values ++ defined }
  let x : Instruction := ⟨b, operation, operands, type.map fun _ => g.nextValue⟩
  { reading with instructions := reading.instructions ++ [some x] }

def addInstruction (b : BlockId) (operation : Operation) (operands : List ValueId)
    (type : Option Ty) : Edit InstId := do
  discard <| check (·.checkBlock b)
  check (·.checkValues operands)
  if operation.passesThrough && operands.length ≠ 1 then
    throw (.operandCount operation operands.length)
  let i := (← get).nextInstruction
  change (noteInstruction · b operation operands type)
  discard <| changeBlock b fun x => { x with instructions := x.instructions ++ [i] }
  return i

def removeInstruction (i : InstId) : Edit Unit := do
  let x ← check (·.checkInstruction i)
  match x.output with
  | some v =>
    if ((← get).slot? v).any (!·.isUnused) then throw (.stillUsed i v)
  | none => pure ()
  discard <| changeBlock x.block fun b =>
    { b with instructions := b.instructions.filter (· ≠ i) }
  change (·.discardInstruction i)

/-- Move what follows the first `index` instructions of a block, and its successors, to a new
block. -/
def cut (id : BlockId) (index : Nat) : Edit BlockId := do
  let fresh := (← get).nextBlock
  change (·.pushBlock .empty)
  let head ← changeBlock id fun b =>
    { b with instructions := b.instructions.take index, successors := [fresh] }
  let tail := head.instructions.drop index
  change (assignBlock fresh · tail)
  renamePredecessor id fresh head.successors
  discard <| changeBlock fresh fun b =>
    { b with
      instructions := tail
      successors := head.successors
      predecessors := b.predecessors ++ [id] }
  return fresh

def split (id : BlockId) (index : Nat) : Edit BlockId := do
  let b ← check (·.checkBlock id)
  if b.instructions.length < index then
    throw (.splitBeyond id index b.instructions.length)
  let fresh ← cut id index
  discard <| addInstruction id .goto [] none
  return fresh

/-- Remove a jump at the end of a block. -/
def dropGoto (id : BlockId) : Edit Unit := do
  match (← check (·.checkBlock id)).instructions.getLast? with
  | none => pure ()
  | some i =>
    if ((← get).instruction? i).any (·.operation = .goto) then removeInstruction i

/-- Append a block to the one before it and remove it. -/
def absorb (id next : BlockId) : Edit Unit := do
  let n ← check (·.checkBlock next)
  change (·.dropBlock next)
  change (assignBlock id · n.instructions)
  renamePredecessor next id n.successors
  discard <| changeBlock id fun b =>
    { b with instructions := b.instructions ++ n.instructions, successors := n.successors }

/-- What a merge does once it has found that the blocks can be merged. -/
def mergeInto (id next : BlockId) (phis : List ValueId) : Edit BlockId := do
  phis.forM inlinePhi
  dropGoto id
  absorb id next
  return next

def merge (id : BlockId) : Edit BlockId := do
  match (← check (·.checkBlock id)).successors with
  | [next] =>
    if next = id then throw (.noSingleSuccessor id)
    let n ← check (·.checkBlock next)
    if n.predecessors ≠ [id] then throw (.otherPredecessors next id)
    mergeInto id next n.phis
  | _ => throw (.noSingleSuccessor id)

end Rechecked

/-! ### What is looked for again is there -/

variable {g : Graph} {b id next : BlockId} {i : InstId} {f : Block → Block} {x : Block}

/-- The block that a live instruction names is live. -/
theorem InStep.hasBlock_of_instruction? (h : InStep g) {y : Instruction}
    (hi : g.instruction? i = some y) : g.HasBlock y.block := by
  have hmem : i ∈ (g.blockAt y.block).instructions :=
    h.filed.mem_instructions.2 (by rw [hi]; rfl)
  exact hasBlock_of_mem (f := (·.instructions)) rfl hmem

/-- Only what a live block is matters for a change of it. -/
theorem modifyBlock_congr {f' : Block → Block} (hb : g.HasBlock b)
    (hf : f (g.blockAt b) = f' (g.blockAt b)) : g.modifyBlock b f = g.modifyBlock b f' := by
  obtain ⟨x, hx⟩ := Option.isSome_iff_exists.1 hb
  rw [blockAt_of_block? hx] at hf
  have hslot : g.blocks[b.index]? = some (some x) := Option.join_eq_some_iff.1 hx
  have hmodify : ∀ k : Block → Block,
      g.blocks.modify b.index (Option.map k) = g.blocks.set b.index (some (k x)) := by
    intro k
    rw [List.modify_eq_set_getElem?, hslot]
    rfl
  rw [modifyBlock, modifyBlock, hmodify, hmodify, hf]

namespace Rechecked

theorem on_changeBlock (hb : g.block? b = some x) :
    (changeBlock b f).on g = (.ok x, g.modifyBlock b f) := by
  simp [changeBlock, checkBlock_of_block? hb]

theorem on_discard_changeBlock (hb : g.HasBlock b) :
    (discard (changeBlock b f)).on g = (.ok ⟨⟩, g.modifyBlock b f) := by
  obtain ⟨x, hx⟩ := Option.isSome_iff_exists.1 hb
  rw [on_discard, on_changeBlock hx]

/-- Telling the successors removes none of them. -/
theorem on_renamePredecessor {old new : BlockId} {l : List BlockId}
    (hl : ∀ s ∈ l, g.HasBlock s) :
    (renamePredecessor old new l).on g = (.ok ⟨⟩, Graph.renamePredecessor old new g l) := by
  induction l generalizing g with
  | nil => rfl
  | cons s l ih =>
    rw [List.forall_mem_cons] at hl
    have hcons : renamePredecessor old new (s :: l) = (do
        discard <| changeBlock s fun b =>
          { b with predecessors := b.predecessors.map fun p => if p = old then new else p }
        renamePredecessor old new l) := rfl
    rw [hcons, on_bind, on_discard_changeBlock hl.1]
    exact ih fun s hs => hasBlock_modifyBlock.2 (hl.2 s hs)

theorem on_addEdge (g : Graph) (s t : BlockId) :
    (addEdge s t).on g = (Graph.addEdge s t).on g := by
  unfold addEdge Graph.addEdge
  cases ht : g.block? t with
  | none => simp [checkBlock_of_none ht]
  | some y =>
    cases hs : g.block? s with
    | none => simp [changeBlock, checkBlock_of_block? ht, checkBlock_of_none hs]
    | some x =>
      have hlive : (g.modifyBlock s fun b =>
          { b with successors := b.successors ++ [t] }).HasBlock t :=
        hasBlock_modifyBlock.2 (hasBlock_of_block? ht)
      obtain ⟨z, hz⟩ := Option.isSome_iff_exists.1 hlive
      simp [checkBlock_of_block? ht, checkBlock_of_block? hs, on_changeBlock hs, on_changeBlock hz,
        link]

theorem on_addPhi (g : Graph) (b : BlockId) (ty : Ty) :
    (addPhi b ty).on g = (Graph.addPhi b ty).on g := by
  unfold addPhi Graph.addPhi
  cases hb : g.block? b with
  | none => simp [checkBlock_of_none hb]
  | some x =>
    have hnoted : ({ g with values := g.values ++ [⟨ty, .phi ⟨b, []⟩, [], [], true⟩] } :
        Graph).block? b = some x := hb
    simp [checkBlock_of_block? hb, on_changeBlock hnoted, pushPhi]

theorem blocks_noteInstruction (g : Graph) (b : BlockId) (operation : Operation)
    (operands : List ValueId) (type : Option Ty) :
    (noteInstruction g b operation operands type).blocks = g.blocks := blocks_addUses

theorem pushInstruction_eq_noteInstruction (g : Graph) (b : BlockId) (operation : Operation)
    (operands : List ValueId) (type : Option Ty) :
    g.pushInstruction b operation operands type =
      (noteInstruction g b operation operands type).modifyBlock b fun x =>
        { x with instructions := x.instructions ++ [g.nextInstruction] } := rfl

theorem on_addInstruction (g : Graph) (b : BlockId) (operation : Operation)
    (operands : List ValueId) (type : Option Ty) :
    (addInstruction b operation operands type).on g =
      (Graph.addInstruction b operation operands type).on g := by
  unfold addInstruction Graph.addInstruction
  cases hb : g.block? b with
  | none => simp [checkBlock_of_none hb]
  | some x =>
    have hnoted : (noteInstruction g b operation operands type).block? b = some x := by
      rw [block?, blocks_noteInstruction]
      exact hb
    rcases checkValues_cases g operands with ⟨err, herr⟩ | ⟨-, hok⟩
    · simp [checkBlock_of_block? hb, herr]
    · by_cases hone : operation.passesThrough = true ∧ operands.length ≠ 1
      · simp [checkBlock_of_block? hb, hok, hone]
      · simp [checkBlock_of_block? hb, hok, hone, on_changeBlock hnoted,
          pushInstruction_eq_noteInstruction]

theorem on_removeInstruction (h : InStep g) (i : InstId) :
    (removeInstruction i).on g = (Graph.removeInstruction i).on g := by
  unfold removeInstruction Graph.removeInstruction
  cases hi : g.instruction? i with
  | none => simp [checkInstruction, hi]
  | some x =>
    obtain ⟨b, hb⟩ := Option.isSome_iff_exists.1 (h.hasBlock_of_instruction? hi)
    have herased : g.eraseInstruction i = (g.modifyBlock x.block fun b =>
        { b with instructions := b.instructions.filter (· ≠ i) }).discardInstruction i := by
      simp only [eraseInstruction, hi]
    cases hout : x.output with
    | none => simp [checkInstruction, hi, hout, on_changeBlock hb, herased]
    | some v =>
      by_cases hused : (g.slot? v).any (!·.isUnused) = true
      · simp [checkInstruction, hi, hout, hused]
      · simp [checkInstruction, hi, hout, hused, on_changeBlock hb, herased]

/-- The tail of a block is taken out and said to lie in the next block, which is still empty. -/
def shortened (g : Graph) (id : BlockId) (index : Nat) : Graph :=
  assignBlock g.nextBlock ((g.pushBlock .empty).modifyBlock id fun b =>
    { b with instructions := b.instructions.take index, successors := [g.nextBlock] })
    ((g.blockAt id).instructions.drop index)

theorem hasBlock_shortened {c : BlockId} {index : Nat} :
    (shortened g id index).HasBlock c ↔ c = g.nextBlock ∨ g.HasBlock c := by
  rw [shortened, hasBlock_congr blocks_assignBlock, hasBlock_modifyBlock, hasBlock_pushBlock]

theorem blockAt_shortened (hid : g.HasBlock id) (index : Nat) :
    (shortened g id index).blockAt g.nextBlock = .empty := by
  have hne : g.nextBlock ≠ id := fun he => not_hasBlock_nextBlock (he ▸ hid)
  rw [shortened, blockAt_congr blocks_assignBlock,
    blockAt_modifyBlock (Or.inr (hasBlock_pushBlock.2 (Or.inr hid))), if_neg hne,
    blockAt_pushBlock_empty, blockAt_of_not_hasBlock not_hasBlock_nextBlock]

theorem on_cut (h : InStep g) (hid : g.block? id = some x) (index : Nat) :
    (cut id index).on g = (.ok g.nextBlock, g.cutAt id index) := by
  have hlive := hasBlock_of_block? hid
  obtain rfl := blockAt_of_block? hid
  have hpushed : (g.pushBlock .empty).block? id = some (g.blockAt id) := by
    rw [block?_pushBlock, if_neg (fun he => not_hasBlock_nextBlock (he ▸ hlive)), hid]
  obtain ⟨renamed, hrenamed⟩ : ∃ renamed, renamed = Graph.renamePredecessor id g.nextBlock
      (shortened g id index) (g.blockAt id).successors := ⟨_, rfl⟩
  -- The successors of the block were live before, and are told one after the other.
  have hrename : (renamePredecessor id g.nextBlock (g.blockAt id).successors).on
      (shortened g id index) = (.ok ⟨⟩, renamed) := by
    rw [hrenamed]
    exact on_renamePredecessor fun s hs =>
      hasBlock_shortened.2 (Or.inr (h.hasBlock_of_leads hs))
  have hfresh : renamed.HasBlock g.nextBlock := by
    rw [hrenamed, hasBlock_renamePredecessor]
    exact hasBlock_shortened.2 (Or.inl rfl)
  have hempty : renamed.blockAt g.nextBlock = .empty := by
    rw [hrenamed, blockAt_renamePredecessor, blockAt_shortened hlive]
    split_ifs <;> rfl
  have hfilled : renamed.modifyBlock g.nextBlock (fun b =>
      { b with
        instructions := (g.blockAt id).instructions.drop index
        successors := (g.blockAt id).successors
        predecessors := b.predecessors ++ [id] }) = g.cutAt id index := by
    rw [cutAt, ← shortened, ← hrenamed]
    refine modifyBlock_congr hfresh ?_
    rw [hempty]
    rfl
  simp only [cut, on_bind, on_get, on_change, on_changeBlock hpushed]
  rw [← shortened, hrename]
  simp only [on_discard_changeBlock hfresh, hfilled, on_pure]

/-- A jump is never refused. -/
theorem on_addJump (hb : g.HasBlock b) : (Graph.addInstruction b .goto [] none).on g =
    (.ok g.nextInstruction, g.pushInstruction b .goto [] none) := by
  obtain ⟨x, hx⟩ := Option.isSome_iff_exists.1 hb
  have hvalues : g.checkValues [] = .ok () := rfl
  have hpass : Operation.goto.passesThrough = false := rfl
  simp [Graph.addInstruction, checkBlock_of_block? hx, hvalues, hpass]

theorem on_split (h : InStep g) (id : BlockId) (index : Nat) :
    (split id index).on g = (Graph.split id index).on g := by
  unfold split Graph.split
  cases hid : g.block? id with
  | none => simp [checkBlock_of_none hid]
  | some x =>
    by_cases hlen : x.instructions.length < index
    · simp [checkBlock_of_block? hid, hlen]
    · have hcut : (g.cutAt id index).HasBlock id :=
        hasBlock_cutAt.2 (Or.inr (hasBlock_of_block? hid))
      simp [checkBlock_of_block? hid, hlen, on_cut h hid, on_addInstruction, on_addJump hcut,
        splitAt_eq hid]

theorem on_dropGoto (h : InStep g) (id : BlockId) :
    (dropGoto id).on g = (Graph.dropGoto id).on g := by
  unfold dropGoto Graph.dropGoto
  cases hb : g.block? id with
  | none => simp [checkBlock_of_none hb]
  | some b =>
    cases hlast : b.instructions.getLast? with
    | none => simp [checkBlock_of_block? hb, hlast]
    | some i =>
      by_cases hgoto : (g.instruction? i).any (·.operation = .goto) = true
      · simp [checkBlock_of_block? hb, hlast, hgoto, on_removeInstruction h]
      · simp [checkBlock_of_block? hb, hlast, hgoto]

theorem on_absorb (h : InStep g) {n : Block} (hmerge : Mergeable g id next n) :
    (absorb id next).on g = (.ok ⟨⟩, g.absorb id next) := by
  have hat := blockAt_of_block? hmerge.block?
  have hkept : ∀ s, s ≠ next → g.HasBlock s →
      (assignBlock id (g.dropBlock next) n.instructions).HasBlock s := by
    intro s hne hs
    rw [hasBlock_congr blocks_assignBlock, HasBlock, block?_dropBlock, if_neg hne]
    exact hs
  -- The successor is not its own, or it would have another way in.
  have hself : next ∉ n.successors := by
    intro hmem
    have hcount := h.mirrored next next
    rw [hat, hmerge.predecessors, count_one, if_neg hmerge.ne] at hcount
    exact List.count_eq_zero.1 hcount hmem
  have hrename : (renamePredecessor next id n.successors).on
      (assignBlock id (g.dropBlock next) n.instructions) = (.ok ⟨⟩, _) :=
    on_renamePredecessor fun s hs => hkept s (fun he => hself (he ▸ hs))
      (h.hasBlock_of_leads (b := next) (by rw [Leads, hat]; exact hs))
  have hlive : (Graph.renamePredecessor next id
      (assignBlock id (g.dropBlock next) n.instructions) n.successors).HasBlock id :=
    hasBlock_renamePredecessor.2 (hkept id hmerge.ne.symm hmerge.hasBlock)
  simp only [absorb, Graph.absorb, on_bind, on_check, checkBlock_of_block? hmerge.block?, on_change,
    hrename, on_discard_changeBlock hlive, hmerge.block?]

/-- A merge that has found that the blocks can be merged changes only what is there. -/
theorem on_mergeInto (h : InStep g) {n : Block} (hmerge : Mergeable g id next n) :
    (mergeInto id next n.phis).on g = (Graph.mergeInto id next n.phis).on g := by
  obtain ⟨done, rest, g₁, hsplit, hall, hcase⟩ := h.inlinePhis n.phis
  rw [mergeInto, Graph.mergeInto, on_bind, on_bind]
  rcases hcase with ⟨-, -, err, -, -, herr⟩ | ⟨hrest, hok⟩
  · rw [herr]
  · rw [hrest, List.append_nil] at hsplit
    rw [hok]
    simp only [on_bind, on_dropGoto (hall.keeps h).inStep]
    rcases dropGoto_cases g₁ id with ⟨err, herr⟩ | ⟨g₂, hdropped, hjump⟩
    · rw [herr]
    · obtain ⟨hkeep, n', hready, -⟩ := hmerge.ready h (hsplit ▸ hall) hjump
      rw [hdropped]
      simp only [on_absorb hkeep.inStep hready, on_change]

theorem on_merge (h : InStep g) (id : BlockId) :
    (merge id).on g = (Graph.merge id).on g := by
  cases hb : g.block? id with
  | none => simp [merge, Graph.merge, checkBlock_of_none hb]
  | some b =>
    rcases hsucc : b.successors with _ | ⟨next, _ | ⟨_, _⟩⟩
    · simp [merge, Graph.merge, checkBlock_of_block? hb, hsucc]
    · by_cases hself : next = id
      · simp [merge, Graph.merge, checkBlock_of_block? hb, hsucc, hself]
      · cases hn : g.block? next with
        | none =>
          simp [merge, Graph.merge, checkBlock_of_block? hb, hsucc, hself, checkBlock_of_none hn]
        | some n =>
          by_cases hpred : n.predecessors = [id]
          · have hsuccs : (g.blockAt id).successors = [next] := by rw [blockAt_of_block? hb, hsucc]
            have hmerge : Mergeable g id next n :=
              ⟨hasBlock_of_block? hb, hsuccs, hself, hn, hpred⟩
            rw [hmerge.on_merge, ← on_mergeInto h hmerge]
            simp [merge, checkBlock_of_block? hb, hsucc, hself, checkBlock_of_block? hn, hpred]
          · simp [merge, Graph.merge, checkBlock_of_block? hb, hsucc, hself,
              checkBlock_of_block? hn, hpred]
    · simp [merge, Graph.merge, checkBlock_of_block? hb, hsucc]

end Rechecked

/-- **On a reachable graph every block is there when it is looked for again**: the edits done step
by step have the outcome of those done at once. -/
theorem Reachable.rechecked (h : Reachable g) :
    (∀ s t, (Rechecked.addEdge s t).on g = (addEdge s t).on g) ∧
      (∀ b type, (Rechecked.addPhi b type).on g = (addPhi b type).on g) ∧
      (∀ b operation operands type, (Rechecked.addInstruction b operation operands type).on g =
        (addInstruction b operation operands type).on g) ∧
      (∀ i, (Rechecked.removeInstruction i).on g = (removeInstruction i).on g) ∧
      (∀ id index, (Rechecked.split id index).on g = (split id index).on g) ∧
      ∀ id, (Rechecked.merge id).on g = (merge id).on g :=
  ⟨Rechecked.on_addEdge g, Rechecked.on_addPhi g, Rechecked.on_addInstruction g,
    Rechecked.on_removeInstruction h.inStep, Rechecked.on_split h.inStep,
    Rechecked.on_merge h.inStep⟩

end Graph
end IrAnalysis
