/-
# What a reset sets to `bottom`

A reset goes through two queues, and what it sets is the least set that holds the
seeds and with each value what reads it: the live phis, and what the live
pass-through instructions define (`Graph.Hangs`).  A value waits in one of the queues,
once, until it is set, and when it is set its readers wait or are set
(`Resetting`).  Every step takes a value out of a queue and enters no more
than its readers, so the queues and the readers of what is not set yet grow fewer
together (`todo`), and the steps that a reset is given are enough to empty both
queues (`reset_spec`).
-/

import IrAnalysis.Proofs.InStep
import IrAnalysis.Proofs.Retyping

namespace IrAnalysis
namespace Graph

variable {g g' : Graph} {seeds : List ValueId} {u v w : ValueId} {i : InstId}

/-- **The values that hang on the seeds**: the live phis among them, and what reads such a value,
if it is a live phi or defined by a live pass-through instruction. -/
inductive Hangs (g : Graph) (seeds : List ValueId) : ValueId → Prop
  | seed {v : ValueId} {p : Phi} : v ∈ seeds → (g.valueAt v).livePhi? = some p → Hangs g seeds v
  | phi {v u : ValueId} {p : Phi} : Hangs g seeds v → (g.valueAt u).livePhi? = some p →
      v ∈ p.operands → Hangs g seeds u
  | pass {v u : ValueId} {i : InstId} {x : Instruction} : Hangs g seeds v →
      g.instruction? i = some x → x.operation.passesThrough = true → v ∈ x.operands →
      x.output = some u → Hangs g seeds u

/-- The number of places that read a value. -/
def reads (g : Graph) (v : ValueId) : Nat :=
  (g.valueAt v).users.length + (g.valueAt v).phiUsers.length

/-- The phis and pass-through results that read a value, each as often as it does. -/
def readers (g : Graph) (v : ValueId) : List ValueId := g.readingPhis v ++ g.readingPassThroughs v

theorem length_readers_le (g : Graph) (v : ValueId) : (g.readers v).length ≤ g.reads v := by
  have hpass : (g.readingPassThroughs v).length ≤ (g.valueAt v).users.length := by
    rw [readingPassThroughs, readingInstructions_eq]
    exact List.length_filterMap_le _ _
  rw [readers, List.length_append, readingPhis_eq, reads]
  omega

theorem readCount_eq (g : Graph) :
    g.readCount = ∑ k ∈ Finset.range g.values.length, g.reads ⟨k⟩ := by
  rw [readCount, foldr_add_eq_sum g.values fun x => x.users.length + x.phiUsers.length]
  refine Finset.sum_congr rfl fun k _ => ?_
  rw [reads, valueAt, slot?]
  cases g.values[k]? <;> rfl

theorem isLivePhi_iff : g.isLivePhi v = true ↔ ∃ p, (g.valueAt v).livePhi? = some p := by
  unfold isLivePhi value? valueAt
  cases g.slot? v with
  | none => simp
  | some x =>
    simp only [Option.filter_some, Option.getD_some, Value.livePhi?, Value.isPhi]
    cases x.live <;> simp [Option.isSome_iff_exists]

theorem InStep.mem_readingPhis (h : InStep g) :
    u ∈ g.readingPhis v ↔ ∃ p, (g.valueAt u).livePhi? = some p ∧ v ∈ p.operands := by
  rw [readingPhis_eq, h.filed.mem_phiUsers, Value.phiOperands]
  cases (g.valueAt u).livePhi? <;> simp

theorem InStep.mem_readingPassThroughs (h : InStep g) :
    u ∈ g.readingPassThroughs v ↔ ∃ i x, g.instruction? i = some x ∧
      x.operation.passesThrough = true ∧ v ∈ x.operands ∧ x.output = some u := by
  simp only [readingPassThroughs, List.mem_filterMap, readingInstructions_eq, h.filed.mem_users,
    passThroughOutput?, Option.bind_eq_bind, Option.bind_eq_some_iff, Option.ite_none_right_eq_some]
  constructor
  · rintro ⟨i, hv, x, hx, hpass, hout⟩
    rw [operandsOf_of_instruction? hx] at hv
    exact ⟨i, x, hx, hpass, hv, hout⟩
  · rintro ⟨i, x, hx, hpass, hv, hout⟩
    rw [← operandsOf_of_instruction? hx] at hv
    exact ⟨i, hv, x, hx, hpass, hout⟩

/-- A pass-through result is defined by the instruction that gives it out. -/
theorem InStep.definer?_of_output (h : InStep g) {x : Instruction} (hx : g.instruction? i = some x)
    (hout : x.output = some u) : (g.valueAt u).definer? = some i := by
  rw [← h.filed.outputs, hx]
  exact hout

/-- The instruction that defines a value gives it out. -/
theorem InStep.output_of_definer? (h : InStep g) {x : Instruction}
    (hi : (g.valueAt u).definer? = some i) (hx : g.instruction? i = some x) :
    x.output = some u := by
  rw [← h.filed.outputs, hx] at hi
  exact hi

namespace SameButTypes

theorem readingPhis (h : SameButTypes g g') (v : ValueId) :
    g'.readingPhis v = g.readingPhis v := by
  rw [readingPhis_eq, readingPhis_eq]
  exact h.view (·.phiUsers) (fun _ _ => rfl) v

theorem readingInstructions (h : SameButTypes g g') (v : ValueId) :
    g'.readingInstructions v = g.readingInstructions v := by
  rw [readingInstructions_eq, readingInstructions_eq]
  exact h.view (·.users) (fun _ _ => rfl) v

theorem passThroughOutput? (h : SameButTypes g g') :
    g'.passThroughOutput? = g.passThroughOutput? := by
  funext i
  rw [Graph.passThroughOutput?, h.instruction?, Graph.passThroughOutput?]

theorem readingPassThroughs (h : SameButTypes g g') (v : ValueId) :
    g'.readingPassThroughs v = g.readingPassThroughs v := by
  rw [Graph.readingPassThroughs, h.readingInstructions, h.passThroughOutput?,
    Graph.readingPassThroughs]

theorem length_values (h : SameButTypes g g') : g'.values.length = g.values.length := by
  have hmap := congrArg List.length h.values
  rwa [List.length_map, List.length_map] at hmap

theorem readCount (h : SameButTypes g g') : g'.readCount = g.readCount := by
  rw [readCount_eq, readCount_eq, h.length_values]
  refine Finset.sum_congr rfl fun k _ => ?_
  rw [reads, h.view (·.users) fun _ _ => rfl, h.view (·.phiUsers) fun _ _ => rfl, reads]

end SameButTypes

end Graph

namespace PhiTypes

open IrAnalysis.Graph

variable {g : Graph} {seeds : List ValueId} {s s' : ResetState} {u v w : ValueId}

namespace ResetState

theorem enqueue_eq_enter (seen queue l : List ValueId) :
    enqueue seen queue l = enter seen queue l := by
  induction l generalizing seen queue with
  | nil => rfl
  | cons v l ih => rw [enqueue, enter, ih, ih]

/-- A value was set already. -/
def Done (s : ResetState) (v : ValueId) : Prop := v ∈ s.done.phis ∨ v ∈ s.done.passThroughs

instance (s : ResetState) (v : ValueId) : Decidable (s.Done v) :=
  inferInstanceAs (Decidable (_ ∨ _))

/-- A step sets the next value of one of the queues. -/
theorem step?_eq_some (hstep : s.step? = some s') :
    (∃ v rest, s.passQueue = v :: rest ∧ s' = s.visitPass v rest) ∨
      ∃ v rest, s.phiQueue = v :: rest ∧ s' = s.visitPhi v rest := by
  rcases hp : s.passQueue with _ | ⟨v, rest⟩ <;> rcases hq : s.phiQueue with _ | ⟨w, rest'⟩ <;>
    cases hd : s.draining <;>
    simp only [step?, hp, hq, hd, Option.some.injEq, reduceCtorEq] at hstep
  case nil.cons.passThroughs => exact Or.inr ⟨w, rest', rfl, hstep.symm⟩
  case nil.cons.phis => exact Or.inr ⟨w, rest', rfl, hstep.symm⟩
  case cons.nil.passThroughs => exact Or.inl ⟨v, rest, rfl, hstep.symm⟩
  case cons.nil.phis => exact Or.inl ⟨v, rest, rfl, hstep.symm⟩
  case cons.cons.passThroughs => exact Or.inl ⟨v, rest, rfl, hstep.symm⟩
  case cons.cons.phis => exact Or.inr ⟨w, rest', rfl, hstep.symm⟩

theorem step?_eq_none (hstep : s.step? = none) : s.passQueue = [] ∧ s.phiQueue = [] := by
  rcases hp : s.passQueue with _ | ⟨v, rest⟩ <;> rcases hq : s.phiQueue with _ | ⟨w, rest'⟩ <;>
    cases hd : s.draining <;> simp [step?, hp, hq, hd] at hstep ⊢

end ResetState

/-- **A reset under way.**  Each value that was seen is set or waits in its queue, and what reads a
value that is set was seen.  Of `skip`, which was taken out of its queue to be set next, the last
two are not known yet. -/
structure Resetting (g : Graph) (seeds : List ValueId) (skip : Option ValueId)
    (s : ResetState) : Prop where
  same : SameButTypes g s.graph
  phis : s.phisSeen = s.done.phis ++ s.phiQueue
  passes : s.passSeen = s.done.passThroughs ++ s.passQueue
  nodupPhis : s.phisSeen.Nodup
  nodupPasses : s.passSeen.Nodup
  livePhis : ∀ v ∈ s.phisSeen, g.Hangs seeds v ∧ ∃ p, (g.valueAt v).livePhi? = some p
  passOutputs : ∀ v ∈ s.passSeen, g.Hangs seeds v ∧ ∃ i, (g.valueAt v).definer? = some i
  seeded : ∀ v ∈ seeds, ∀ p, (g.valueAt v).livePhi? = some p → v ∈ s.phisSeen
  closed : ∀ v, s.Done v → some v ≠ skip →
    (∀ u ∈ g.readingPhis v, u ∈ s.phisSeen) ∧ ∀ u ∈ g.readingPassThroughs v, u ∈ s.passSeen
  types : ∀ v, some v ≠ skip → s.graph.typeAt v = if s.Done v then .bottom else g.typeAt v

namespace Resetting

variable {skip : Option ValueId} {rest : List ValueId}

theorem hangs_of_done (hs : Resetting g seeds skip s) (hv : s.Done v) : g.Hangs seeds v := by
  rcases hv with hv | hv
  · exact (hs.livePhis v (hs.phis ▸ List.mem_append_left _ hv)).1
  · exact (hs.passOutputs v (hs.passes ▸ List.mem_append_left _ hv)).1

theorem hasValue_of_done (hs : Resetting g seeds skip s) (hv : s.Done v) : g.HasValue v := by
  refine hasValue_of_valueAt_ne fun habs => ?_
  rcases hv with hv | hv
  · obtain ⟨-, p, hp⟩ := hs.livePhis v (hs.phis ▸ List.mem_append_left _ hv)
    rw [habs] at hp
    exact absurd hp (by simp)
  · obtain ⟨-, i, hi⟩ := hs.passOutputs v (hs.passes ▸ List.mem_append_left _ hv)
    rw [habs] at hi
    exact absurd hi (by simp)

/-- **Setting a value enters what reads it**, and no more. -/
theorem visit (h : InStep g) (hs : Resetting g seeds (some v) s) (hdone : s.Done v) :
    Resetting g seeds none (s.visit v) ∧
      (s.visit v).phiQueue.length + (s.visit v).passQueue.length ≤
        s.phiQueue.length + s.passQueue.length + g.reads v := by
  obtain ⟨newPhis, hphis, hallPhis, hnewPhis, hlenPhis, hnodupPhis⟩ :=
    enter_eq s.phisSeen s.phiQueue (g.readingPhis v)
  obtain ⟨newPasses, hpasses, hallPasses, hnewPasses, hlenPasses, hnodupPasses⟩ :=
    enter_eq s.passSeen s.passQueue (g.readingPassThroughs v)
  have hvisit : s.visit v = { s with
      graph := s.graph.setType v .bottom
      phisSeen := s.phisSeen ++ newPhis
      phiQueue := s.phiQueue ++ newPhis
      passSeen := s.passSeen ++ newPasses
      passQueue := s.passQueue ++ newPasses } := by
    rw [ResetState.visit, ResetState.enqueue_eq_enter, ResetState.enqueue_eq_enter,
      hs.same.readingPhis, hs.same.readingPassThroughs, hphis, hpasses]
  have hhangs := hs.hangs_of_done hdone
  have hvalue : s.graph.HasValue v := (hs.same.hasValue v).2 (hs.hasValue_of_done hdone)
  rw [hvisit]
  refine ⟨⟨?_, ?_, ?_, hnodupPhis hs.nodupPhis, hnodupPasses hs.nodupPasses, ?_, ?_, ?_, ?_, ?_⟩,
    ?_⟩
  · exact hs.same.trans (sameButTypes_setType _ _ _)
  · show s.phisSeen ++ newPhis = s.done.phis ++ (s.phiQueue ++ newPhis)
    rw [hs.phis, List.append_assoc]
  · show s.passSeen ++ newPasses = s.done.passThroughs ++ (s.passQueue ++ newPasses)
    rw [hs.passes, List.append_assoc]
  · intro u hu
    rcases List.mem_append.1 hu with hu | hu
    · exact hs.livePhis u hu
    · obtain ⟨p, hp, hv⟩ := h.mem_readingPhis.1 (hnewPhis u hu)
      exact ⟨.phi hhangs hp hv, p, hp⟩
  · intro u hu
    rcases List.mem_append.1 hu with hu | hu
    · exact hs.passOutputs u hu
    · obtain ⟨i, x, hx, hpass, hv, hout⟩ := h.mem_readingPassThroughs.1 (hnewPasses u hu)
      exact ⟨.pass hhangs hx hpass hv hout, i, h.definer?_of_output hx hout⟩
  · exact fun u hu p hp => List.mem_append_left _ (hs.seeded u hu p hp)
  · intro u hu _
    by_cases huv : u = v
    · exact ⟨huv ▸ hallPhis, huv ▸ hallPasses⟩
    · obtain ⟨hup, hua⟩ := hs.closed u hu fun he => huv (Option.some.inj he)
      exact ⟨fun w hw => List.mem_append_left _ (hup w hw),
        fun w hw => List.mem_append_left _ (hua w hw)⟩
  · intro u _
    rw [typeAt_setType hvalue]
    by_cases huv : u = v
    · subst huv
      have hdone' : ResetState.Done _ u := hdone
      rw [if_pos rfl]
      exact (if_pos hdone').symm
    · rw [if_neg huv]
      exact hs.types u fun he => huv (Option.some.inj he)
  · have hreaders := g.length_readers_le v
    rw [readers, List.length_append] at hreaders
    simp only [List.length_append]
    omega

/-- The queues, and the readers of what is not set yet: no step leaves as much to do. -/
def todo (g : Graph) (s : ResetState) : Nat :=
  s.phiQueue.length + s.passQueue.length +
    ∑ k ∈ Finset.range g.values.length, if s.Done ⟨k⟩ then 0 else g.reads ⟨k⟩

/-- The state in which `v` was taken out of its queue and put among what is set. -/
theorem take (hs : Resetting g seeds none s) {s₀ : ResetState} (hgraph : s₀.graph = s.graph)
    (hphisSeen : s₀.phisSeen = s.phisSeen) (hpassSeen : s₀.passSeen = s.passSeen)
    (hphis : s₀.phisSeen = s₀.done.phis ++ s₀.phiQueue)
    (hpasses : s₀.passSeen = s₀.done.passThroughs ++ s₀.passQueue)
    (hdone : ∀ w, s₀.Done w ↔ s.Done w ∨ w = v) : Resetting g seeds (some v) s₀ where
  same := hgraph ▸ hs.same
  phis := hphis
  passes := hpasses
  nodupPhis := hphisSeen ▸ hs.nodupPhis
  nodupPasses := hpassSeen ▸ hs.nodupPasses
  livePhis := hphisSeen ▸ hs.livePhis
  passOutputs := hpassSeen ▸ hs.passOutputs
  seeded := hphisSeen ▸ hs.seeded
  closed w hw hne := by
    rw [hphisSeen, hpassSeen]
    rcases (hdone w).1 hw with hw | rfl
    · exact hs.closed w hw (by simp)
    · exact absurd rfl hne
  types w hne := by
    have hwv : w ≠ v := fun he => hne (congrArg some he)
    rw [hgraph, hs.types w (by simp)]
    by_cases hw : s.Done w
    · rw [if_pos hw, if_pos ((hdone w).2 (Or.inl hw))]
    · have hw₀ : ¬ s₀.Done w := fun h => ((hdone w).1 h).elim hw hwv
      rw [if_neg hw, if_neg hw₀]

/-- Setting the value that was taken out leaves less to do. -/
theorem todo_visit (h : InStep g) {s₀ : ResetState} (hs₀ : Resetting g seeds (some v) s₀)
    (hqueues : s₀.phiQueue.length + s₀.passQueue.length + 1 =
      s.phiQueue.length + s.passQueue.length)
    (hdone : ∀ w, s₀.Done w ↔ s.Done w ∨ w = v) (hnew : ¬ s.Done v) :
    Resetting g seeds none (s₀.visit v) ∧ todo g (s₀.visit v) + 1 ≤ todo g s := by
  have hv : s₀.Done v := (hdone v).2 (Or.inr rfl)
  obtain ⟨hvisit, hlen⟩ := hs₀.visit h hv
  obtain ⟨x, hx⟩ := Option.isSome_iff_exists.1 (hs₀.hasValue_of_done hv)
  have hlt : v.index ∈ Finset.range g.values.length :=
    Finset.mem_range.2 (List.getElem?_eq_some_iff.1 hx).1
  have hsum := sum_lower (m := g.reads v) (f := fun k => if s.Done ⟨k⟩ then 0 else g.reads ⟨k⟩)
    (g := fun k => if s₀.Done ⟨k⟩ then 0 else g.reads ⟨k⟩) hlt ?_ ?_
  · have hsame : (∑ k ∈ Finset.range g.values.length,
        if (s₀.visit v).Done ⟨k⟩ then 0 else g.reads ⟨k⟩) =
          ∑ k ∈ Finset.range g.values.length, if s₀.Done ⟨k⟩ then 0 else g.reads ⟨k⟩ := rfl
    refine ⟨hvisit, ?_⟩
    rw [todo, hsame, todo]
    omega
  · show (if s₀.Done v then 0 else g.reads v) + g.reads v ≤ if s.Done v then 0 else g.reads v
    rw [if_pos hv, if_neg hnew]
    omega
  · intro k hk
    have hkv : (⟨k⟩ : ValueId) ≠ v := fun he => hk (congrArg ValueId.index he)
    have hiff : s₀.Done ⟨k⟩ ↔ s.Done ⟨k⟩ := (hdone ⟨k⟩).trans (or_iff_left hkv)
    simp only [hiff]

/-- A phi and a pass-through result are never one value. -/
theorem not_both (hs : Resetting g seeds skip s) (hphi : v ∈ s.phisSeen) (hpass : v ∈ s.passSeen) :
    False := by
  obtain ⟨-, p, hp⟩ := hs.livePhis v hphi
  obtain ⟨-, i, hi⟩ := hs.passOutputs v hpass
  rw [Value.definer?_of_livePhi? hp] at hi
  exact absurd hi (by simp)

/-- **A step of a reset.** -/
theorem step (h : InStep g) (hs : Resetting g seeds none s) (hstep : s.step? = some s') :
    Resetting g seeds none s' ∧ todo g s' + 1 ≤ todo g s := by
  rcases ResetState.step?_eq_some hstep with ⟨v, rest, hq, rfl⟩ | ⟨v, rest, hq, rfl⟩
  · have hseen : s.passSeen = s.done.passThroughs ++ v :: rest := hq ▸ hs.passes
    have hmem : v ∈ s.passSeen := hseen ▸ List.mem_append_right _ List.mem_cons_self
    have hnew : ¬ s.Done v := by
      rintro (hv | hv)
      · exact hs.not_both (hs.phis ▸ List.mem_append_left _ hv) hmem
      · have hnodup := hseen ▸ hs.nodupPasses
        exact (List.nodup_append.1 hnodup).2.2 v hv v List.mem_cons_self rfl
    have hdone : ∀ w, ResetState.Done { s with
        passQueue := rest
        done := { s.done with passThroughs := s.done.passThroughs ++ [v] }
        draining := .passThroughs } w ↔ s.Done w ∨ w = v := by
      intro w
      simp only [ResetState.Done, List.mem_append, List.mem_singleton, or_assoc]
    refine todo_visit h (hs.take rfl rfl rfl hs.phis ?_ hdone) ?_ hdone hnew
    · rw [List.append_assoc]
      exact hseen
    · rw [hq, List.length_cons]
      rfl
  · have hseen : s.phisSeen = s.done.phis ++ v :: rest := hq ▸ hs.phis
    have hmem : v ∈ s.phisSeen := hseen ▸ List.mem_append_right _ List.mem_cons_self
    have hnew : ¬ s.Done v := by
      rintro (hv | hv)
      · have hnodup := hseen ▸ hs.nodupPhis
        exact (List.nodup_append.1 hnodup).2.2 v hv v List.mem_cons_self rfl
      · exact hs.not_both hmem (hs.passes ▸ List.mem_append_left _ hv)
    have hdone : ∀ w, ResetState.Done { s with
        phiQueue := rest
        done := { s.done with phis := s.done.phis ++ [v] }
        draining := .phis } w ↔ s.Done w ∨ w = v := by
      intro w
      simp only [ResetState.Done, List.mem_append, List.mem_singleton, or_right_comm]
    refine todo_visit h (hs.take rfl rfl rfl ?_ hs.passes hdone) ?_ hdone hnew
    · rw [List.append_assoc]
      exact hseen
    · rw [hq, List.length_cons]
      exact Nat.add_right_comm _ _ _

/-- **With enough steps a reset empties both queues.** -/
theorem run (h : InStep g) {fuel : Nat} (hs : Resetting g seeds none s)
    (hfuel : todo g s ≤ fuel) :
    Resetting g seeds none (s.run fuel) ∧ (s.run fuel).phiQueue = [] ∧
      (s.run fuel).passQueue = [] := by
  induction fuel generalizing s with
  | zero =>
    have hphi : s.phiQueue.length = 0 := by
      rw [todo] at hfuel
      omega
    have hpass : s.passQueue.length = 0 := by
      rw [todo] at hfuel
      omega
    exact ⟨hs, List.eq_nil_of_length_eq_zero hphi, List.eq_nil_of_length_eq_zero hpass⟩
  | succ fuel ih =>
    rw [ResetState.run]
    cases hstep : s.step? with
    | none =>
      obtain ⟨hpass, hphi⟩ := ResetState.step?_eq_none hstep
      exact ⟨hs, hphi, hpass⟩
    | some s' =>
      obtain ⟨hs', hless⟩ := hs.step h hstep
      exact ih hs' (by omega)

/-- What hangs on the seeds was set, once nothing waits. -/
theorem done_of_hangs (h : InStep g) (hs : Resetting g seeds none s) (hphi : s.phiQueue = [])
    (hpass : s.passQueue = []) (hv : g.Hangs seeds v) : s.Done v := by
  have hphis : s.phisSeen = s.done.phis := by
    rw [hs.phis, hphi, List.append_nil]
  have hpasses : s.passSeen = s.done.passThroughs := by
    rw [hs.passes, hpass, List.append_nil]
  induction hv with
  | seed hmem hp => exact Or.inl (hphis ▸ hs.seeded _ hmem _ hp)
  | phi _ hp hread ih =>
    have hreads := (hs.closed _ ih (by simp)).1 _ (h.mem_readingPhis.2 ⟨_, hp, hread⟩)
    exact Or.inl (hphis ▸ hreads)
  | pass _ hx hthrough hread hout ih =>
    have hreads := (hs.closed _ ih (by simp)).2 _
      (h.mem_readingPassThroughs.2 ⟨_, _, hx, hthrough, hread, hout⟩)
    exact Or.inr (hpasses ▸ hreads)

end Resetting

/-- **A reset sets to `bottom` what hangs on the seeds, and nothing else**: the phis among it and
the pass-through results, each once. -/
structure ResetSpec (g : Graph) (seeds : List ValueId) (r : Reset) (l : ResetList) : Prop where
  same : SameButTypes g r.graph
  affected : r.affected = l.phis
  nodupPhis : l.phis.Nodup
  nodupPasses : l.passThroughs.Nodup
  phis : ∀ v, v ∈ l.phis ↔ g.Hangs seeds v ∧ ∃ p, (g.valueAt v).livePhi? = some p
  passThroughs : ∀ v, v ∈ l.passThroughs ↔ g.Hangs seeds v ∧ ∃ i, (g.valueAt v).definer? = some i
  types : ∀ v, (g.Hangs seeds v → r.graph.typeAt v = .bottom) ∧
    (¬ g.Hangs seeds v → r.graph.typeAt v = g.typeAt v)

/-- A reset that has gone through both queues did what it should. -/
theorem Resetting.resetSpec (h : InStep g) (hs : Resetting g seeds none s) (hphi : s.phiQueue = [])
    (hpass : s.passQueue = []) : ResetSpec g seeds ⟨s.graph, some s.done, s.phisSeen⟩ s.done := by
  have hphis : s.phisSeen = s.done.phis := by
    rw [hs.phis, hphi, List.append_nil]
  have hpasses : s.passSeen = s.done.passThroughs := by
    rw [hs.passes, hpass, List.append_nil]
  have hdone : ∀ v, s.Done v ↔ g.Hangs seeds v := fun v =>
    ⟨hs.hangs_of_done, hs.done_of_hangs h hphi hpass⟩
  refine ⟨hs.same, hphis, hphis ▸ hs.nodupPhis, hpasses ▸ hs.nodupPasses,
    fun v => ⟨fun hv => hs.livePhis v (hphis ▸ hv), ?_⟩,
    fun v => ⟨fun hv => hs.passOutputs v (hpasses ▸ hv), ?_⟩, fun v => ⟨?_, ?_⟩⟩
  · rintro ⟨hv, p, hp⟩
    rcases (hdone v).2 hv with hdv | hdv
    · exact hdv
    · obtain ⟨-, i, hi⟩ := hs.passOutputs v (hpasses ▸ hdv)
      rw [Value.definer?_of_livePhi? hp] at hi
      exact absurd hi (by simp)
  · rintro ⟨hv, i, hi⟩
    rcases (hdone v).2 hv with hdv | hdv
    · obtain ⟨-, p, hp⟩ := hs.livePhis v (hphis ▸ hdv)
      rw [Value.definer?_of_livePhi? hp] at hi
      exact absurd hi (by simp)
    · exact hdv
  · intro hv
    rw [hs.types v (by simp), if_pos ((hdone v).2 hv)]
  · intro hv
    rw [hs.types v (by simp), if_neg fun hd => hv ((hdone v).1 hd)]

theorem nodup_ascending (vs : List ValueId) : (ValueId.ascending vs).Nodup := by
  have hnodup : (NatSet.ofList (vs.map (·.index))).toList.Nodup :=
    (NatSet.ofList _).sorted.imp fun hlt => Nat.ne_of_lt hlt
  exact hnodup.map fun m n hmn => congrArg ValueId.index hmn

theorem hangs_of_no_seed (hseeds : ∀ v ∈ seeds, (g.valueAt v).livePhi? = none) :
    ¬ g.Hangs seeds v := by
  intro hv
  induction hv with
  | seed hmem hp =>
    rw [hseeds _ hmem] at hp
    exact absurd hp (by simp)
  | phi _ _ _ ih => exact ih
  | pass _ _ _ _ _ ih => exact ih

/-- A reset starts with the live phis among the seeds waiting, and nothing set. -/
theorem Resetting.start {live : List ValueId} (hnodup : live.Nodup)
    (hlive : ∀ v, v ∈ live ↔ v ∈ seeds ∧ ∃ p, (g.valueAt v).livePhi? = some p) :
    Resetting g seeds none ⟨g, live, [], live, [], .empty, .passThroughs⟩ ∧
      Resetting.todo g ⟨g, live, [], live, [], .empty, .passThroughs⟩ ≤
        live.length + g.readCount := by
  refine ⟨⟨SameButTypes.refl g, rfl, rfl, hnodup, List.nodup_nil, ?_, ?_, ?_, ?_, ?_⟩, ?_⟩
  · intro v hv
    obtain ⟨hmem, p, hp⟩ := (hlive v).1 hv
    exact ⟨.seed hmem hp, p, hp⟩
  · exact fun v hv => absurd hv List.not_mem_nil
  · exact fun v hv p hp => (hlive v).2 ⟨hv, p, hp⟩
  · rintro v (hv | hv) _
    · exact absurd hv List.not_mem_nil
    · exact absurd hv List.not_mem_nil
  · intro v _
    have hnot : ¬ ResetState.Done ⟨g, live, [], live, [], .empty, .passThroughs⟩ v := by
      rintro (hv | hv)
      · exact absurd hv List.not_mem_nil
      · exact absurd hv List.not_mem_nil
    exact (if_neg hnot).symm
  · rw [Resetting.todo, readCount_eq]
    refine Nat.add_le_add_left (Finset.sum_le_sum fun k _ => ?_) _
    split_ifs
    · exact Nat.zero_le _
    · exact Nat.le_refl _

/-- **Every reset goes through its queues**, or has no live phi to begin with. -/
theorem reset_spec (h : InStep g) (seeds : List ValueId) :
    (reset g seeds = ⟨g, none, []⟩ ∧ ∀ v, ¬ g.Hangs seeds v) ∨
      ∃ l, (reset g seeds).list = some l ∧ ResetSpec g seeds (reset g seeds) l := by
  have hlive : ∀ v, v ∈ ValueId.ascending (seeds.filter g.isLivePhi) ↔
      v ∈ seeds ∧ ∃ p, (g.valueAt v).livePhi? = some p := by
    intro v
    rw [ValueId.mem_ascending, List.mem_filter, isLivePhi_iff]
  unfold reset
  by_cases hempty : (ValueId.ascending (seeds.filter g.isLivePhi)).isEmpty = true
  · rw [if_pos hempty]
    refine Or.inl ⟨rfl, fun v => hangs_of_no_seed fun w hw => ?_⟩
    by_contra hsome
    obtain ⟨p, hp⟩ := Option.ne_none_iff_exists'.1 hsome
    have hmem := (hlive w).2 ⟨hw, p, hp⟩
    rw [List.isEmpty_iff.1 hempty] at hmem
    exact absurd hmem List.not_mem_nil
  · rw [if_neg hempty]
    obtain ⟨hstart, htodo⟩ := Resetting.start (nodup_ascending _) hlive
    obtain ⟨hlast, hphi, hpass⟩ := hstart.run h htodo
    exact Or.inr ⟨_, rfl, hlast.resetSpec h hphi hpass⟩

end PhiTypes
end IrAnalysis
