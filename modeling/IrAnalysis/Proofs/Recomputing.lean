/-
# Recomputing reaches the least solution

After a reset the types of what hangs on the seeds climb from `bottom`.  At every
step (`Climbing`) a type is below what flows into its value, so it never moves down;
a value whose type is not what flows into it waits in the queue; and the types are
below every solution of the equations, as what flows grows with the types.  Each
step takes a value out of the queue, and queues what reads it only if its type
climbed, so the queue and the way that types still have to go, counted once for
each reader, grow less together (`climb`).  When the queue is empty, and the steps
allowed are enough for that, the types are the least solution (`Climbing.run`).

A step does one of two things (`Stepped`), so what both keep is kept to the end
(`Climbing.run_keeps`), be it about the types or about what is noted on the way.
-/

import IrAnalysis.Proofs.PhiEquations

namespace IrAnalysis
namespace Graph

variable {g g' : Graph} {u v : ValueId}

/-- What an instruction defines, unless it is a pass-through instruction. -/
def ordinaryOutput? (g : Graph) (i : InstId) : Option ValueId := do
  let x ← g.instruction? i
  if x.operation.passesThrough then none else x.output

/-- What the instructions that read a value define, pass-through instructions left out. -/
def readingOrdinaries (g : Graph) (v : ValueId) : List ValueId :=
  (g.readingInstructions v).filterMap g.ordinaryOutput?

theorem SameButTypes.ordinaryOutput? (hs : SameButTypes g g') :
    g'.ordinaryOutput? = g.ordinaryOutput? := by
  funext i
  rw [Graph.ordinaryOutput?, hs.instruction?, Graph.ordinaryOutput?]

end Graph

namespace PhiTypes

open IrAnalysis.Graph

variable {h : Hierarchy} {g : Graph} {seeds : List ValueId} {r r' : Recomputation}
  {σ τ : ValueId → Ty} {u v w : ValueId} {rest : List ValueId}

namespace Recomputation

/-- Queueing the values of a list changes the queue alone. -/
theorem foldl_enqueue (l : List ValueId) (r : Recomputation) :
    l.foldl enqueue r = { r with queue := entered r.queue l } := by
  induction l generalizing r with
  | nil => rfl
  | cons v l ih =>
    rw [List.foldl_cons, ih, entered_cons]
    unfold enqueue
    split_ifs <;> rfl

/-- What an instruction defines is queued by a pass-through instruction and noted by others. -/
theorem visitReader_eq (r : Recomputation) (i : InstId) : r.visitReader i = { r with
    queue := entered r.queue (r.graph.passThroughOutput? i).toList
    affected := { r.affected with
      values := entered r.affected.values (r.graph.ordinaryOutput? i).toList } } := by
  unfold visitReader passThroughOutput? ordinaryOutput?
  rcases r.graph.instruction? i with _ | ⟨b, operation, operands, output⟩
  · rfl
  · simp only [Option.bind_eq_bind, Option.bind_some]
    cases output with
    | none => cases operation.passesThrough <;> rfl
    | some v =>
      cases operation.passesThrough <;> simp only [if_true, if_false, Bool.false_eq_true,
        Option.toList_some, Option.toList_none, entered_cons, Affected.note, enqueue]
      · split_ifs <;> rfl
      · split_ifs <;> rfl

/-- Going through instructions does so with what each of them defines. -/
theorem foldl_visitReader (l : List InstId) (r : Recomputation) : l.foldl visitReader r = { r with
    queue := entered r.queue (l.filterMap r.graph.passThroughOutput?)
    affected := { r.affected with
      values := entered r.affected.values (l.filterMap r.graph.ordinaryOutput?) } } := by
  have hcons : ∀ (f : InstId → Option ValueId) i l,
      (i :: l).filterMap f = (f i).toList ++ l.filterMap f := by
    intro f i l
    rw [List.filterMap_cons]
    cases f i <;> rfl
  induction l generalizing r with
  | nil => rfl
  | cons i l ih =>
    rw [List.foldl_cons, ih, visitReader_eq, hcons, hcons, entered_append, entered_append]

/-- **What reads a value is queued if it is a phi or a pass-through result, and noted
otherwise.** -/
theorem visitReaders_eq (hs : SameButTypes g r.graph) (v : ValueId) : r.visitReaders v = { r with
    queue := entered r.queue (g.readers v)
    affected := { r.affected with
      values := entered r.affected.values (g.readingOrdinaries v) } } := by
  have houtput : r.graph.passThroughOutput? = g.passThroughOutput? := hs.passThroughOutput?
  have hordinary : r.graph.ordinaryOutput? = g.ordinaryOutput? := hs.ordinaryOutput?
  rw [visitReaders, foldl_enqueue, foldl_visitReader, hs.readingPhis, hs.readingInstructions,
    readers, entered_append, readingPassThroughs, readingOrdinaries, ← houtput, ← hordinary]

end Recomputation

/-- Types that lie above what flows into the values that hang on the seeds, and above the types of
all others. -/
structure Above (h : Hierarchy) (g : Graph) (seeds : List ValueId) (σ : ValueId → Ty) : Prop where
  normal : ∀ v, (σ v).IsNormal
  held : ∀ v, ¬ g.Hangs seeds v → (g.typeAt v).le h (σ v)
  flow : ∀ v, g.Hangs seeds v → (g.flow h σ v).le h (σ v)

/-- **Types on their way up.**  They start at `bottom` for what hangs on the seeds, and a
pass-through operation makes `bottom` of `bottom`; one with several operands may have one that does
not start there, so its result is not promised to settle. -/
structure Climbing (h : Hierarchy) (g : Graph) (seeds : List ValueId) (r : Recomputation) :
    Prop where
  same : SameButTypes g r.graph
  queued : ∀ v ∈ r.queue, g.Hangs seeds v
  held : ∀ v, ¬ g.Hangs seeds v → r.graph.typeAt v = g.typeAt v
  normal : ∀ v, (r.graph.typeAt v).IsNormal
  proper : ∀ v, (r.graph.typeAt v).IsProper
  below : ∀ v, g.Hangs seeds v → (r.graph.typeAt v).le h (g.flow h r.graph.typeAt v)
  settled : ∀ v, g.Hangs seeds v → g.OneOperand v →
    v ∈ r.queue ∨ r.graph.typeAt v = g.flow h r.graph.typeAt v
  least : ∀ σ, Above h g seeds σ → ∀ v, (r.graph.typeAt v).le h (σ v)

/-- The types once that of `v` is what flows into it. -/
structure Raised (h : Hierarchy) (g : Graph) (v : ValueId) (σ τ : ValueId → Ty) : Prop where
  self : τ v = g.flow h σ v
  other : ∀ w, w ≠ v → τ w = σ w

namespace Raised

theorem le (hτ : Raised h g v σ τ) (hv : (σ v).le h (g.flow h σ v)) (w : ValueId) :
    (σ w).le h (τ w) := by
  by_cases hw : w = v
  · rw [hw, hτ.self]
    exact hv
  · rw [hτ.other w hw]
    exact Ty.le_refl h _

theorem normal (hτ : Raised h g v σ τ) (hσ : ∀ w, (σ w).IsNormal) (w : ValueId) :
    (τ w).IsNormal := by
  by_cases hw : w = v
  · rw [hw, hτ.self]
    exact flow_isNormal hσ
  · rw [hτ.other w hw]
    exact hσ w

theorem proper (hτ : Raised h g v σ τ) (hb : g.DimensionedBounds) (hσ : ∀ w, (σ w).IsProper)
    (w : ValueId) : (τ w).IsProper := by
  by_cases hw : w = v
  · rw [hw, hτ.self]
    exact flow_isProper hb hσ
  · rw [hτ.other w hw]
    exact hσ w

/-- More flows into every value than before. -/
theorem flow_le (hτ : Raised h g v σ τ) (hσ : ∀ w, (σ w).IsNormal)
    (hv : (σ v).le h (g.flow h σ v)) (u : ValueId) : (g.flow h σ u).le h (g.flow h τ u) :=
  flow_le_flow hσ (hτ.normal hσ) (hτ.le hv)

/-- **The value that climbed has less of its way left**, and so do all values together, by what the
way of that value counts. -/
theorem sum_way_le {ι : Type} [DecidableEq ι] {s : Finset ι} {f : ι → ValueId} {i : ι}
    (hτ : Raised h g (f i) σ τ) (hσ : ∀ w, (σ w).IsNormal)
    (hv : (σ (f i)).le h (g.flow h σ (f i))) (hne : g.flow h σ (f i) ≠ σ (f i))
    (hf : Function.Injective f) (hi : i ∈ s) (m : ι → Nat) :
    (∑ k ∈ s, (h.height + 3 - (τ (f k)).rank h) * m k) + m i ≤
      ∑ k ∈ s, (h.height + 3 - (σ (f k)).rank h) * m k := by
  refine sum_lower hi ?_ fun k hk => ?_
  · have hrank : (σ (f i)).rank h < (τ (f i)).rank h :=
      Ty.rank_lt_of_le (hσ _) (hτ.normal hσ _) (hτ.le hv _) (by rw [hτ.self]; exact hne.symm)
    have htop := Ty.rank_le h (τ (f i))
    rw [← Nat.succ_mul]
    exact Nat.mul_le_mul_right _ (by omega)
  · rw [hτ.other (f k) fun he => hk (hf he)]

end Raised

/-- The queue, and how far each type may still climb, counted once for each reader. -/
def climb (h : Hierarchy) (g : Graph) (r : Recomputation) : Nat :=
  r.queue.length + ∑ k ∈ Finset.range g.values.length,
    (h.height + 3 - (r.graph.typeAt ⟨k⟩).rank h) * g.reads ⟨k⟩

/-- **What a step does.**  The first value leaves the queue and the step is counted.  If something
else flows into the value than its type, the type becomes that, the phis and pass-through results
that read the value are queued, and the other results that do are noted. -/
inductive Stepped (h : Hierarchy) (g : Graph) (r : Recomputation) (v : ValueId)
    (rest : List ValueId) : Recomputation → Prop
  | settled : g.flow h r.graph.typeAt v = r.graph.typeAt v →
      Stepped h g r v rest ⟨r.graph, rest, r.affected.values, r.affected.iterations + 1⟩
  | climbed : g.flow h r.graph.typeAt v ≠ r.graph.typeAt v →
      Stepped h g r v rest ⟨r.graph.setType v (g.flow h r.graph.typeAt v),
        entered rest (g.readers v), entered r.affected.values (g.readingOrdinaries v),
        r.affected.iterations + 1⟩

namespace Climbing

/-- **A step computes the type of the first value**, and never fails. -/
theorem exists_step (hg : InStep g) (hb : g.DimensionedBounds) (hr : Climbing h g seeds r)
    (hq : r.queue = v :: rest) : ∃ r', r.step h v rest = .ok r' ∧ Stepped h g r v rest r' := by
  have hv : g.Hangs seeds v := hr.queued v (hq ▸ List.mem_cons_self)
  have hvlive : (r.graph.valueAt v).live = true :=
    (hr.same.view (·.live) (fun _ _ => rfl) v).trans (hg.live_of_hangs hv)
  have hcompute : computeType h r.graph v = .ok (g.flow h r.graph.typeAt v) := by
    rw [computeType_eq hvlive hr.proper, hr.same.flow]
  by_cases hsame : g.flow h r.graph.typeAt v = r.graph.typeAt v
  · refine ⟨_, ?_, .settled hsame⟩
    simp only [Recomputation.step, hcompute, bind, Except.bind, hsame, if_true, pure, Except.pure]
  · have hle : (r.graph.typeAt v).tryLe h (g.flow h r.graph.typeAt v) = .ok true := by
      rw [Ty.tryLe_of_proper h (hr.proper v) (flow_isProper hb hr.proper), hr.below v hv]
    refine ⟨_, ?_, .climbed hsame⟩
    simp only [Recomputation.step, hcompute, bind, Except.bind, hsame, if_false, hle, if_true, pure,
      Except.pure]
    exact congrArg Except.ok
      (Recomputation.visitReaders_eq (hr.same.trans (sameButTypes_setType _ _ _)) v)

/-- A step changes no type but that of the first value. -/
theorem raised (hg : InStep g) (hr : Climbing h g seeds r) (hv : g.Hangs seeds v) :
    Raised h g v r.graph.typeAt (r.graph.setType v (g.flow h r.graph.typeAt v)).typeAt := by
  have hvalue := (hr.same.hasValue v).2 (hasValue_of_live (hg.live_of_hangs hv))
  exact ⟨by rw [typeAt_setType hvalue, if_pos rfl],
    fun w hw => by rw [typeAt_setType hvalue, if_neg hw]⟩

/-- A value whose type is what flows into it needs no place in the queue. -/
theorem stay (hr : Climbing h g seeds r) (hq : r.queue = v :: rest) (a : Affected)
    (hsame : g.flow h r.graph.typeAt v = r.graph.typeAt v) :
    Climbing h g seeds ⟨r.graph, rest, a⟩ := by
  refine ⟨hr.same, fun u hu => hr.queued u (hq ▸ List.mem_cons_of_mem v hu), hr.held, hr.normal,
    hr.proper, hr.below, fun u hu hone => ?_, hr.least⟩
  rcases hr.settled u hu hone with hmem | heq
  · rw [hq] at hmem
    rcases List.mem_cons.1 hmem with rfl | hmem
    · exact Or.inr hsame.symm
    · exact Or.inl hmem
  · exact Or.inr heq

/-- **A type that climbs stays below every solution**, and only its readers may no longer have what
flows into them. -/
theorem raise (hg : InStep g) (hb : g.DimensionedBounds) (hr : Climbing h g seeds r)
    (hq : r.queue = v :: rest) (a : Affected) :
    Climbing h g seeds ⟨r.graph.setType v (g.flow h r.graph.typeAt v),
      entered rest (g.readers v), a⟩ := by
  have hv : g.Hangs seeds v := hr.queued v (hq ▸ List.mem_cons_self)
  have hraised := hr.raised hg hv
  have hgrow := hraised.flow_le hr.normal (hr.below v hv)
  refine ⟨hr.same.trans (sameButTypes_setType _ _ _), fun u hu => ?_, fun u hu => ?_,
    hraised.normal hr.normal, hraised.proper hb hr.proper, fun u hu => ?_, fun u hu hone => ?_,
    fun σ hσ u => ?_⟩
  · rcases mem_entered.1 hu with hu | hu
    · exact hr.queued u (hq ▸ List.mem_cons_of_mem v hu)
    · exact hg.hangs_of_mem_readers hv hu
  · exact (hraised.other u fun he => hu (he ▸ hv)).trans (hr.held u hu)
  · by_cases huv : u = v
    · rw [huv, hraised.self]
      exact hgrow v
    · rw [hraised.other u huv]
      exact Ty.le_trans (hr.below u hu) (hgrow u)
  · by_cases hreads : u ∈ g.readers v
    · exact Or.inl (mem_entered.2 (Or.inr hreads))
    · rw [readers, List.mem_append, not_or] at hreads
      rw [hg.flow_eq_of_not_reading hraised.other hu hreads.1 hreads.2]
      by_cases huv : u = v
      · exact Or.inr (by rw [huv, hraised.self])
      · rw [hraised.other u huv]
        refine (hr.settled u hu hone).imp_left fun hmem => mem_entered.2 (Or.inl ?_)
        exact (List.mem_cons.1 (hq ▸ hmem)).resolve_left huv
  · by_cases hu : u = v
    · rw [hu, hraised.self]
      exact Ty.le_trans (flow_le_flow hr.normal hσ.normal (hr.least σ hσ)) (hσ.flow v hv)
    · rw [hraised.other u hu]
      exact hr.least σ hσ u

theorem stepped (hg : InStep g) (hb : g.DimensionedBounds) (hr : Climbing h g seeds r)
    (hq : r.queue = v :: rest) (hs : Stepped h g r v rest r') : Climbing h g seeds r' := by
  cases hs with
  | settled hsame => exact hr.stay hq _ hsame
  | climbed _ => exact hr.raise hg hb hq _

/-- **A type that climbs takes more from the way that is left than it puts into the queue.** -/
theorem climb_lt (hg : InStep g) (hr : Climbing h g seeds r) (hq : r.queue = v :: rest)
    (hs : Stepped h g r v rest r') : climb h g r' + 1 ≤ climb h g r := by
  have hlen : r.queue.length = rest.length + 1 := by rw [hq, List.length_cons]
  cases hs with
  | settled _ =>
    simp only [climb]
    omega
  | climbed hne =>
    have hv : g.Hangs seeds v := hr.queued v (hq ▸ List.mem_cons_self)
    have hraised := hr.raised hg hv
    obtain ⟨x, hx⟩ := Option.isSome_iff_exists.1 (hasValue_of_live (hg.live_of_hangs hv))
    have hlt : v.index ∈ Finset.range g.values.length :=
      Finset.mem_range.2 (List.getElem?_eq_some_iff.1 hx).1
    have hinj : Function.Injective ValueId.mk := fun j k he => congrArg ValueId.index he
    have hway := hraised.sum_way_le (i := v.index) hr.normal (hr.below v hv) hne hinj hlt
      fun k => g.reads ⟨k⟩
    have hqueue := (length_entered rest (g.readers v)).2
    have hreaders : (g.readers v).length ≤ g.reads ⟨v.index⟩ := g.length_readers_le v
    simp only [climb]
    omega

/-- **With enough steps the queue empties**, and no step fails. -/
theorem run (hg : InStep g) (hb : g.DimensionedBounds) {fuel : Nat} (hr : Climbing h g seeds r)
    (hfuel : climb h g r ≤ fuel) :
    ∃ last, r.run h fuel = .ok last ∧ Climbing h g seeds last ∧ last.queue = [] := by
  induction fuel generalizing r with
  | zero =>
    have hlen : r.queue.length = 0 := by
      rw [climb] at hfuel
      omega
    exact ⟨r, rfl, hr, List.eq_nil_of_length_eq_zero hlen⟩
  | succ fuel ih =>
    rcases hq : r.queue with _ | ⟨v, rest⟩
    · refine ⟨r, ?_, hr, hq⟩
      simp only [Recomputation.run, hq]
    · obtain ⟨r', hstep, hs⟩ := hr.exists_step hg hb hq
      have hless := hr.climb_lt hg hq hs
      obtain ⟨last, hlast, hclimb, hempty⟩ := ih (hr.stepped hg hb hq hs) (by omega)
      refine ⟨last, ?_, hclimb, hempty⟩
      simp only [Recomputation.run, hq, hstep, bind, Except.bind]
      exact hlast

/-- **What every step keeps holds when a run ends.** -/
theorem run_keeps {kept : Recomputation → Prop} (hg : InStep g) (hb : g.DimensionedBounds)
    {fuel : Nat} {last : Recomputation} (hr : Climbing h g seeds r)
    (hrun : r.run h fuel = .ok last) (hkept : kept r)
    (hstep : ∀ r v rest r', Climbing h g seeds r → r.queue = v :: rest →
      Stepped h g r v rest r' → kept r → kept r') : Climbing h g seeds last ∧ kept last := by
  induction fuel generalizing r with
  | zero =>
    obtain rfl := Except.ok.inj hrun
    exact ⟨hr, hkept⟩
  | succ fuel ih =>
    rcases hq : r.queue with _ | ⟨v, rest⟩
    · simp only [Recomputation.run, hq] at hrun
      obtain rfl := Except.ok.inj hrun
      exact ⟨hr, hkept⟩
    · obtain ⟨r', hr', hs⟩ := hr.exists_step hg hb hq
      simp only [Recomputation.run, hq, hr', bind, Except.bind] at hrun
      exact ih (hr.stepped hg hb hq hs) hrun (hstep r v rest r' hr hq hs hkept)

end Climbing

end PhiTypes
end IrAnalysis
