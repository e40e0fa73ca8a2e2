/-
# What a refused edit leaves

An edit looks at everything it is given before it changes anything, so that a refusal leaves
the graph as it was.  A merge is the one exception: it looks at the first operand of a phi only
when the turn comes to it, and drops the jump after all the phis.  What gave way by then stays
gone, so a refused merge changes the graph exactly if the first phi of the successor could give
way (`refused_unchanged_iff`).
-/

import IrAnalysis.Proofs.LockStep

namespace IrAnalysis

namespace Edit

variable {α : Type} {g : Graph}

/-- Why the edit refuses, if it does. -/
def refusal? (e : Edit α) (g : Graph) : Option GraphError :=
  match (e.on g).1 with
  | .error err => some err
  | .ok _ => none

theorem exists_ok {e : Edit α} (hok : e.refusal? g = none) : ∃ a, (e.on g).1 = .ok a := by
  unfold refusal? at hok
  cases he : (e.on g).1 with
  | error err => rw [he] at hok; exact absurd hok (by simp)
  | ok a => exact ⟨a, rfl⟩

theorem not_refuses {e : Edit α} (hok : e.refusal? g = none) : ¬ e.Refuses g := by
  rintro ⟨err, herr⟩
  obtain ⟨a, ha⟩ := exists_ok hok
  rw [herr] at ha
  exact absurd ha (by simp)

/-- An edit that looks first leaves the graph as it was when it refuses. -/
theorem unchanged_of_outcome {e : Edit α} (hcase : e.Refuses g ∨ ∃ a g', e.on g = (.ok a, g'))
    (href : (e.refusal? g).isSome) : (e.on g).2 = g := by
  rcases hcase with ⟨err, herr⟩ | ⟨a, g', hok⟩
  · rw [herr]
  · rw [refusal?, hok] at href
    exact absurd href (by simp)

end Edit

/-- Why the call is refused, if it is. -/
def Command.refusal? : Command → Graph → Option GraphError
  | addBlock, _ => none
  | addEdge s t, g => (Graph.addEdge s t).refusal? g
  | addPhi b type, g => (Graph.addPhi b type).refusal? g
  | appendOperand phi v, g => (Graph.appendOperand phi v).refusal? g
  | addInstruction b operation operands type, g =>
    (Graph.addInstruction b operation operands type).refusal? g
  | replaceValue old new, g => (Graph.replaceValue old new).refusal? g
  | replaceInstruction i operation operands, g =>
    (Graph.replaceInstruction i operation operands).refusal? g
  | removeInstruction i, g => (Graph.removeInstruction i).refusal? g
  | split b index, g => (Graph.split b index).refusal? g
  | merge b, g => (Graph.merge b).refusal? g
  | removeEdge s t, g => (Graph.removeEdge s t).refusal? g
  | removeUnreachable, _ => none

/-- What may be refused: a command, or the narrowing of a type. -/
inductive Request
  | command (c : Command)
  | narrow (h : Hierarchy) (v : ValueId) (t : Ty)

namespace Request

/-- The request is refused. -/
def refused : Request → Graph → Bool
  | command c, g => (c.refusal? g).isSome
  | narrow h v t, g =>
    match g.narrow h v t with
    | .ok _ => false
    | .error _ => true

/-- The graph that the request leaves, whether it went through or was refused. -/
def after : Request → Graph → Graph
  | command c, g => c.after g
  | narrow h v t, g =>
    match g.narrow h v t with
    | .ok g' => g'
    | .error _ => g

end Request

namespace Graph

open Edit

variable {g : Graph} {id : BlockId}

/-- The block can be merged with its successor as far as edges go, and the first phi of the
successor can give way. -/
def GivesWay (g : Graph) (id : BlockId) : Prop :=
  ∃ next n v vs p w, Mergeable g id next n ∧ n.phis = v :: vs ∧
    (g.valueAt v).livePhi? = some p ∧ p.operands.head? = some w ∧ (g.valueAt w).live = true

/-- The request is a merge whose first phi can give way. -/
def LosesPhi (g : Graph) : Request → Prop
  | .command (.merge id) => g.GivesWay id
  | _ => False

theorem Mergeable.unique {next next' : BlockId} {n n' : Block} (h : Mergeable g id next n)
    (h' : Mergeable g id next' n') : next = next' ∧ n = n' := by
  have hnext : [next] = [next'] := h.successors.symm.trans h'.successors
  obtain rfl : next = next' := List.cons.inj hnext |>.1
  exact ⟨rfl, Option.some.inj (h.block?.symm.trans h'.block?)⟩

/-- A refused merge stopped before the first phi gave way, or that phi is gone. -/
theorem InStep.merge_unchanged_iff (h : InStep g) (href : ((Graph.merge id).refusal? g).isSome) :
    ((Graph.merge id).on g).2 = g ↔ ¬ g.GivesWay id := by
  by_cases hmerge : ∃ next n, Mergeable g id next n
  · obtain ⟨next, n, hmerge⟩ := hmerge
    obtain ⟨done, rest, g₁, hsplit, hall, hcase⟩ := h.mergeInto_cases id next n.phis
    rw [refusal?, hmerge.on_merge] at href
    rcases hcase with ⟨err, herr, hstop⟩ | ⟨-, g₂, -, hok⟩
    · rw [hmerge.on_merge, herr]
      cases done with
      | nil =>
        -- The first phi was refused, so it had nothing to give way to.
        cases hall
        refine ⟨fun _ hway => ?_, fun _ => rfl⟩
        obtain ⟨next', n', v, vs, p, w, hmerge', hphis, hp, hhead, hw⟩ := hway
        obtain ⟨rfl, rfl⟩ := hmerge.unique hmerge'
        obtain ⟨g', hok⟩ := inlinePhi_ok hp hhead hw
        obtain ⟨err', herr'⟩ := hstop v (by rw [← List.nil_append rest, ← hsplit, hphis]; rfl)
        rw [hok] at herr'
        exact absurd herr' (by simp)
      | cons v done =>
        -- The first phi gave way: it was live and is no longer.
        have hgone := hall.live v
        cases hall with
        | cons hone hall =>
          obtain ⟨p, hp, hhead⟩ := hone.operand
          refine ⟨fun hsame => ?_, fun hway => absurd ?_ hway⟩
          · have hsame' : g₁ = g := hsame
            rw [hsame', (Value.livePhi?_eq_some.1 hp).1] at hgone
            exact absurd hgone (by simp)
          · exact ⟨next, n, v, done ++ rest, p, _, hmerge, hsplit, hp, hhead, hone.operand_live⟩
    · rw [hok] at href
      exact absurd href (by simp)
  · rcases merge_outcome g id with ⟨err, herr⟩ | ⟨next, n, hmerge', -⟩
    · rw [herr]
      refine ⟨fun _ hway => hmerge ?_, fun _ => rfl⟩
      obtain ⟨next, n, -, -, -, -, hmerge', -⟩ := hway
      exact ⟨next, n, hmerge'⟩
    · exact absurd ⟨next, n, hmerge'⟩ hmerge

/-- Every command but a merge looks at all it is given before it changes anything. -/
theorem command_unchanged {c : Command} (hc : ∀ id, c ≠ .merge id) (href : (c.refusal? g).isSome) :
    c.after g = g := by
  cases c with
  | addBlock => exact absurd href (by simp [Command.refusal?])
  | addEdge s t =>
    exact unchanged_of_outcome ((addEdge_outcome g s t).imp_right fun h => ⟨_, _, h.2.2⟩) href
  | addPhi b type =>
    exact unchanged_of_outcome ((addPhi_outcome g b type).imp_right fun h => ⟨_, _, h.2⟩) href
  | appendOperand phi v =>
    exact unchanged_of_outcome
      ((appendOperand_outcome g phi v).imp_right fun h => ⟨_, _, h.2.2⟩) href
  | addInstruction b operation operands type =>
    exact unchanged_of_outcome
      ((addInstruction_outcome g b operation operands type).imp_right fun h => ⟨_, _, h.2.2.2⟩) href
  | replaceValue old new =>
    exact unchanged_of_outcome
      ((replaceValue_outcome g old new).imp_right fun h => ⟨_, _, h.2.2⟩) href
  | replaceInstruction i operation operands =>
    exact unchanged_of_outcome
      ((replaceInstruction_outcome g i operation operands).imp_right fun h => ⟨_, _, h.2.2⟩) href
  | removeInstruction i =>
    exact unchanged_of_outcome
      ((removeInstruction_outcome g i).imp_right fun h => ⟨_, _, h.2⟩) href
  | split b index =>
    refine unchanged_of_outcome ((split_outcome g b index).imp_right fun h => ?_) href
    obtain ⟨x, -, -, hok⟩ := h
    exact ⟨_, _, hok⟩
  | merge id => exact absurd rfl (hc id)
  | removeEdge s t =>
    refine unchanged_of_outcome ((removeEdge_outcome g s t).imp_right fun h => ?_) href
    obtain ⟨g', -, hok⟩ := h
    exact ⟨_, _, hok⟩
  | removeUnreachable => exact absurd href (by simp [Command.refusal?])

/-- **A refused request leaves the graph as it was**, unless it is a merge whose first phi could
give way. -/
theorem refused_unchanged_iff (h : Reachable g) (r : Request) (href : r.refused g = true) :
    r.after g = g ↔ ¬ g.LosesPhi r := by
  cases r with
  | narrow hierarchy v t =>
    refine ⟨fun _ hlost => hlost, fun _ => ?_⟩
    cases hn : g.narrow hierarchy v t with
    | ok g' => exact absurd href (by simp [Request.refused, hn])
    | error e => simp [Request.after, hn]
  | command c =>
    by_cases hc : ∀ id, c ≠ .merge id
    · refine ⟨fun _ hlost => ?_, fun _ => command_unchanged hc href⟩
      cases c with
      | merge id => exact hc id rfl
      | _ => exact hlost
    · push Not at hc
      obtain ⟨id, rfl⟩ := hc
      exact h.inStep.merge_unchanged_iff href

/-- The hypotheses are satisfiable: a phi without operands stops a merge before anything changed. -/
theorem refused_unchanged_iff_merge :
    let g := afterAll [.addBlock, .addBlock, .addEdge ⟨0⟩ ⟨1⟩, .addPhi ⟨1⟩ .bottom]
      (Graph.empty none)
    let r : Request := .command (.merge ⟨0⟩)
    r.refused g = true ∧ (r.after g = g ↔ ¬ g.LosesPhi r) :=
  ⟨by decide, refused_unchanged_iff (Reachable.afterAll (.empty none) _) _ (by decide)⟩

/-- A refused merge that changed the graph: the first of two phis gave way before the second was
found to have no operand. -/
theorem refused_merge_changes :
    let g := afterAll [.addBlock, .addBlock, .addEdge ⟨0⟩ ⟨1⟩,
      .addInstruction ⟨0⟩ (.number 1) [] (some (.prim .int)),
      .addPhi ⟨1⟩ (.prim .int), .addPhi ⟨1⟩ (.prim .int), .appendOperand ⟨1⟩ ⟨0⟩,
      .addInstruction ⟨1⟩ .ret [⟨1⟩] none] (Graph.empty none)
    let r : Request := .command (.merge ⟨0⟩)
    Reachable g ∧ r.refused g = true ∧ r.after g ≠ g :=
  ⟨Reachable.afterAll (.empty none) _, by decide, by decide⟩

end Graph
end IrAnalysis
