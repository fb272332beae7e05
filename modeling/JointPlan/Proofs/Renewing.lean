import JointPlan.Proofs.Settling
import JointPlan.Proofs.Workflows

/-!
# What deriving a plan anew depends on

Deriving a whole plan anew forgets what was on record. What comes out depends on the skeleton
alone: on the shape of the plan, the names and the relations of its sources, and the operators
up to the columns that they are bound to. This goes for whether the derivation succeeds, too. It
follows that doing it a second time changes nothing.

A node is derived after everything that feeds it, so by then its inputs are what they will be
in the end, and nothing else of the plan matters to it.
-/

namespace JointPlan

-- ---------------------------------------------------------------------------
-- Skeletons
-- ---------------------------------------------------------------------------

/-- The skeleton has nothing left to take away. -/
theorem Node.skeleton_skeleton (n : Node) : n.skeleton.skeleton = n.skeleton := by
  apply skeleton_derived
  · exact Op.bare_mapBound fun _ _ => rfl
  · split <;> rfl
  · exact fun hop => if_pos hop

namespace Plan

variable {p q : Plan}

theorem skeleton_skeleton (p : Plan) : p.skeleton.skeleton = p.skeleton := by
  apply ext_get?
  · intro k
    rw [get?_skeleton, get?_skeleton, Option.map_map]
    congr 1
    funext n
    exact n.skeleton_skeleton
  · rfl
  · rfl

/-- The roots can be told from the skeletons of the nodes. -/
theorem WellFormed.roots_eq (hp : p.WellFormed) (hq : q.WellFormed) (h : p.skeleton.nodes = q.skeleton.nodes) :
    p.roots = q.roots := by
  have hsub {p q : Plan} (hp : p.WellFormed) (hq : q.WellFormed) (h : p.skeleton.nodes = q.skeleton.nodes)
      (k : NodeId) (hk : k ∈ p.roots) : k ∈ q.roots := by
    obtain ⟨n, hn, hop⟩ := (hp.roots k).mp hk
    obtain ⟨m, hm, hnm⟩ := get?_of_skeleton_nodes_eq h hn
    exact (hq.roots k).mpr ⟨m, hm, Node.op_eq_of_skeleton_eq hnm hop rfl⟩
  apply IdSet.ext
  intro k
  exact ⟨hsub hp hq h k, hsub hq hp h.symm k⟩

end Plan

-- ---------------------------------------------------------------------------
-- Deriving all nodes
-- ---------------------------------------------------------------------------

namespace Edit

open Plan

variable {p q r : Plan} {k : NodeId} {rest : List NodeId}

/-- What holds while a plan that starts as `q` is derived anew and the nodes in `rest` are still to
come: all others are as they are in `p`. -/
structure Renewing (p q : Plan) (rest : List NodeId) (r : Plan) : Prop where
  skeleton : r.skeleton = q.skeleton
  ordered : q.Ordered rest
  pending : ∀ k ∈ rest, q.contains k = true
  done : ∀ k ∉ rest, r.nodes.get? k = p.nodes.get? k

namespace Renewing

/-- What feeds the next node has had its turn. -/
theorem inputRelations (h : Renewing p q (k :: rest) r) (hq : q.Coherent) {n m : Node}
    (hn : r.nodes.get? k = some n) (hm : p.nodes.get? k = some m) (hnm : n.skeleton = m.skeleton) :
    p.inputRelations k = r.inputRelations k := by
  refine Alike.inputRelations_congr hn hm (Node.inputs_eq_of_skeleton_eq hnm).symm fun u hu => .of_eq ?_
  have hfeeds : q.Feeds u k := (feeds_iff_of_skeleton_eq h.skeleton).mp ⟨n, hn, hu⟩
  exact (h.done u fun hmem => hq.not_feeds_head h.ordered hmem hfeeds).symm

/-- The next node becomes what it is in `p`. -/
theorem next (h : Renewing p q (k :: rest) r) {s : Plan} (hs : Touched {k} r s)
    (hk : s.nodes.get? k = p.nodes.get? k) : Renewing p q rest s where
  skeleton := hs.skeleton.trans h.skeleton
  ordered := h.ordered.2.2
  pending j hj := h.pending j (List.mem_cons_of_mem _ hj)
  done j hj := by
    by_cases hjk : j = k
    · rw [hjk, hk]
    · rw [hs.elsewhere j hjk, h.done j (by simp [hjk, hj])]

theorem step (hp : p.Settled) (hq : q.Coherent) (hsame : q.skeleton.nodes = p.skeleton.nodes)
    (h : Renewing p q (k :: rest) r) :
    ∃ s, (do if (← node k).op ≠ .create then refresh k : Edit Unit) r = .ok () s ∧ Renewing p q rest s := by
  obtain ⟨n₀, hn₀⟩ := Option.isSome_iff_exists.mp (h.pending k List.mem_cons_self)
  obtain ⟨n, hn, -⟩ := get?_of_skeleton_eq h.skeleton.symm hn₀
  obtain ⟨m, hm, hnm⟩ := get?_of_skeleton_nodes_eq ((congrArg Plan.nodes h.skeleton).trans hsame) hn
  rw [bind_of_ok (run_node.mpr ⟨hn, rfl⟩)]
  by_cases hop : n.op = .create
  · refine ⟨r, by rw [if_neg (not_not.mpr hop)]; rfl, h.next .refl ?_⟩
    rw [hn, hm, Node.eq_of_skeleton_eq_of_create hnm hop]
  · have hop' : m.op ≠ .create := fun hc => hop (Node.op_eq_of_skeleton_eq hnm.symm hc rfl)
    obtain ⟨ins, _, hins, hm', hnew⟩ := steadyAt_iff.mp (hp k m hm hop')
    cases hm.symm.trans hm'
    rw [if_pos hop]
    refine ⟨r.set k m, run_derive.mpr ⟨ins, n, m, ?_, hn, Node.anew_of_skeleton_eq hnm hop' hnew, rfl⟩, ?_⟩
    · rw [← h.inputRelations hq hn hm hnm, hins]
    · exact h.next (.set hn hnm.symm) (by rw [get?_set, if_pos rfl, hm])

end Renewing

/-- A plan with the nodes of a settled plan, up to what is derived, becomes that plan. -/
theorem refreshAll_of_skeleton_eq (hp : p.Settled) (hq : q.Coherent) (hsame : q.skeleton.nodes = p.skeleton.nodes) :
    ∃ q', refreshAll q = .ok () q' ∧ q'.skeleton = q.skeleton ∧ q'.nodes = p.nodes := by
  obtain ⟨order, horder⟩ := hq.toLinked.exists_topSort
  have hbegin : Renewing p q order q := by
    refine ⟨rfl, ordered_of_topSortFrom horder, fun k => (hq.mem_topSort horder).mp, fun k hk => ?_⟩
    have hnone : q.nodes.get? k = none := by
      by_contra hsome
      exact hk ((hq.mem_topSort horder).mpr (Option.isSome_iff_ne_none.mpr hsome))
    have hskeleton : (p.nodes.get? k).map Node.skeleton = none := by
      rw [← get?_skeleton, ← hsame, get?_skeleton, hnone, Option.map_none]
    rw [hnone, Option.map_eq_none_iff.mp hskeleton]
  obtain ⟨q', hrun, hend⟩ := forM_total (motive := Renewing p q) (fun _ _ _ h => h.step hp hq hsame) hbegin
  have hnodes : q'.nodes = p.nodes := IdMap.ext fun k => hend.done k (by simp)
  exact ⟨q', run_bind.mpr ⟨order, q, run_ask.mpr ⟨horder, rfl⟩, hrun⟩, hend.skeleton, hnodes⟩

/-- What comes out depends on the skeletons of the nodes alone, up to the number that is given out next,
and nothing is left to do then. -/
theorem refreshAll_forgets {p' : Plan} (hp : p.WellFormed) (hq : q.WellFormed) (hs : p.Sourced)
    (hsame : q.skeleton.nodes = p.skeleton.nodes) (run : refreshAll p = .ok () p') :
    refreshAll q = .ok () { p' with nextId := q.nextId } ∧ p'.nextId = p.nextId ∧ refreshAll p' = .ok () p' := by
  obtain ⟨hskeleton, -, hsettled⟩ := settled_of_refreshAll hp.coherent hs run
  have hsame' : q.skeleton.nodes = p'.skeleton.nodes := by rw [hskeleton, hsame]
  obtain ⟨q', run', hskeleton', hnodes⟩ := refreshAll_of_skeleton_eq hsettled hq.coherent hsame'
  have hroots : q'.roots = p'.roots := by
    rw [roots_eq_of_skeleton_eq hskeleton, roots_eq_of_skeleton_eq hskeleton']
    exact hq.roots_eq hp hsame
  have hq' : q' = { p' with nextId := q.nextId } := by
    apply ext_get?
    · intro k
      rw [hnodes]
    · exact hroots
    · exact (nextId_eq_of_skeleton_eq hskeleton' : q'.nextId = q.nextId)
  refine ⟨hq' ▸ run', nextId_eq_of_skeleton_eq hskeleton, ?_⟩
  exact refreshAll_of_settled (hp.coherent.of_skeleton_eq hskeleton) hsettled

end Edit

namespace Workflow

/-- The turnover is delivered. -/
def deliverTurnover : List Call := turnover ++ [.collect 4 "result" (.singleton 1)]

end Workflow

/-- Everything that has been derived can be derived again from the skeleton. -/
theorem Edit.refreshAll_forgets_turnover : ∃ p : Plan, p.WellFormed ∧ p.skeleton.WellFormed ∧ p.Sourced ∧
    p.skeleton.skeleton.nodes = p.skeleton.nodes ∧ p.skeleton.nodes ≠ p.nodes ∧ refreshAll p = .ok () p ∧
    refreshAll p.skeleton = .ok () { p with nextId := p.skeleton.nextId } := by
  have hwrites : Workflow.writesTo Workflow.deliverTurnover (fun p => p.skeleton.nodes ≠ p.nodes) = true := by cbv
  obtain ⟨p, w, hwrite, htest⟩ := Workflow.exists_of_writesTo hwrites
  have hne := of_decide_eq_true htest
  have hbuilt : p.Built := ⟨_, w, hwrite⟩
  have horderly := hbuilt.simple.toOrderly
  have hp := horderly.coherent
  have hq := hp.of_skeleton_eq p.skeleton_skeleton
  have hsame := congrArg Plan.nodes p.skeleton_skeleton
  have run := refreshAll_of_settled hp hbuilt.settled
  have hs := horderly.sound.sourced
  exact ⟨p, hp.wellFormed, hq.wellFormed, hs, hsame, hne, run,
    (refreshAll_forgets hp.wellFormed hq.wellFormed hs hsame run).1⟩

end JointPlan
