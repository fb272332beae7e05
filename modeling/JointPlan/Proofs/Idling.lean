import JointPlan.Proofs.Collapsing
import JointPlan.Proofs.Crossings
import JointPlan.Proofs.Rerunning

/-!
# Passes with nothing to do

Where all crossings are guarded no concatenation enters MPC and no node leaves it, and where joint
computations get their inputs as shares there is nothing to close. On such a plan no pass puts
a node in. What operators know of the columns that they use may still change (`Plan.Kindred`): it
is derived anew after labels have been widened.
-/

namespace JointPlan

/-- Where the output lives depends on where the inputs live. -/
theorem Op.outputStorage?_congr {op : Op} {ins ins' : List Relation}
    (h : ins'.map Relation.storage = ins.map Relation.storage) :
    op.outputStorage? ins' = op.outputStorage? ins := by
  have hlength : ins'.length = ins.length := by simpa using congrArg List.length h
  have hinput {α : Type} (f : Storage → α) (kind : String) :
      (fun r : Relation => f r.storage) <$> input ins' 0 kind = (fun r => f r.storage) <$> input ins 0 kind := by
    have hhead : ins'[0]?.map Relation.storage = ins[0]?.map Relation.storage := by
      rw [← List.getElem?_map, ← List.getElem?_map, h]
    rw [input, input, hlength]
    cases h₁ : ins'[0]? <;> cases h₂ : ins[0]? <;> simp_all
  cases op <;> simp only [outputStorage?, arity, h] <;>
    first | rfl | exact hinput (fun st => some st.flattened) _ | exact hinput some _

theorem Op.arity_bare {op : Op} : op.bare.arity = op.arity := by simp [bare]

theorem Op.isInner_bare {op : Op} : op.bare.isInner = op.isInner := by
  cases op
  case arithmetic fn _ _ _ => cases fn <;> rfl
  all_goals rfl

namespace Plan

variable {p q r s t : Plan} {k u v : NodeId} {n m : Node} {w : Unit}

-- ---------------------------------------------------------------------------
-- Plans that yield the same
-- ---------------------------------------------------------------------------

/-- The nodes and edges are the same, and so is what each node yields. -/
structure Kindred (p q : Plan) : Prop where
  skeleton : q.skeleton = p.skeleton
  rel : ∀ k n m, p.nodes.get? k = some n → q.nodes.get? k = some m → m.rel = n.rel

/-- Every relation lives where those that it is computed from say. -/
def Housed (p : Plan) : Prop := ∀ k n ins, p.nodes.get? k = some n → n.op ≠ .create →
  p.inputRelations k = .ok ins → n.op.outputStorage? ins = .ok (some n.rel.storage)

theorem Settled.housed (h : p.Settled) : p.Housed := by
  intro k n ins hn hop hins
  obtain ⟨ins', hins', hst⟩ := (h k n hn hop).outputStorage? Node.anew_derivation hn hop
  rwa [Except.ok.inj (hins.symm.trans hins')]

theorem Widened.housed (h : Widened p q) (hp : p.Coherent) (hhoused : p.Housed) : q.Housed := by
  intro k m ins' hm hop hins'
  obtain ⟨n, hn, hnm⟩ := h.get?_old hm
  obtain ⟨ins, hins⟩ := exists_inputRelations hn (hp.toLinked.exists_input hn)
  obtain ⟨ins'', hins'', hwidened⟩ := h.inputRelations hins
  obtain rfl := Except.ok.inj (hins''.symm.trans hins')
  have hstorages : ins''.map Relation.storage = ins.map Relation.storage := by
    rw [← List.forall₂_eq_eq_eq, List.forall₂_map_left_iff, List.forall₂_map_right_iff]
    exact hwidened.flip.imp fun _ _ hr => hr.storage
  rw [hnm.op, Op.outputStorage?_congr hstorages, hnm.rel.storage]
  exact hhoused k n ins hn (hnm.op ▸ hop) hins

namespace Kindred

theorem refl : Kindred p p := ⟨rfl, fun _ _ _ hn hm => by cases hn.symm.trans hm; rfl⟩

theorem get? (h : Kindred p q) (hm : q.nodes.get? k = some m) :
    ∃ n, p.nodes.get? k = some n ∧ m.skeleton = n.skeleton ∧ m.rel = n.rel := by
  obtain ⟨n, hn, hs⟩ := get?_of_skeleton_eq h.skeleton hm
  exact ⟨n, hn, hs, h.rel k n m hn hm⟩

theorem coherent (h : Kindred p q) (hp : p.Coherent) : q.Coherent := hp.of_skeleton_eq h.skeleton

theorem numbered (h : Kindred p q) (hp : p.Numbered) : q.Numbered := by
  intro k m hm
  obtain ⟨n, hn, -, hrel⟩ := h.get? hm
  exact hrel ▸ hp k n hn

theorem inputRelations (h : Kindred p q) (hn : p.nodes.get? k = some n) (hm : q.nodes.get? k = some m) :
    q.inputRelations k = p.inputRelations k := by
  obtain ⟨n', hn', hs, -⟩ := h.get? hm
  obtain rfl := Option.some.inj (hn'.symm.trans hn)
  have hrel (u : NodeId) : Node.rel <$> q.node u = Node.rel <$> p.node u := by
    unfold Plan.node
    cases hq : q.nodes.get? u with
    | some b =>
      obtain ⟨a, ha, -, hab⟩ := h.get? hq
      simp [ha, hab]
    | none =>
      cases hp : p.nodes.get? u with
      | none => rfl
      | some a =>
        obtain ⟨b, hb, -⟩ := get?_of_skeleton_eq h.skeleton.symm hp
        cases hq.symm.trans hb
  unfold Plan.inputRelations Plan.node
  simp only [hn, hm, bind, Except.bind, Node.inputs_eq_of_skeleton_eq hs]
  exact mapM_congr fun u _ => hrel u

/-- Whether a node needs MPC is seen from relations and from operators that have no columns. -/
theorem requiresMpc (h : Kindred p q) (hp : p.Coherent) (hm : q.nodes.get? k = some m) :
    q.requiresMpc k = p.requiresMpc k := by
  have hq := (h.coherent hp).toLinked
  obtain ⟨rank, hrank⟩ := hp.toLinked.ranked
  -- a store asks the node above it
  induction hr : rank k using Nat.strong_induction_on generalizing k m with
  | _ _ ih =>
    obtain ⟨n, hn, hs, hrel⟩ := h.get? hm
    have hins := h.inputRelations hn hm
    by_cases hinner : n.op.isInner = true ∧ n.op ≠ .create
    · obtain ⟨ins, hfound⟩ := exists_inputRelations hn (hp.toLinked.exists_input hn)
      have hbare := Node.bare_eq_of_skeleton_eq hs
      have hinner' : m.op.isInner = true := by rw [← Op.isInner_bare, hbare, Op.isInner_bare, hinner.1]
      have hcreate' : m.op ≠ .create := fun hc => hinner.2 (Node.op_eq_of_skeleton_eq hs hc rfl)
      rw [hp.toLinked.requiresMpc_of_inner hn hinner.1 hinner.2 hfound,
        hq.requiresMpc_of_inner hm hinner' hcreate' (hins.trans hfound)]
    by_cases hstore : n.op = .store
    · obtain ⟨parent, hin⟩ := hp.inputs_of_arity hn (by rw [hstore]; rfl)
      have hfeeds : p.Feeds parent k := ⟨n, hn, by simp [hin]⟩
      obtain ⟨a, ha⟩ := hp.closed hfeeds
      obtain ⟨b, hb, -⟩ := get?_of_skeleton_eq h.skeleton.symm ha
      rw [hp.toLinked.requiresMpc_store hn hstore hin,
        hq.requiresMpc_store hm (Node.op_eq_of_skeleton_eq hs.symm hstore rfl)
          ((Node.inputs_eq_of_skeleton_eq hs).trans hin)]
      exact ih _ (hr ▸ hrank hfeeds) hb rfl
    · have hop : m.op = n.op := by
        refine Node.op_eq_of_skeleton_eq hs.symm rfl ?_
        cases hcase : n.op <;> simp_all [Op.isInner, Op.bound]
      exact hp.toLinked.requiresMpc_congr hq hn hm hop hstore (fun _ => hrel) hins

/-- Deriving the storage of a node leaves it where it is. -/
theorem refreshStorage (h : Kindred p s) (hhoused : p.Housed) (hnumbered : p.Numbered)
    (run : Edit.refreshStorage k s = .ok w t) : Kindred p t := by
  obtain ⟨ins, m, o, hins, hm, hderived, rfl⟩ := Edit.run_derive.mp run
  have hins' : ∀ r ∈ ins, r.Numbered := (h.numbered hnumbered).inputs hins
  have hskeleton := Node.restored_derivation.skeleton hins' hderived
  obtain ⟨n, hn, hs, hrel⟩ := h.get? hm
  have hsame : o.rel = n.rel := by
    obtain ⟨-, st?, hst, rfl⟩ := Node.run_refreshStorage.mp hderived
    rw [Node.outputStorage?_fill] at hst
    have hstorage : st?.getD m.rel.storage = m.rel.storage := by
      by_cases hcreate : n.op = .create
      · rw [Node.op_eq_of_skeleton_eq hs.symm hcreate rfl, Op.outputStorage?] at hst
        cases hst
        rfl
      · have hplace := hhoused k n ins hn hcreate ((h.inputRelations hn hm).symm.trans hins)
        rw [← Node.outputStorage?_fill, ← Op.fill_eq_of_bare_eq (Node.bare_eq_of_skeleton_eq hs),
          Node.outputStorage?_fill, hst, Except.ok.injEq] at hplace
        rw [hplace, Option.getD_some, hrel]
    simp only [hstorage]
    exact hrel
  refine ⟨(Touched.set hm hskeleton).skeleton.trans h.skeleton, fun j a b ha hb => ?_⟩
  rw [get?_set] at hb
  split at hb
  · cases hb
    subst j
    cases hn.symm.trans ha
    exact hsame
  · exact h.rel j a b ha hb

theorem propagateStorage (h : Kindred p s) (hhoused : p.Housed) (hnumbered : p.Numbered)
    (run : Edit.propagateStorage s = .ok w t) : Kindred p t := by
  obtain ⟨order, _, hask, run⟩ := run_bind.mp run
  obtain ⟨-, rfl⟩ := Edit.run_ask.mp hask
  refine forM_loop (motive := fun _ r => Kindred p r) (fun k _ r r' hr hstep => ?_) h run
  obtain ⟨n, _, hnode, hstep⟩ := run_bind.mp hstep
  obtain ⟨-, rfl⟩ := Edit.run_node.mp hnode
  split at hstep
  · exact hr.refreshStorage hhoused hnumbered hstep
  · obtain ⟨-, rfl⟩ := run_pure.mp hstep
    exact hr

end Kindred

-- ---------------------------------------------------------------------------
-- Plans whose crossings are guarded
-- ---------------------------------------------------------------------------

/-- Joint computations get all inputs as shares among the parties that store what they yield. -/
def Pooled (p : Plan) : Prop := ∀ e ∈ p.nodes.entries, (e.2.op.arity = .binary ∨ e.2.op.arity = .nary) →
  p.requiresMpc e.1 = .ok true →
    ∀ u ∈ e.2.inputs.ids, (p.nodes.get? u).map (fun m => m.rel.storage) = some e.2.rel.storage.shared

instance : Decidable p.Pooled := inferInstanceAs (Decidable (∀ e ∈ p.nodes.entries, _))

section Guarded

variable (hp : p.Coherent) (hguard : ∀ u v, p.Edge u v → p.Crosses u v → p.Guarded u v)

include hp hguard

theorem Coherent.requiresMpc_of_unguarded (hfeeds : p.Feeds u v) (hun : ¬ p.Guarded u v) :
    p.requiresMpc u = p.requiresMpc v := by
  obtain ⟨n, hn⟩ := hp.closed hfeeds
  have ⟨m, hm, _⟩ := hfeeds
  obtain ⟨b, hb⟩ := hp.toLinked.exists_requiresMpc hn
  obtain ⟨c, hc⟩ := hp.toLinked.exists_requiresMpc hm
  by_cases hbc : b = c
  · rw [hb, hc, hbc]
  · refine absurd (hguard u v (hp.edge_iff.mpr hfeeds) ⟨b, hb, ?_⟩) hun
    rw [hc, Bool.eq_not_of_ne fun h => hbc h.symm]

/-- Joint computations read joint computations. -/
theorem Coherent.requiresMpc_input (hn : p.nodes.get? k = some n) (hop : n.op.isBoundary = false)
    (hfeeds : p.Feeds u k) : p.requiresMpc u = p.requiresMpc k := by
  refine hp.requiresMpc_of_unguarded hguard hfeeds fun ⟨_, hborder⟩ => ?_
  rw [show p.opAt k = some n.op from opAt_eq_some.mpr ⟨n, hn, rfl⟩] at hborder
  rcases hborder with h | ⟨_, h⟩ <;> simp [Option.some.inj h, Op.isBoundary] at hop

/-- No concatenation enters MPC. -/
theorem Coherent.not_isUpperBoundary (hn : p.nodes.get? k = some n) (hop : n.op = .concat) :
    p.isUpperBoundary k ≠ .ok true := by
  intro hupper
  obtain ⟨hmpc, hlocal⟩ := (isUpperBoundary_eq_true hn).mp hupper
  obtain ⟨u, hu⟩ := List.exists_mem_of_ne_nil _ (hp.fed hn (by simp [hop]))
  have hfeeds : p.Feeds u k := ⟨n, hn, hu⟩
  have hsame := hp.requiresMpc_input hguard hn (by rw [hop]; rfl) hfeeds
  rw [hlocal u ((hp.parents hn).mpr hu), hmpc] at hsame
  cases hsame

/-- No node that is read and stands away from the border leaves MPC. -/
theorem Coherent.not_isLowerBoundary (hn : p.nodes.get? k = some n) (hop : n.op.isBoundary = false)
    (hchildren : n.children ≠ ∅) : p.isLowerBoundary k ≠ .ok true := by
  intro hlower
  obtain ⟨hmpc, hlocal⟩ := (isLowerBoundary_eq_true hn).mp hlower
  obtain ⟨c, hc⟩ := IdSet.exists_mem_of_ne_empty hchildren
  have hsame := hp.requiresMpc_of_unguarded hguard ((hp.children hn).mp hc) fun ⟨hstore, _⟩ => by
    rw [show p.opAt k = some n.op from opAt_eq_some.mpr ⟨n, hn, rfl⟩] at hstore
    simp [Option.some.inj hstore, Op.isBoundary] at hop
  rw [hlocal c hc, hmpc] at hsame
  cases hsame

end Guarded

end Plan

-- ---------------------------------------------------------------------------
-- The passes
-- ---------------------------------------------------------------------------

open Plan Edit Boundary

variable {p q s t : Plan} {X k : NodeId} {x n : Node} {u : Unit}

theorem PushDown.visit_of_guarded (hp : p.Coherent) (hguard : ∀ u v, p.Edge u v → p.Crosses u v → p.Guarded u v)
    (hx : p.nodes.get? X = some x) : visit X x.op p = .ok () p := by
  have hfind : boundaryConcat? X p = .ok none p := by
    obtain ⟨concat?, hfind⟩ := exists_boundaryConcat? hp hx
    cases concat? with
    | none => exact hfind
    | some D =>
      obtain ⟨t, x', entry⟩ := (run_boundaryConcat? hfind).2 D rfl
      exact absurd entry.enters (hp.not_isUpperBoundary hguard entry.upper entry.concat)
  have hswap : swap X p = .ok () p := by
    rw [swap, bind_of_ok hfind]
    rfl
  have hsplit : PushDown.split X p = .ok () p := by
    rw [PushDown.split, bind_of_ok hfind]
    rfl
  have hfork (hop : x.op = .concat) : fork X p = .ok () p := by
    rw [fork, bind_of_ok (run_node.mpr ⟨hx, rfl⟩)]
    split
    · obtain ⟨flag, hflag⟩ := hp.toLinked.exists_isUpperBoundary hx
      rw [bind_of_ok (run_ask.mpr ⟨hflag, rfl⟩)]
      cases flag with
      | false => rfl
      | true => exact absurd hflag (hp.not_isUpperBoundary hguard hx hop)
    · rfl
  cases hop : x.op <;> first | rfl | exact hswap | exact hsplit | exact hfork hop

namespace Boundary

/-- Nothing is closed for a node whose inputs arrive as shares. -/
theorem kindred_of_visitClose (hp : p.Coherent) (hnumbered : p.Numbered) (hhoused : p.Housed)
    (hguard : ∀ u v, p.Edge u v → p.Crosses u v → p.Guarded u v) (hpooled : p.Pooled) (h : Kindred p s)
    (hn : s.nodes.get? k = some n) (run : visitClose k n.op s = .ok u t) : Kindred p t := by
  have hclose (hop : n.op.arity = .binary ∨ n.op.arity = .nary) (run : closeInputs k s = .ok u t) : Kindred p t := by
    obtain ⟨r, hstorage, hrest⟩ := run_closeInputs.mp run
    have hr := h.refreshStorage hhoused hnumbered hstorage
    obtain ⟨-, rfl⟩ | ⟨hmpc, m, hm, hloop⟩ := hrest
    · exact hr
    obtain ⟨a, ha, hs, hrel⟩ := hr.get? hm
    obtain ⟨b, hb, hs', -⟩ := h.get? hn
    obtain rfl := Option.some.inj (ha.symm.trans hb)
    have hop' : a.op.arity = .binary ∨ a.op.arity = .nary := by
      rwa [← Op.arity_bare, ← Node.bare_eq_of_skeleton_eq hs', Op.arity_bare]
    rw [hr.requiresMpc hp hm] at hmpc
    have hstays : (firsts m.inputs.ids).forM (closeInput k m.rel.storage.shared) r = .ok () r := by
      refine forM_stays fun v hv => ?_
      have hv : v ∈ a.inputs.ids := by
        rw [← Node.inputs_eq_of_skeleton_eq hs]
        exact mem_firsts.mp hv
      obtain ⟨c, hc, hst⟩ := Option.map_eq_some_iff.mp (hpooled (k, a) (IdMap.mem_entries_iff.mpr ha) hop' hmpc v hv)
      obtain ⟨d, hd, -⟩ := get?_of_skeleton_eq hr.skeleton.symm hc
      have hborder : a.op.isBoundary = false := by
        cases hcase : a.op <;> simp_all [Op.arity, Op.isBoundary]
      have hjoint : r.Joint m.rel.storage.shared v := by
        refine ⟨⟨d, hd, ?_⟩, ?_⟩
        · rw [hr.rel v c d hc hd, hst, hrel]
        · rw [hr.requiresMpc hp hd, hp.requiresMpc_input hguard ha hborder ⟨a, ha, hv⟩, hmpc]
      exact run_bind.mpr ⟨true, r, arrivesShared_of_arrives hjoint.arrives, rfl⟩
    cases hstays.symm.trans hloop
    exact hr
  rw [visitClose] at run
  cases hop : n.op.arity <;> simp only [hop] at run
  case nullary =>
    obtain ⟨-, rfl⟩ := run_pure.mp run
    exact h
  case unary => exact h.refreshStorage hhoused hnumbered run
  case binary => exact hclose (.inl hop) run
  case nary => exact hclose (.inr hop) run

end Boundary

namespace Pass

variable {pass : Pass}

/-- A pass that visits in vain only finishes. -/
theorem finish_of_stays (hvisit : ∀ k n, p.nodes.get? k = some n → pass.visit k n.op p = .ok () p)
    (run : pass.run p = .ok u q) : pass.finish p = .ok () q := by
  obtain ⟨order, r, -, hsteps, hfinish⟩ := run_run.mp run
  have hr : r = p := by
    refine forM_loop (motive := fun _ r => r = p) ?_ rfl hsteps
    rintro k _ _ t rfl hstep
    rcases run_step.mp hstep with ⟨-, rfl⟩ | ⟨n, hn, hrun⟩
    · rfl
    · cases (hvisit k n hn).symm.trans hrun
      rfl
  exact hr ▸ hfinish

theorem kindred_of_insertClose (hp : p.Coherent) (hnumbered : p.Numbered) (hhoused : p.Housed)
    (hguard : ∀ u v, p.Edge u v → p.Crosses u v → p.Guarded u v) (hpooled : p.Pooled)
    (run : insertClose.run p = .ok u q) : Kindred p q := by
  obtain ⟨r, hr, -, hfinish⟩ := exists_of_visits (motive := fun _ r => Kindred p r) hp
    (fun _ _ => insertClose_visit_reworks) (fun _ _ => .refl)
    (fun h _ hn hvisit => kindred_of_visitClose hp hnumbered hhoused hguard hpooled h hn hvisit) run
  exact hr.propagateStorage hhoused hnumbered hfinish

theorem insertOpen_of_kindred (hp : p.Coherent) (hguard : ∀ u v, p.Edge u v → p.Crosses u v → p.Guarded u v)
    (h : Kindred p q) : insertOpen.run q = .ok () q := by
  have hq := h.coherent hp
  refine run_of_stays hq (fun k m hm => ?_) rfl
  obtain ⟨n, hn, hs, -⟩ := h.get? hm
  simp only [insertOpen]
  split
  case isTrue => rfl
  case isFalse hop =>
    have hleaf : q.isLeaf k = .ok m.isLeaf := map_eq_ok.mpr ⟨m, node_eq_ok.mpr hm, rfl⟩
    refine run_bind.mpr ⟨m.isLeaf, q, run_ask.mpr ⟨hleaf, rfl⟩, ?_⟩
    cases hcase : m.isLeaf with
    | true => rfl
    | false =>
      obtain ⟨lower, hlower⟩ := hq.toLinked.exists_isLowerBoundary hm
      refine run_bind.mpr ⟨lower, q, run_ask.mpr ⟨hlower, rfl⟩, ?_⟩
      cases lower with
      | false => rfl
      | true =>
        obtain ⟨hmpc, hlocal⟩ := (isLowerBoundary_eq_true hm).mp hlower
        rw [Node.children_eq_of_skeleton_eq hs] at hlocal
        have hborder : n.op.isBoundary = false := by
          rw [← Op.isBoundary_eq_of_bare_eq (Node.bare_eq_of_skeleton_eq hs)]
          exact Bool.eq_false_iff.mpr hop
        have hchildren : n.children ≠ ∅ := by
          rw [← Node.children_eq_of_skeleton_eq hs]
          intro hempty
          rw [Node.isLeaf, hempty] at hcase
          cases hcase
        refine absurd ((isLowerBoundary_eq_true hn).mpr ⟨?_, fun c hc => ?_⟩)
          (hp.not_isLowerBoundary hguard hn hborder hchildren)
        · rw [← h.requiresMpc hp hm, hmpc]
        · obtain ⟨a, ha, -⟩ := (hp.children hn).mp hc
          obtain ⟨b, hb, -⟩ := get?_of_skeleton_eq h.skeleton.symm ha
          rw [← h.requiresMpc hp hb, hlocal c hc]

/-- Behind an opening there is a store, and what reads the store are reads. -/
theorem insertRead_of_handsOver (hp : p.Coherent) (h : p.HandsOver) : insertRead.run p = .ok () p := by
  refine run_of_stays hp (fun k n hn => ?_) rfl
  by_cases hop : n.op = .opening
  case neg =>
    rw [insertRead_visit_of_ne hop]
    rfl
  have hchild {k : NodeId} {n : Node} {children : List NodeId} (hn : p.nodes.get? k = some n)
      (hsorted : p.sortedChildren k = .ok children) {child : NodeId × Nat} (hmem : child ∈ children.zipIdx) :
      p.Edge k child.1 := by
    refine ⟨n, hn, ?_⟩
    rw [← IdSet.mem_toList, ← (sortedChildren_perm hp.toLinked hn hsorted).mem_iff]
    exact List.fst_mem_of_mem_zipIdx hmem
  obtain ⟨store, hstore, honly, hreads⟩ := h.opening k (opAt_eq_some.mpr ⟨n, hn, hop⟩)
  obtain ⟨m, hm, hstoreOp⟩ := opAt_eq_some.mp hstore
  obtain ⟨children, hsorted⟩ := hp.toLinked.exists_sortedChildren hn
  obtain ⟨readers, hreaders⟩ := hp.toLinked.exists_sortedChildren hm
  rw [hop]
  show readAfterOpening k p = .ok () p
  rw [readAfterOpening_eq]
  refine run_bind.mpr ⟨children, p, run_ask.mpr ⟨hsorted, rfl⟩, forM_stays fun child hmem => ?_⟩
  obtain hsame := (honly _).mp (hchild hn hsorted hmem)
  refine run_readBehind.mpr ⟨m, hsame ▸ hm, .inr (.inl ⟨hstoreOp, ?_⟩)⟩
  rw [hsame, readChildren_eq]
  refine run_bind.mpr ⟨readers, p, run_ask.mpr ⟨hreaders, rfl⟩, forM_stays fun reader hmem => ?_⟩
  obtain ⟨o, ho, hread⟩ := opAt_eq_some.mp (hreads _ (hchild hm hreaders hmem))
  exact run_readOne.mpr ⟨o, ho, .inl ⟨hread, rfl⟩⟩

end Pass

end JointPlan
