import JointPlan.Partition.Audit
import JointPlan.Proofs.Handoffs

/-!
# Crossings

An edge crosses when one end of it needs MPC and the other does not. In a compiled plan the
border operators stand in order, so a crossing at a border operator is always guarded: it
leads from a store to what reads or closes the stored relation. But not every crossing has
got a border operator. The passes ask each node once whether it needs MPC, and opening a
relation changes the answer for the nodes that read it. The audit reports such a crossing.
-/

namespace JointPlan

/-- A loop of checks passes all elements, or stops at one of them. -/
theorem forM_passes_or_stops {ε α : Type} {f : α → Except ε Unit} {l : List α} {P : α → Prop} {Q : α → ε → Prop}
    (h : ∀ a ∈ l, (f a = .ok () ∧ P a) ∨ ∃ e, Q a e ∧ f a = .error e) :
    (l.forM f = .ok () ∧ ∀ a ∈ l, P a) ∨ ∃ a ∈ l, ∃ e, Q a e ∧ l.forM f = .error e := by
  induction l with
  | nil => exact .inl ⟨rfl, by simp⟩
  | cons a l ih =>
    have hstep : (a :: l).forM f = f a >>= fun _ => l.forM f := rfl
    rcases h a List.mem_cons_self with ⟨ha, hP⟩ | ⟨e, hQ, ha⟩
    · have hrest : (a :: l).forM f = l.forM f := by rw [hstep, ha]; rfl
      rw [hrest]
      rcases ih fun b hb => h b (List.mem_cons_of_mem _ hb) with ⟨hok, hall⟩ | ⟨b, hb, hstop⟩
      · exact .inl ⟨hok, List.forall_mem_cons.mpr ⟨hP, hall⟩⟩
      · exact .inr ⟨b, List.mem_cons_of_mem _ hb, hstop⟩
    · exact .inr ⟨a, List.mem_cons_self, e, hQ, by rw [hstep, ha]; rfl⟩

namespace Plan

variable {p q : Plan} {u v : NodeId} {n m : Node}

/-- One end of the edge needs MPC and the other does not. -/
def Crosses (p : Plan) (u v : NodeId) : Prop := ∃ b, p.requiresMpc u = .ok b ∧ p.requiresMpc v = .ok !b

/-- The edge leads from a store to what reads or closes it. -/
def Guarded (p : Plan) (u v : NodeId) : Prop :=
  p.opAt u = some .store ∧ (p.opAt v = some .read ∨ ∃ storage, p.opAt v = some (.closing storage))

/-- There is no border operator at the edge, but for one that is read by `v` or opens `u`. -/
structure Bare (p : Plan) (u v : NodeId) : Prop where
  not_store : p.opAt u ≠ some .store
  not_opening : p.opAt u ≠ some .opening
  not_stored : p.opAt v ≠ some .store
  not_read : p.opAt v ≠ some .read
  not_closing : ∀ storage, p.opAt v ≠ some (.closing storage)

/-- The violation that is reported for a bare crossing. -/
def Exposes (p : Plan) (u v : NodeId) (violation : Violation) : Prop :=
  p.Edge u v ∧ p.Crosses u v ∧ p.Bare u v ∧ ∃ n m, p.nodes.get? u = some n ∧ p.nodes.get? v = some m ∧
    violation = .bareCrossing n.rel.name n.op.kind m.rel.name m.op.kind

section Border

variable (hp : p.Coherent) (h : p.HandsOver) (huv : p.Edge u v)

include h huv

theorem HandsOver.store_of_opening (hu : p.opAt u = some .opening) : p.opAt v = some .store := by
  obtain ⟨s, hs, hchild, -⟩ := h.opening u hu
  rwa [(hchild v).mp huv]

theorem HandsOver.guarded (hv : p.opAt v = some .read ∨ ∃ storage, p.opAt v = some (.closing storage)) :
    p.Guarded u v := by
  refine ⟨?_, hv⟩
  rcases hv with hv | ⟨storage, hv⟩
  · obtain ⟨s, -, hs, -, -, hparent⟩ := h.read v hv
    rwa [(hparent u).mp huv]
  · obtain ⟨⟨s, hs, hparent⟩, -⟩ := h.closing v storage hv
    rwa [(hparent u).mp huv]

theorem HandsOver.guarded_of_store (hu : p.opAt u = some .store) : p.Guarded u v := by
  refine ⟨hu, ?_⟩
  rcases h.store u hu with ⟨-, -, -, hreads⟩ | ⟨c, storage, hc, hchild⟩
  · exact .inl (hreads v huv)
  · exact .inr ⟨storage, by rwa [(hchild v).mp huv]⟩

omit h in
/-- A store needs MPC as what it stores does. -/
theorem Coherent.not_crosses_store (hp : p.Coherent) (hv : p.opAt v = some .store) : ¬ p.Crosses u v := by
  intro ⟨b, hu, hv'⟩
  obtain ⟨n, hn, hop⟩ := opAt_eq_some.mp hv
  obtain ⟨parent, hin⟩ := hp.inputs_of_arity hn (by rw [hop]; rfl)
  obtain rfl : u = parent := by simpa [Feeds, hn, hin] using hp.edge_iff.mp huv
  rw [hp.requiresMpc_store hn hop hin, hu] at hv'
  cases b <;> cases hv'

include hp

theorem HandsOver.guarded_or_bare (hcross : p.Crosses u v) : p.Guarded u v ∨ p.Bare u v := by
  by_cases hv : p.opAt v = some .read ∨ ∃ storage, p.opAt v = some (.closing storage)
  · exact .inl (h.guarded huv hv)
  by_cases hu : p.opAt u = some .store
  · exact .inl (h.guarded_of_store huv hu)
  have hstored : p.opAt v ≠ some .store := fun hv => hp.not_crosses_store huv hv hcross
  push Not at hv
  exact .inr ⟨hu, fun hu => hstored (h.store_of_opening huv hu), hstored, hv.1, hv.2⟩

/-- What is found at an edge is a bare crossing. -/
theorem HandsOver.auditEdge {b : Bool} (hu : p.nodes.get? u = some n) (hb : p.requiresMpc u = .ok b) :
    (p.auditEdge n b v = .ok () ∧ (p.Crosses u v → p.Guarded u v)) ∨
    ∃ violation, p.Exposes u v violation ∧ p.auditEdge n b v = .error violation := by
  have ⟨m, hv, _⟩ := hp.edge_iff.mp huv
  have hopU : p.opAt u = some n.op := opAt_eq_some.mpr ⟨n, hu, rfl⟩
  have hopV : p.opAt v = some m.op := opAt_eq_some.mpr ⟨m, hv, rfl⟩
  obtain ⟨c, hc⟩ := hp.exists_requiresMpc hv
  have hopening : ¬ (n.op = .opening ∧ m.op ≠ .store) := by
    intro ⟨hn, hm⟩
    have hstore := h.store_of_opening huv (hn ▸ hopU)
    rw [hopV] at hstore
    exact hm (Option.some.inj hstore)
  rw [Plan.auditEdge, node_eq_ok.mpr hv, hc]
  simp only [Except.mapError, bind, Except.bind, ne_eq, hopening, if_false]
  by_cases hbc : b = c
  · subst hbc
    refine .inl ⟨by simp only [not_true_eq_false, if_false]; rfl, fun ⟨b', hb', hc'⟩ => ?_⟩
    rw [hb] at hb'
    rw [hc] at hc'
    cases hb'
    cases b <;> cases hc'
  have hcross : p.Crosses u v := ⟨b, hb, by rw [hc, Bool.eq_not_of_ne fun h => hbc h.symm]⟩
  rcases h.guarded_or_bare hp huv hcross with hguarded | hbare
  · refine .inl ⟨?_, fun _ => hguarded⟩
    obtain ⟨hstore, hborder⟩ := hguarded
    rw [hopU, Option.some_inj] at hstore
    simp only [hopV, Option.some_inj] at hborder
    rcases hborder with hread | ⟨storage, hclosing⟩
    · simp [hbc, hstore, hread, pure, Except.pure]
    · simp [hbc, hstore, hclosing, pure, Except.pure]
  · refine .inr ⟨_, ⟨huv, hcross, hbare, n, m, hu, hv, rfl⟩, ?_⟩
    have hread := hbare.not_read
    have hclosing := hbare.not_closing
    rw [hopV] at hread hclosing
    simp only [hbc, not_false_eq_true, if_true]
    split <;> simp_all [throw, throwThe, MonadExceptOf.throw]

end Border

theorem HandsOver.auditNode (hp : p.Coherent) (h : p.HandsOver) (hu : p.nodes.get? u = some n) :
    (p.auditNode u = .ok () ∧ ∀ v, p.Edge u v → p.Crosses u v → p.Guarded u v) ∨
    ∃ violation, (∃ v, p.Exposes u v violation) ∧ p.auditNode u = .error violation := by
  obtain ⟨b, hb⟩ := hp.exists_requiresMpc hu
  have hrun : p.auditNode u = n.children.toList.forM (p.auditEdge n b) := by
    rw [Plan.auditNode, node_eq_ok.mpr hu, hb]
    rfl
  have hedges := forM_passes_or_stops fun v hv => h.auditEdge hp ⟨n, hu, IdSet.mem_toList.mp hv⟩ hu hb
  rw [hrun]
  rcases hedges with ⟨hok, hall⟩ | ⟨v, -, violation, hexposes, herror⟩
  · refine .inl ⟨hok, fun v ⟨n', hu', hv⟩ => ?_⟩
    cases hu.symm.trans hu'
    exact hall v (IdSet.mem_toList.mpr hv)
  · exact .inr ⟨violation, ⟨v, hexposes⟩, herror⟩

/-- The audit passes when all crossings are guarded, and what it reports is a bare crossing. -/
theorem HandsOver.auditBoundaries (hp : p.Coherent) (h : p.HandsOver) :
    (p.auditBoundaries = .ok () ∧ ∀ u v, p.Edge u v → p.Crosses u v → p.Guarded u v) ∨
    ∃ u v violation, p.Exposes u v violation ∧ p.auditBoundaries = .error violation := by
  obtain ⟨order, horder⟩ := hp.exists_topSort
  have hmem (u : NodeId) : u ∈ order ↔ ∃ n, p.nodes.get? u = some n := by
    simpa [contains, IdMap.contains, Option.isSome_iff_exists] using hp.mem_topSort horder
  have hrun : p.auditBoundaries = order.forM p.auditNode := by
    rw [Plan.auditBoundaries, horder]
    rfl
  have hnodes := forM_passes_or_stops fun u hu => h.auditNode hp ((hmem u).mp hu).choose_spec
  rw [hrun]
  rcases hnodes with ⟨hok, hall⟩ | ⟨u, -, violation, ⟨v, hexposes⟩, herror⟩
  · refine .inl ⟨hok, fun u v huv => hall u ?_ v huv⟩
    obtain ⟨n, hn, -⟩ := huv
    exact (hmem u).mpr ⟨n, hn⟩
  · exact .inr ⟨u, v, violation, hexposes, herror⟩

end Plan

end JointPlan
