import JointPlan.Proofs.Backends

/-!
# What is left of a plan when it has been cut

The working copy that is cut into parts loses edges and nothing else, and it loses exactly those
between parts. While one part is cut, edges are taken away from its own members only, so a finished
part is never touched again; an edge between two of its nodes is kept, because it stays on one side of
MPC, and every other edge that leaves it is taken away as soon as a walk comes to it. The roots
are kept in step with the edges, so they are the nodes that nothing leads to any more.
-/

namespace JointPlan

namespace Plan

variable {p q c : Plan} {u v k parent child : NodeId} {assigned candidates : NodeSet} {part : Part}

-- ---------------------------------------------------------------------------
-- Roots
-- ---------------------------------------------------------------------------

/-- The roots are the nodes without parents. -/
def RootsFree (p : Plan) : Prop := ∀ k, k ∈ p.roots ↔ ∃ n, p.nodes.get? k = some n ∧ n.parents = ∅

theorem mem_roots_of_disconnect {x : Unit} (run : Edit.disconnect parent child c = .ok x q) :
    k ∈ q.roots ↔ k ∈ c.roots ∨ k = child ∧ ∃ n, q.nodes.get? k = some n ∧ n.parents = ∅ := by
  simp only [Edit.disconnect, run_bind, Edit.run_modifyNode, Edit.run_node] at run
  obtain ⟨-, _, ⟨m, -, rfl⟩, -, _, ⟨n, -, rfl⟩, o, _, ⟨ho, rfl⟩, run⟩ := run
  split at run
  · rename_i hroot
    rw [← run_modify.mp run]
    rw [Node.isRoot, IdSet.isEmpty_iff] at hroot
    refine IdSet.mem_insert.trans ⟨fun h => ?_, fun h => ?_⟩
    · rcases h with rfl | h
      · exact .inr ⟨rfl, o, ho, hroot⟩
      · exact .inl h
    · exact h.symm.imp_left And.left
  · rename_i hroot
    rw [← (run_pure.mp run).2]
    rw [Node.isRoot, IdSet.isEmpty_iff] at hroot
    refine ⟨.inl, fun h => h.resolve_right ?_⟩
    rintro ⟨rfl, n, hn, hempty⟩
    cases ho.symm.trans hn
    exact hroot hempty

theorem RootsFree.disconnect {x : Unit} (h : c.RootsFree) (run : Edit.disconnect parent child c = .ok x q) :
    q.RootsFree := by
  intro k
  rw [mem_roots_of_disconnect run, h k, get?_of_disconnect run]
  cases c.nodes.get? k with
  | none => simp
  | some n =>
    simp only [Option.map_some, Option.some.injEq, exists_eq_left', severed]
    by_cases hk : k = child
    · -- a node without parents has none to lose
      have hempty : n.parents = ∅ → n.parents.erase parent = ∅ := fun hn => by simp [hn, IdSet.ext_iff]
      split_ifs <;> simp_all [Node.dropChild]
    · split_ifs <;> simp_all [Node.dropChild]

end Plan

-- ---------------------------------------------------------------------------
-- The walks of a part
-- ---------------------------------------------------------------------------

namespace Round

open Plan

variable {c : Plan} {assigned : NodeSet} {r r' : Round} {id child : NodeId}

/-- What a round may do to the plan `c` that it begins with: it takes edges away from members, and
it keeps the roots in step. -/
structure Pruning (c : Plan) (r : Round) : Prop where
  edges : ∀ u v, u ∉ r.members → (r.plan.Edge u v ↔ c.Edge u v)
  roots : r.plan.RootsFree

namespace Pruning

theorem insert (h : Pruning c r) : Pruning c { r with members := r.members.insert id } where
  edges u v hu := h.edges u v fun hmem => hu (IdSet.mem_insert.mpr (.inr hmem))
  roots := h.roots

theorem sever {x : Unit} {plan : Plan} (h : Pruning c r) (hid : id ∈ r.members) (candidates : NodeSet)
    (run : Edit.disconnect id child r.plan = .ok x plan) : Pruning c { r with plan, candidates } where
  edges u v hu := by
    have hne : u ≠ id := fun hui => hu (hui ▸ hid)
    rw [← h.edges u v hu, edge_of_disconnect run]
    simp [hne]
  roots := h.roots.disconnect run

theorem grow (h : Pruning c r) (hid : id ∈ r.members) (run : grow assigned r id = .ok r') : Pruning c r' := by
  fun_induction Round.grow assigned r id with
  | case2 r id n hn hnil =>
    cases run
    exact h
  | case3 r id n hn child hone hmember =>
    cases run
    exact h
  | case4 r id n hn child hone hmember hassigned =>
    obtain ⟨x, plan, hplan, rfl⟩ := run_disconnect.mp run
    exact h.sever hid r.candidates hplan
  | case7 r id n hn child hone hmember hassigned below above habove hbelow hne =>
    obtain ⟨x, plan, m, hplan, -, rfl⟩ := run_cut.mp run
    exact h.sever hid _ hplan
  | case9 r id n hn child hone hmember hassigned below above habove hbelow heq m hm ih =>
    exact ih h.insert (IdSet.mem_insert.mpr (.inl rfl)) run
  | _ => cases run

theorem walks {l : List NodeId} (h : Pruning c r) (run : l.foldlM (Round.walk assigned) r = .ok r') :
    Pruning c r' :=
  walks_induct (motive := fun _ r => Pruning c r)
    (fun h hwalk => h.insert.grow (IdSet.mem_insert.mpr (.inl rfl)) hwalk) h run

end Pruning

end Round

-- ---------------------------------------------------------------------------
-- All parts
-- ---------------------------------------------------------------------------

namespace Plan

variable {p c : Plan} {u v : NodeId} {assigned candidates : NodeSet} {part : Part} {pt : Partition}

/-- The rest of the plan `p` is cut into parts when `c` is left of it and the nodes `assigned` are in
earlier parts. -/
structure CutUp (p c : Plan) (assigned : NodeSet) (pt : Partition) : Prop where
  cut : p.CutFrom pt.plan
  roots : pt.plan.RootsFree
  kept : ∀ u v, u ∈ assigned → (pt.plan.Edge u v ↔ c.Edge u v)
  inside : ∀ part ∈ pt.parts, ∀ u ∈ part.nodes, ∀ v, pt.plan.Edge u v ↔ p.Edge u v ∧ v ∈ part.nodes

/-- One part: it keeps the edges between its own nodes, and earlier parts are not touched. -/
theorem CutUp.cons {rank : NodeId → Nat} {root : NodeId} {rest others : List NodeId} {round : Round}
    (hrank : ∀ u v, p.Edge u v → rank u < rank v)
    (h : Round.Walking p assigned [] (root :: rest) none ⟨c, ∅, candidates⟩) (hroots : c.RootsFree)
    (run : c.cutPart assigned candidates root rest = .ok (part, others, round))
    (ih : round.plan.RootsFree → p.CutUp round.plan (assigned.insertAll part.nodes) pt) :
    p.CutUp c assigned { pt with parts := part :: pt.parts } := by
  obtain ⟨hdone, -, hmem, hflags⟩ := walked_of_cutPart hrank h run
  obtain ⟨-, -, hwalks, -⟩ := run_cutPart run
  have hpruning : Round.Pruning c round :=
    Round.Pruning.walks (r := ⟨c, ∅, candidates⟩) ⟨fun _ _ _ => .rfl, hroots⟩ hwalks
  have hrest := ih hpruning.roots
  refine ⟨hrest.cut, hrest.roots, fun u v hu => ?_, List.forall_mem_cons.mpr ⟨fun u hu v => ?_, hrest.inside⟩⟩
  · have hout : u ∉ round.members := fun hmember => (hdone.fresh u hmember).2 hu
    rw [hrest.kept u v (IdSet.mem_insertAll.mpr (.inl hu)), hpruning.edges u v hout]
  · rw [hrest.kept u v (IdSet.mem_insertAll.mpr (.inr hu)), hmem v]
    rw [hmem u] at hu
    constructor
    · exact fun huv => ⟨hdone.cut.sub u v huv, hdone.inside u v hu (by simp) huv⟩
    · exact fun ⟨huv, hv⟩ => edge_of_walked hdone hflags hu hv huv

theorem cutUp_of_cutParts {rank : NodeId → Nat} {limit rounds : Nat} {roots : List NodeId}
    (hrank : ∀ u v, p.Edge u v → rank u < rank v)
    (h : Round.Walking p assigned [] roots none ⟨c, ∅, candidates⟩) (hroots : c.RootsFree)
    (run : c.cutParts limit rounds assigned candidates roots = .ok pt) : p.CutUp c assigned pt := by
  refine cutParts_induct (motive := fun c assigned candidates roots pt =>
    Round.Walking p assigned [] roots none ⟨c, ∅, candidates⟩ → c.RootsFree → p.CutUp c assigned pt)
    (fun _ h hroots => ?_) (fun hnext hpart ih h hroots => ?_) run h hroots
  · exact ⟨h.cut, hroots, fun _ _ _ => .rfl, by simp⟩
  · have h := (walking_nextRoots h hnext).1
    exact .cons hrank h hroots hpart (ih (follows_of_cutPart hrank h hpart).2)

theorem Rooted.cutUp_of_partition {limit : Nat} (hp : p.Rooted) (run : p.partition limit = .ok pt) :
    p.CutUp p ∅ pt := by
  simp only [partition, bind_eq_ok, Round.lift_eq_ok] at run
  obtain ⟨roots, hroots, run⟩ := run
  obtain ⟨rank, hrank⟩ := exists_rank hp.acyclic
  exact cutUp_of_cutParts hrank (hp.walking hroots) hp.roots run

/-- Cutting a plan into parts takes away the edges between parts and nothing else: the ends of
an edge agree on whether it is there, all nodes keep their operators, relations and inputs, and
the roots are the nodes without parents. -/
theorem Rooted.partition_severs {limit : Nat} {pt : Partition} (hp : p.Rooted) (run : p.partition limit = .ok pt) :
    (∀ u v, (∃ n, pt.plan.nodes.get? u = some n ∧ v ∈ n.children) ↔
      (∃ n, p.nodes.get? u = some n ∧ v ∈ n.children) ∧ ∃ part ∈ pt.parts, u ∈ part.nodes ∧ v ∈ part.nodes) ∧
    (∀ u v, (∃ m, pt.plan.nodes.get? v = some m ∧ u ∈ m.parents) ↔
      (∃ m, p.nodes.get? v = some m ∧ u ∈ m.parents) ∧ ∃ part ∈ pt.parts, u ∈ part.nodes ∧ v ∈ part.nodes) ∧
    (∀ k, (pt.plan.nodes.get? k).map (fun n => (n.op, n.rel, n.inputs)) =
      (p.nodes.get? k).map fun n => (n.op, n.rel, n.inputs)) ∧
    ∀ k, k ∈ pt.plan.roots ↔ ∃ n, pt.plan.nodes.get? k = some n ∧ n.parents = ∅ := by
  have h := hp.cutUp_of_partition run
  have hedge (u v : NodeId) : pt.plan.Edge u v ↔
      p.Edge u v ∧ ∃ part ∈ pt.parts, u ∈ part.nodes ∧ v ∈ part.nodes := by
    constructor
    · intro huv
      have hup := h.cut.sub u v huv
      have hu : p.contains u = true := by
        obtain ⟨n, hn, -⟩ := hup
        simp [contains, IdMap.contains, hn]
      obtain ⟨part, hpart, hu⟩ : ∃ part ∈ pt.parts, u ∈ part.nodes := by
        simpa [List.mem_flatMap, hu] using (hp.follow_of_partition run).covers u
      exact ⟨hup, part, hpart, hu, ((h.inside part hpart u hu v).mp huv).2⟩
    · rintro ⟨huv, part, hpart, hu, hv⟩
      exact (h.inside part hpart u hu v).mpr ⟨huv, hv⟩
  refine ⟨hedge, fun u v => ?_, fun k => ?_, h.roots⟩
  · rw [← h.cut.twoSided u v, ← hp.edges u v]
    exact hedge u v
  · have hk := congrArg (fun q : Plan => (q.nodes.get? k).map fun n => (n.op, n.rel, n.inputs)) h.cut.loose
    simpa [loose, IdMap.get?_map, Node.loose, Function.comp_def] using hk

end Plan

-- ---------------------------------------------------------------------------
-- Instances
-- ---------------------------------------------------------------------------

namespace Workflow

/-- The edge from the node 5 to the concatenation is there before the cut and not after it. -/
def severedInput (q : Plan) (pt : Partition) : Bool :=
  (q.nodes.get? 5).any (fun n => decide (2 ∈ n.children)) && (pt.plan.nodes.get? 5).all fun n => decide (2 ∉ n.children)

theorem cuts_severedInput : cuts 100 severedInput joinShared = true := by cbv

end Workflow

namespace Plan

theorem Rooted.partition_severs_joinShared : ∃ (p : Plan) (pt : Partition), p.Rooted ∧ p.partition 100 = .ok pt ∧
    (∃ n, p.nodes.get? 5 = some n ∧ 2 ∈ n.children) ∧ ¬ (∃ part ∈ pt.parts, 5 ∈ part.nodes ∧ 2 ∈ part.nodes) ∧
    (∀ u v, (∃ n, pt.plan.nodes.get? u = some n ∧ v ∈ n.children) ↔
      (∃ n, p.nodes.get? u = some n ∧ v ∈ n.children) ∧ ∃ part ∈ pt.parts, u ∈ part.nodes ∧ v ∈ part.nodes) ∧
    (∀ u v, (∃ m, pt.plan.nodes.get? v = some m ∧ u ∈ m.parents) ↔
      (∃ m, p.nodes.get? v = some m ∧ u ∈ m.parents) ∧ ∃ part ∈ pt.parts, u ∈ part.nodes ∧ v ∈ part.nodes) ∧
    (∀ k, (pt.plan.nodes.get? k).map (fun n => (n.op, n.rel, n.inputs)) =
      (p.nodes.get? k).map fun n => (n.op, n.rel, n.inputs)) ∧
    ∀ k, k ∈ pt.plan.roots ↔ ∃ n, pt.plan.nodes.get? k = some n ∧ n.parents = ∅ := by
  obtain ⟨p, q, pt, hp, run, hcut, htest⟩ := Workflow.exists_of_cuts Workflow.cuts_severedInput
  have hq := (Edit.compile_serves hp.simple run).1.rooted
  have hsevers := hq.partition_severs hcut
  simp only [Workflow.severedInput, Bool.and_eq_true, Option.any_eq_true, Option.all_eq_true, decide_eq_true_eq] at htest
  obtain ⟨hedge, hnone⟩ := htest
  refine ⟨q, pt, hq, hcut, hedge, fun hpart => ?_, hsevers⟩
  obtain ⟨n, hn, hchild⟩ := (hsevers.1 5 2).mpr ⟨hedge, hpart⟩
  exact hnone n hn hchild

end Plan

end JointPlan
