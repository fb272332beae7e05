import JointPlan.Proofs.Compiling
import JointPlan.Proofs.Cutting

/-!
# The parts of a plan

A part follows on what has been cut before it when its nodes are new, come in order and
include its roots; the parts of a plan follow on each other until there is nothing left.
So they hold every node once. What feeds a node of a part is in an earlier part or in the
same one, unless the node joined the part through another of its inputs: a walk goes on
to a node as soon as it comes to it from one side, whether or not the other sides have been
there. Parts can be out of order for this reason, and for no other.
-/

namespace JointPlan

namespace Plan

variable {p q c : Plan} {u v k : NodeId} {assigned candidates : NodeSet} {part : Part}

-- ---------------------------------------------------------------------------
-- Parts that follow on each other
-- ---------------------------------------------------------------------------

/-- The records of the nodes agree, and everything comes from the nodes without parents. -/
structure Rooted (p : Plan) : Prop where
  keyed : ∀ k n, p.nodes.get? k = some n → n.id = k
  edges : ∀ u v, (∃ n, p.nodes.get? u = some n ∧ v ∈ n.children) ↔
    ∃ m, p.nodes.get? v = some m ∧ u ∈ m.parents
  parents : ∀ k n, p.nodes.get? k = some n → ∀ u, u ∈ n.parents ↔ u ∈ n.inputs.ids
  roots : ∀ k, k ∈ p.roots ↔ ∃ n, p.nodes.get? k = some n ∧ n.parents = ∅
  acyclic : ∀ k, ¬ Relation.TransGen p.Edge k k
  reachable : ∀ k n, p.nodes.get? k = some n → ∃ r ∈ p.roots, p.Reaches r k

/-- The part can be cut from the plan when the nodes `assigned` are in earlier ones. -/
structure PartFollows (p : Plan) (assigned : NodeSet) (part : Part) : Prop where
  nodup : part.nodes.Nodup
  fresh : ∀ k ∈ part.nodes, p.contains k = true ∧ k ∉ assigned
  ordered : ∀ u ∈ part.nodes, ∀ v ∈ part.nodes, p.Edge u v → [u, v].Sublist part.nodes
  roots : ∀ k ∈ part.roots, k ∈ part.nodes
  fed : ∀ u, ∀ v ∈ part.nodes, p.Edge u v → u ∈ assigned ∨ u ∈ part.nodes ∨
    ∃ w ∈ part.nodes, w ≠ u ∧ p.Edge w v ∧ p.requiresMpc w = p.requiresMpc v

/-- The parts can be cut one after the other, and then all nodes are in parts. -/
def PartsFollow (p : Plan) (assigned : NodeSet) : List Part → Prop
  | [] => ∀ k, p.contains k = true → k ∈ assigned
  | part :: rest => p.PartFollows assigned part ∧ p.PartsFollow (assigned.insertAll part.nodes) rest

/-- The roots of a part agree on whether they need MPC. -/
theorem requiresMpc_eq_of_backendOf {roots : List NodeId} {backend : Backend}
    (h : c.backendOf roots = .ok backend) : ∀ u ∈ roots, ∀ v ∈ roots, c.requiresMpc u = c.requiresMpc v := by
  simp only [backendOf, bind_eq_ok, Round.lift_eq_ok, mapM_eq_ok, pure_eq_ok] at h
  obtain ⟨flags, hflags, h⟩ := h
  have hfound : ∀ u ∈ roots, ∃ e ∈ flags, c.requiresMpc u = .ok e.2 := by
    clear h
    induction hflags with
    | nil => simp
    | cons he _ ih =>
      obtain ⟨n, -, flag, hflag, rfl⟩ := he
      exact List.forall_mem_cons.mpr ⟨⟨_, List.mem_cons_self, hflag⟩,
        fun u hu => (ih u hu).imp fun _ h => ⟨List.mem_cons_of_mem _ h.1, h.2⟩⟩
  have hall : ∃ first, ∀ e ∈ flags, e.2 = first := by
    split at h
    · exact ⟨true, by simp⟩
    · split at h
      · rename_i first _ hsame
        exact ⟨first, by simpa using hsame⟩
      · cases h
  obtain ⟨first, hall⟩ := hall
  have hone : ∀ u ∈ roots, c.requiresMpc u = .ok first := by
    intro u hu
    obtain ⟨e, he, hflag⟩ := hfound u hu
    rw [hflag, hall e he]
  intro u hu v hv
  rw [hone u hu, hone v hv]

theorem run_cutPart {root : NodeId} {rest others : List NodeId} {round : Round}
    (h : c.cutPart assigned candidates root rest = .ok (part, others, round)) :
    ∃ order, (part.roots ++ others).Perm (root :: rest) ∧
      part.roots.foldlM (Round.walk assigned) ⟨c, ∅, candidates⟩ = .ok round ∧
      round.plan.backendOf part.roots = .ok part.backend ∧
      round.plan.topSortFrom part.roots = .ok order ∧ part.nodes = order.filter (· ∈ round.members) := by
  simp only [cutPart, bind_eq_ok, Round.lift_eq_ok, mapM_eq_ok, pure_eq_ok, List.partition_eq_filter_filter] at h
  obtain ⟨n, -, stored, hstored, _, hround, backend, hbackend, order, horder, h⟩ := h
  cases h
  refine ⟨order, ?_, hround, hbackend, horder, rfl⟩
  have hids : stored.map Prod.fst = rest := map_eq_of_forall₂ hstored fun id _ e he => by
    obtain ⟨m, -, rfl⟩ := he
    rfl
  rw [← hids, List.cons_append, ← List.map_append]
  exact ((List.filter_append_perm _ stored).map Prod.fst).cons root

/-- The nodes of a part are those that the walks have come by. -/
theorem mem_nodes_of_walking {rank : NodeId → Nat} {order others : List NodeId} {round : Round}
    (hrank : ∀ u v, p.Edge u v → rank u < rank v)
    (h : Round.Walking p assigned part.roots others none round)
    (horder : round.plan.topSortFrom part.roots = .ok order) :
    k ∈ order.filter (· ∈ round.members) ↔ k ∈ round.members := by
  rw [List.mem_filter, mem_of_topSortFrom horder, decide_eq_true_iff]
  refine ⟨fun hk => hk.2, fun hk => ⟨⟨?_, ?_⟩, hk⟩⟩
  · rw [h.cut.contains]
    exact (h.fresh k hk).1
  · induction hr : rank k using Nat.strong_induction_on generalizing k with
    | _ i ih =>
      subst hr
      rcases h.origin k hk with hroot | ⟨u, hu, huk, -⟩
      · exact ⟨k, hroot, .refl⟩
      · obtain ⟨root, hroot, hreach⟩ := ih _ (hrank u k (h.cut.sub u k huk)) hu rfl
        exact ⟨root, hroot, hreach.tail huk⟩

/-- When a part is finished, its nodes are the members of the round, and they are all on one side of MPC. -/
theorem walked_of_cutPart {rank : NodeId → Nat} {root : NodeId} {rest others : List NodeId} {round : Round}
    (hrank : ∀ u v, p.Edge u v → rank u < rank v)
    (h : Round.Walking p assigned [] (root :: rest) none ⟨c, ∅, candidates⟩)
    (run : c.cutPart assigned candidates root rest = .ok (part, others, round)) :
    Round.Walking p assigned part.roots others none round ∧ (∀ k ∈ part.roots, k ∉ others) ∧
      (∀ k, k ∈ part.nodes ↔ k ∈ round.members) ∧
      ∀ u ∈ round.members, ∀ v ∈ round.members, p.requiresMpc u = p.requiresMpc v := by
  obtain ⟨order, hperm, hwalks, hbackend, horder, hnodes⟩ := run_cutPart run
  have hbegun : Round.Walking p assigned part.roots (part.roots ++ others) none ⟨c, ∅, candidates⟩ :=
    { h.perm hperm.symm with
      origin := fun k hk => (IdSet.not_mem_empty k hk).elim
      flag := fun k hk => (IdSet.not_mem_empty k hk).elim
      begun := fun k hk => .inl (List.mem_append_left _ hk) }
  have hdone := hbegun.walks (fun _ h => h) hwalks
  refine ⟨hdone, fun k hk hk' => ?_, fun k => ?_, fun u hu v hv => ?_⟩
  · exact (List.nodup_append'.mp hbegun.nodup).2.2 hk hk'
  · rw [hnodes]
    exact mem_nodes_of_walking hrank hdone horder
  · obtain ⟨a, ha, hau⟩ := hdone.flag u hu
    obtain ⟨b, hb, hbv⟩ := hdone.flag v hv
    have hab := requiresMpc_eq_of_backendOf hbackend a ha b hb
    rw [hdone.cut.requiresMpc, hdone.cut.requiresMpc] at hab
    exact hau.symm.trans (hab.trans hbv)

/-- An edge inside a part is not cut: it stays on one side of MPC and leads to no earlier part. -/
theorem edge_of_walked {round : Round} {roots others : List NodeId} (h : Round.Walking p assigned roots others none round)
    (hflags : ∀ u ∈ round.members, ∀ v ∈ round.members, p.requiresMpc u = p.requiresMpc v) (hu : u ∈ round.members)
    (hv : v ∈ round.members) (huv : p.Edge u v) : round.plan.Edge u v := by
  rcases h.lost u v hu huv with hedge | hassigned | hflag
  · exact hedge
  · exact absurd hassigned (h.fresh v hv).2
  · exact absurd (hflags v hv u hu) hflag

/-- One part, and where it leaves the next one. -/
theorem follows_of_cutPart {rank : NodeId → Nat} {root : NodeId} {rest others : List NodeId} {round : Round}
    (hrank : ∀ u v, p.Edge u v → rank u < rank v)
    (h : Round.Walking p assigned [] (root :: rest) none ⟨c, ∅, candidates⟩)
    (run : c.cutPart assigned candidates root rest = .ok (part, others, round)) :
    p.PartFollows assigned part ∧
      Round.Walking p (assigned.insertAll part.nodes) [] others none ⟨round.plan, ∅, round.candidates⟩ := by
  obtain ⟨hdone, hnew, hmem, hflags⟩ := walked_of_cutPart hrank h run
  obtain ⟨order, hperm, -, -, horder, hnodes⟩ := run_cutPart run
  have hstart : ∀ v ∈ part.roots, ∀ u, ¬ c.Edge u v := fun v hv =>
    ((h.ready v).mp (.inl (hperm.mem_iff.mp (List.mem_append_left _ hv)))).2.2.2
  have hordered := ordered_of_topSortFrom horder
  refine ⟨?_, hdone.next fun k => by rw [IdSet.mem_insertAll, hmem]⟩
  constructor
  case nodup =>
    rw [hnodes]
    exact hordered.nodup.filter _
  case fresh => exact fun k hk => hdone.fresh k ((hmem k).mp hk)
  case ordered =>
    intro u hu v hv huv
    have hedge := edge_of_walked hdone hflags ((hmem u).mp hu) ((hmem v).mp hv) huv
    have hsub : [u, v].Sublist order := by
      refine hordered.sublist (List.mem_of_mem_filter (hnodes ▸ hu)) hedge ?_
      rw [hdone.cut.contains]
      exact (hdone.fresh v ((hmem v).mp hv)).1
    rw [hnodes]
    simpa [(hmem u).mp hu, (hmem v).mp hv] using hsub.filter (· ∈ round.members)
  case roots => exact fun k hk => (hmem k).mpr ((hdone.begun k hk).resolve_left (hnew k hk))
  case fed =>
    intro u v hv huv
    rcases hdone.origin v ((hmem v).mp hv) with hroot | ⟨w, hw, hwv, hflag⟩
    · by_contra hout
      rw [not_or] at hout
      exact hstart v hroot u (h.whole u v hout.1 (.inl (IdSet.not_mem_empty u)) huv)
    · by_cases hwu : w = u
      · exact .inr (.inl (hwu ▸ (hmem w).mpr hw))
      · exact .inr (.inr ⟨w, (hmem w).mpr hw, hwu, hdone.cut.sub w v hwv, hflag⟩)

/-- The candidates take the place of roots that are used up. -/
theorem walking_nextRoots {roots roots' : List NodeId} {candidates' : NodeSet}
    (h : Round.Walking p assigned [] roots none ⟨c, ∅, candidates⟩)
    (run : c.nextRoots candidates roots = .ok (roots', candidates')) :
    Round.Walking p assigned [] roots' none ⟨c, ∅, candidates'⟩ ∧ (roots' = [] → candidates' = ∅) := by
  unfold Plan.nextRoots at run
  split at run
  · rename_i hempty
    obtain rfl := List.isEmpty_iff.mp hempty
    simp only [bind_eq_ok, Round.lift_eq_ok, pure_eq_ok, Prod.mk.injEq] at run
    obtain ⟨ids, hids, rfl, rfl⟩ := run
    have hperm := sortedByName_perm hids
    refine ⟨?_, fun _ => rfl⟩
    exact
      { h with
        ready := fun k => by
          rw [hperm.mem_iff, ← h.ready]
          simp
        nodup := hperm.nodup_iff.mpr (IdSet.nodup_toList _)
        disjoint := fun k _ => IdSet.not_mem_empty k
        begun := by simp }
  · rename_i hempty
    cases run
    exact ⟨h, fun hnil => absurd (hnil ▸ rfl) hempty⟩

/-- There is nothing left to cut. -/
theorem follow_nil {rank : NodeId → Nat} (hrank : ∀ u v, p.Edge u v → rank u < rank v)
    (h : Round.Walking p assigned [] [] none ⟨c, ∅, candidates⟩) (hnone : candidates = ∅) :
    p.PartsFollow assigned [] := by
  subst hnone
  exact fun k hk => h.assigned_of_contains (r := ⟨c, ∅, ∅⟩) hrank hk

/-- Parts are cut one after the other until there are no roots left. -/
theorem cutParts_induct {motive : Plan → NodeSet → NodeSet → List NodeId → Partition → Prop} {limit rounds : Nat}
    {roots : List NodeId} {pt : Partition}
    (done : ∀ {c assigned candidates roots candidates'}, c.nextRoots candidates roots = .ok ([], candidates') →
      motive c assigned candidates roots ⟨c, []⟩)
    (step : ∀ {c assigned candidates roots root rest candidates' part others round pt},
      c.nextRoots candidates roots = .ok (root :: rest, candidates') →
      c.cutPart assigned candidates' root rest = .ok (part, others, round) →
      motive round.plan (assigned.insertAll part.nodes) round.candidates others pt →
      motive c assigned candidates roots { pt with parts := part :: pt.parts })
    (run : c.cutParts limit rounds assigned candidates roots = .ok pt) : motive c assigned candidates roots pt := by
  induction rounds generalizing c assigned candidates roots pt with
  | zero =>
    obtain ⟨⟨roots', candidates'⟩, hnext, run⟩ := bind_eq_ok.mp run
    cases roots' with
    | nil =>
      cases pure_eq_ok.mp run
      exact done hnext
    | cons root rest => cases run
  | succ rounds ih =>
    obtain ⟨⟨roots', candidates'⟩, hnext, run⟩ := bind_eq_ok.mp run
    cases roots' with
    | nil =>
      cases pure_eq_ok.mp run
      exact done hnext
    | cons root rest =>
      obtain ⟨⟨part, others, round⟩, hpart, run⟩ := bind_eq_ok.mp run
      obtain ⟨tail, htail, run⟩ := bind_eq_ok.mp run
      cases pure_eq_ok.mp run
      exact step hnext hpart (ih htail)

theorem follow_of_cutParts {rank : NodeId → Nat} {limit rounds : Nat} {roots : List NodeId} {pt : Partition}
    (hrank : ∀ u v, p.Edge u v → rank u < rank v)
    (h : Round.Walking p assigned [] roots none ⟨c, ∅, candidates⟩)
    (run : c.cutParts limit rounds assigned candidates roots = .ok pt) :
    p.PartsFollow assigned pt.parts := by
  refine cutParts_induct (motive := fun c assigned candidates roots pt =>
    Round.Walking p assigned [] roots none ⟨c, ∅, candidates⟩ → p.PartsFollow assigned pt.parts)
    (fun hnext h => ?_) (fun hnext hpart ih h => ?_) run h
  · obtain ⟨h, hcandidates⟩ := walking_nextRoots h hnext
    exact follow_nil hrank h (hcandidates rfl)
  · obtain ⟨hfollows, h⟩ := follows_of_cutPart hrank (walking_nextRoots h hnext).1 hpart
    exact ⟨hfollows, ih h⟩

/-- Before the first part is cut, the roots are what nothing leads to. -/
theorem Rooted.walking (hp : p.Rooted) {roots : List NodeId} (hroots : p.sortedByName p.roots.toList = .ok roots) :
    Round.Walking p ∅ [] roots none ⟨p, ∅, ∅⟩ := by
  have hperm := sortedByName_perm hroots
  have hroot (k : NodeId) : k ∈ p.roots ↔ p.contains k = true ∧ ∀ u, ¬ p.Edge u k := by
    rw [hp.roots, contains, IdMap.contains, Option.isSome_iff_exists]
    constructor
    · rintro ⟨n, hn, hempty⟩
      refine ⟨⟨n, hn⟩, fun u huk => ?_⟩
      obtain ⟨m, hm, hu⟩ := (hp.edges u k).mp huk
      cases hn.symm.trans hm
      exact IdSet.not_mem_empty u (hempty ▸ hu)
    · rintro ⟨⟨n, hn⟩, hnone⟩
      refine ⟨n, hn, IdSet.ext fun u => ⟨fun hu => ?_, fun hu => (IdSet.not_mem_empty u hu).elim⟩⟩
      exact (hnone u ((hp.edges u k).mpr ⟨n, hn, hu⟩)).elim
  exact
    { cut := ⟨rfl, hp.edges, fun _ _ h => h⟩
      whole := fun _ _ _ _ h => h
      closed := fun u _ hu => (IdSet.not_mem_empty u hu).elim
      inside := fun u _ hu => (IdSet.not_mem_empty u hu).elim
      lost := fun u _ hu => (IdSet.not_mem_empty u hu).elim
      fresh := fun k hk => (IdSet.not_mem_empty k hk).elim
      ready := fun k => by simp [hperm.mem_iff, hroot]
      nodup := hperm.nodup_iff.mpr (IdSet.nodup_toList _)
      disjoint := fun k _ => IdSet.not_mem_empty k
      origin := fun k hk => (IdSet.not_mem_empty k hk).elim
      flag := fun k hk => (IdSet.not_mem_empty k hk).elim
      begun := by simp }

theorem Rooted.follow_of_partition {limit : Nat} {pt : Partition} (hp : p.Rooted)
    (run : p.partition limit = .ok pt) : p.PartsFollow ∅ pt.parts := by
  simp only [partition, bind_eq_ok, Round.lift_eq_ok] at run
  obtain ⟨roots, hroots, run⟩ := run
  obtain ⟨rank, hrank⟩ := exists_rank hp.acyclic
  exact follow_of_cutParts hrank (hp.walking hroots) run

-- ---------------------------------------------------------------------------
-- What all parts together hold
-- ---------------------------------------------------------------------------

namespace PartsFollow

variable {parts : List Part}

theorem nodup (h : p.PartsFollow assigned parts) : (parts.flatMap Part.nodes).Nodup ∧
    ∀ k ∈ parts.flatMap Part.nodes, k ∉ assigned := by
  induction parts generalizing assigned with
  | nil => simp
  | cons part rest ih =>
    obtain ⟨hnodup, hout⟩ := ih h.2
    simp only [IdSet.mem_insertAll, not_or] at hout
    rw [List.flatMap_cons]
    refine ⟨h.1.nodup.append hnodup fun k hk hk' => (hout k hk').2 hk, fun k hk => ?_⟩
    rcases List.mem_append.mp hk with hk | hk
    · exact (h.1.fresh k hk).2
    · exact (hout k hk).1

theorem covers (h : p.PartsFollow assigned parts) :
    ∀ k, k ∈ parts.flatMap Part.nodes ∨ k ∈ assigned ↔ p.contains k = true ∨ k ∈ assigned := by
  induction parts generalizing assigned with
  | nil => exact fun k => by simpa using h k
  | cons part rest ih =>
    intro k
    have hrest := ih h.2 k
    rw [IdSet.mem_insertAll] at hrest
    rw [List.flatMap_cons, List.mem_append]
    have hfresh := fun hk => (h.1.fresh k hk).1
    tauto

theorem follows (h : p.PartsFollow assigned parts) (hpart : part ∈ parts) :
    ∃ assigned', p.PartFollows assigned' part := by
  induction parts generalizing assigned with
  | nil => cases hpart
  | cons first rest ih =>
    rcases List.mem_cons.mp hpart with rfl | hpart
    · exact ⟨assigned, h.1⟩
    · exact ih h.2 hpart

/-- What feeds a node comes no later, unless the node joined its part through another input. -/
theorem fed_before {i j : Nat} {a b : Part} (h : p.PartsFollow assigned parts) (ha : parts[i]? = some a)
    (hb : parts[j]? = some b) (hu : u ∈ a.nodes) (hv : v ∈ b.nodes) (huv : p.Edge u v) :
    i ≤ j ∨ ∃ w ∈ b.nodes, w ≠ u ∧ p.Edge w v ∧ p.requiresMpc w = p.requiresMpc v := by
  induction parts generalizing assigned i j with
  | nil => simp at ha
  | cons first rest ih =>
    have hout := h.nodup.2 u (List.mem_flatMap.mpr ⟨a, List.mem_of_getElem? ha, hu⟩)
    cases i with
    | zero => exact .inl (Nat.zero_le _)
    | succ i =>
      rw [List.getElem?_cons_succ] at ha
      have hlater := h.2.nodup.2 u (List.mem_flatMap.mpr ⟨a, List.mem_of_getElem? ha, hu⟩)
      rw [IdSet.mem_insertAll, not_or] at hlater
      cases j with
      | zero =>
        cases hb
        rcases h.1.fed u v hv huv with hin | hin | hin
        · exact absurd hin hout
        · exact absurd hin hlater.2
        · exact .inr hin
      | succ j =>
        rw [List.getElem?_cons_succ] at hb
        exact (ih h.2 ha hb).imp_left Nat.succ_le_succ

end PartsFollow

/-- The parts that a plan is cut into hold every node once, each of them in order and from its
roots on. -/
theorem Rooted.partition_covers {limit : Nat} {pt : Partition} (hp : p.Rooted)
    (run : p.partition limit = .ok pt) :
    (∀ part ∈ pt.parts, part.nodes.Nodup) ∧ pt.parts.Pairwise (fun a b => a.nodes.Disjoint b.nodes) ∧
    (∀ k, (∃ part ∈ pt.parts, k ∈ part.nodes) ↔ p.contains k = true) ∧
    (∀ part ∈ pt.parts, ∀ u ∈ part.nodes, ∀ v ∈ part.nodes, p.Edge u v → [u, v].Sublist part.nodes) ∧
    ∀ part ∈ pt.parts, ∀ k ∈ part.roots, k ∈ part.nodes := by
  have h := hp.follow_of_partition run
  obtain ⟨hnodup, hdisjoint⟩ := List.nodup_flatMap.mp h.nodup.1
  refine ⟨hnodup, hdisjoint, fun k => ?_, fun part hpart => ?_, fun part hpart => ?_⟩
  · simpa [List.mem_flatMap] using h.covers k
  · obtain ⟨assigned, hfollows⟩ := h.follows hpart
    exact hfollows.ordered
  · obtain ⟨assigned, hfollows⟩ := h.follows hpart
    exact hfollows.roots

theorem Coherent.rooted (hp : p.Coherent) : p.Rooted where
  keyed _ _ hn := hp.keyed hn
  edges := hp.edges
  parents _ _ hn _ := hp.parents hn
  roots k := by
    rw [hp.roots]
    refine exists_congr fun n => and_congr_right fun hn => ?_
    rw [← hp.isRoot_iff hn, Node.isRoot, IdSet.isEmpty_iff]
  acyclic := hp.acyclic
  reachable _ _ hn := hp.reachable hn

/-- In the parts of a compiled plan, what feeds a node comes no later than the node, unless the
node joined its part through another input that is on the same side of MPC. -/
theorem Built.partition_fed_before {limit : Nat} {pt : Partition} (hp : p.Built)
    (run : Edit.compile true p = .ok () q) (hcut : q.partition limit = .ok pt) :
    ∀ (u v : NodeId) (i j : Nat) (a b : Part), q.Edge u v → pt.parts[i]? = some a → u ∈ a.nodes → pt.parts[j]? = some b → v ∈ b.nodes →
      i ≤ j ∨ ∃ w ∈ b.nodes, w ≠ u ∧ q.Edge w v ∧ q.requiresMpc w = q.requiresMpc v := by
  intro u v i j a b huv ha hu hb hv
  obtain ⟨hq, -⟩ := Edit.compile_serves hp.simple run
  exact (hq.rooted.follow_of_partition hcut).fed_before ha hb hu hv huv

end Plan

-- ---------------------------------------------------------------------------
-- Instances
-- ---------------------------------------------------------------------------

namespace Workflow

/-- A relation that three parties share is put together with one that one of them holds. -/
def joinShared : List Call :=
  [.create "k" [.fresh "c" .integer] (.among 1 [2, 3]),
   .create "x" [(Column.fresh "c" .integer).labeled (.singleton 1) (.singleton 1)] (.among 1 []),
   .concat [0, 1] "z", .collect 2 "s" (.singleton 1)]

/-- Whether the calls end in a plan that can be compiled and cut, and the result passes a test. -/
def cuts (limit : Nat) (test : Plan → Partition → Bool) (calls : List Call) : Bool :=
  compilesTo true calls fun q =>
    match q.partition limit with
    | .ok pt => test q pt
    | .error _ => false

theorem exists_of_cuts {limit : Nat} {test : Plan → Partition → Bool} {calls : List Call}
    (h : cuts limit test calls = true) : ∃ p q pt, p.Built ∧ Edit.compile true p = .ok () q ∧
      q.partition limit = .ok pt ∧ test q pt = true := by
  obtain ⟨p, q, hp, run, htest⟩ := exists_of_compilesTo h
  split at htest
  · rename_i pt hcut
    exact ⟨p, q, pt, hp, run, hcut, htest⟩
  · cases htest

/-- The concatenation is in the part before that of the node 5, which feeds it. -/
def lateInput (q : Plan) (pt : Partition) : Bool :=
  (q.nodes.get? 5).any (fun n => decide (2 ∈ n.children)) &&
    (pt.parts[1]?.any (·.contains 2) && pt.parts[2]?.any (·.contains 5))

theorem cuts_joinShared : cuts 100 lateInput joinShared = true := by cbv

end Workflow

namespace Plan

theorem Rooted.partition_covers_joinShared : ∃ (p : Plan) (pt : Partition), p.Rooted ∧ p.partition 100 = .ok pt ∧
    (∀ part ∈ pt.parts, part.nodes.Nodup) ∧ pt.parts.Pairwise (fun a b => a.nodes.Disjoint b.nodes) ∧
    (∀ k, (∃ part ∈ pt.parts, k ∈ part.nodes) ↔ p.contains k = true) ∧
    (∀ part ∈ pt.parts, ∀ u ∈ part.nodes, ∀ v ∈ part.nodes, p.Edge u v → [u, v].Sublist part.nodes) ∧
    ∀ part ∈ pt.parts, ∀ k ∈ part.roots, k ∈ part.nodes := by
  obtain ⟨p, q, pt, hp, run, hcut, -⟩ := Workflow.exists_of_cuts Workflow.cuts_joinShared
  have hq := (Edit.compile_serves hp.simple run).1.rooted
  exact ⟨q, pt, hq, hcut, hq.partition_covers hcut⟩

theorem Built.partition_fed_before_joinShared : ∃ (p q : Plan) (pt : Partition), p.Built ∧
    Edit.compile true p = .ok () q ∧ q.partition 100 = .ok pt ∧
    ∀ (u v : NodeId) (i j : Nat) (a b : Part), q.Edge u v → pt.parts[i]? = some a → u ∈ a.nodes → pt.parts[j]? = some b → v ∈ b.nodes →
      i ≤ j ∨ ∃ w ∈ b.nodes, w ≠ u ∧ q.Edge w v ∧ q.requiresMpc w = q.requiresMpc v := by
  obtain ⟨p, q, pt, hp, run, hcut, -⟩ := Workflow.exists_of_cuts Workflow.cuts_joinShared
  exact ⟨p, q, pt, hp, run, hcut, hp.partition_fed_before run hcut⟩

/-- The node 5 feeds the concatenation from a later part. -/
theorem Built.partition_out_of_order : ∃ (p q : Plan) (pt : Partition), p.Built ∧ Edit.compile true p = .ok () q ∧
    q.partition 100 = .ok pt ∧ ∃ (u v : NodeId) (i j : Nat) (a b : Part), q.Edge u v ∧ pt.parts[i]? = some a ∧ u ∈ a.nodes ∧
      pt.parts[j]? = some b ∧ v ∈ b.nodes ∧ j < i := by
  obtain ⟨p, q, pt, hp, run, hcut, htest⟩ := Workflow.exists_of_cuts Workflow.cuts_joinShared
  simp only [Workflow.lateInput, Bool.and_eq_true, Option.any_eq_true, decide_eq_true_eq, Part.contains,
    List.contains_iff_mem] at htest
  obtain ⟨⟨n, hn, hedge⟩, ⟨b, hb, hv⟩, a, ha, hu⟩ := htest
  exact ⟨p, q, pt, hp, run, hcut, 5, 2, 2, 1, a, b, ⟨n, hn, hedge⟩, ha, hu, hb, hv, by decide⟩

end Plan

end JointPlan
