import JointPlan.Proofs.Partitioning

/-!
# What runs a part

The backend of a part is chosen from its roots, after the walks and on what is left of the
plan by then. It is nevertheless right for every node of the part and for the plan as it was
to begin with: taking an edge away changes nothing but the two records of that edge, and a walk
goes on only to nodes that agree with the one it comes from. A walk that runs into a
node of another walk of the part stops there without a comparison, so nodes agree with one of the
roots each; that the roots agree among themselves is checked at the end. None of this depends on
the plan being well formed.
-/

namespace JointPlan

namespace Plan

variable {p q c : Plan} {u v k parent child : NodeId}

theorem requiresMpc_eq_of_loose (h : q.loose = p.loose) : q.requiresMpc k = p.requiresMpc k := by
  rw [← requiresMpc_loose, h, requiresMpc_loose]

/-- Nodes that agree but for their edges store their outputs in the same place. -/
theorem exists_of_loose {n : Node} (h : q.loose = p.loose) (hn : q.nodes.get? k = some n) :
    ∃ m, p.nodes.get? k = some m ∧ m.rel = n.rel := by
  have hk := congrArg (fun p : Plan => p.nodes.get? k) h
  simp only [loose, IdMap.get?_map, hn, Option.map_some] at hk
  obtain ⟨m, hm, hloose⟩ := Option.map_eq_some_iff.mp hk.symm
  have hrel : m.loose.rel = n.loose.rel := by rw [hloose]
  exact ⟨m, hm, hrel⟩

end Plan

-- ---------------------------------------------------------------------------
-- The walks of a part
-- ---------------------------------------------------------------------------

namespace Round

open Plan

variable {p : Plan} {assigned : NodeSet} {roots : List NodeId} {r r' : Round} {id child : NodeId}

/-- Only edges have been taken away, and every member of the part agrees with one of its roots on
whether it needs MPC. -/
structure Agreeing (p : Plan) (roots : List NodeId) (r : Round) : Prop where
  loose : r.plan.loose = p.loose
  flag : ∀ k ∈ r.members, ∃ root ∈ roots, p.requiresMpc root = p.requiresMpc k

namespace Agreeing

theorem begin (h : c.loose = p.loose) (candidates : NodeSet) : Agreeing p roots ⟨c, ∅, candidates⟩ :=
  ⟨h, fun k hk => (IdSet.not_mem_empty k hk).elim⟩

theorem insert (h : Agreeing p roots r) (hid : ∃ root ∈ roots, p.requiresMpc root = p.requiresMpc id) :
    Agreeing p roots { r with members := r.members.insert id } where
  loose := h.loose
  flag k hk := by
    rcases IdSet.mem_insert.mp hk with rfl | hk
    · exact hid
    · exact h.flag k hk

theorem disconnect (h : Agreeing p roots r) (run : r.disconnect id child = .ok r') : Agreeing p roots r' := by
  obtain ⟨x, plan, hplan, rfl⟩ := run_disconnect.mp run
  exact ⟨(loose_of_disconnect hplan).trans h.loose, h.flag⟩

theorem cut (h : Agreeing p roots r) (run : r.cut id child = .ok r') : Agreeing p roots r' := by
  obtain ⟨x, plan, m, hplan, -, rfl⟩ := run_cut.mp run
  exact ⟨(loose_of_disconnect hplan).trans h.loose, h.flag⟩

theorem grow (h : Agreeing p roots r) (hid : id ∈ r.members) (run : grow assigned r id = .ok r') :
    Agreeing p roots r' := by
  fun_induction Round.grow assigned r id with
  | case2 r id n hn hnil =>
    cases run
    exact h
  | case3 r id n hn child hone hmember =>
    cases run
    exact h
  | case4 r id n hn child hone hmember hassigned => exact h.disconnect run
  | case7 r id n hn child hone hmember hassigned below above habove hbelow hne => exact h.cut run
  | case9 r id n hn child hone hmember hassigned below above habove hbelow heq m hm ih =>
    have hflag : p.requiresMpc id = p.requiresMpc child := by
      rw [← requiresMpc_eq_of_loose h.loose, ← requiresMpc_eq_of_loose h.loose, habove, hbelow, not_not.mp heq]
    apply ih _ (IdSet.mem_insert.mpr (.inl rfl)) run
    apply h.insert
    rw [← hflag]
    exact h.flag id hid
  | _ => cases run

theorem walk {root : NodeId} (h : Agreeing p roots r) (hroot : root ∈ roots) (run : walk assigned r root = .ok r') :
    Agreeing p roots r' :=
  grow (h.insert ⟨root, hroot, rfl⟩) (IdSet.mem_insert.mpr (.inl rfl)) run

theorem walks {l : List NodeId} (h : Agreeing p roots r) (hl : ∀ root ∈ l, root ∈ roots)
    (run : l.foldlM (Round.walk assigned) r = .ok r') : Agreeing p roots r' := by
  refine (walks_induct (motive := fun l r => Agreeing p roots r ∧ ∀ root ∈ l, root ∈ roots) ?_ ⟨h, hl⟩ run).1
  rintro root l r r' ⟨h, hl⟩ hwalk
  exact ⟨h.walk (hl root List.mem_cons_self) hwalk, fun a ha => hl a (List.mem_cons_of_mem _ ha)⟩

end Agreeing

end Round

-- ---------------------------------------------------------------------------
-- Parts
-- ---------------------------------------------------------------------------

namespace Plan

variable {p c : Plan} {assigned candidates : NodeSet} {part : Part}

/-- The backend is what each of the roots asks for. -/
theorem requiresMpc_of_backendOf {roots : List NodeId} {backend : Backend} (h : c.backendOf roots = .ok backend) :
    ∀ root ∈ roots, c.requiresMpc root = .ok (decide (backend = .mpc)) := by
  have hsame := requiresMpc_eq_of_backendOf h
  simp only [backendOf, bind_eq_ok, Round.lift_eq_ok, mapM_eq_ok, pure_eq_ok] at h
  obtain ⟨flags, hflags, h⟩ := h
  intro root hroot
  cases hflags with
  | nil => cases hroot
  | @cons first e _ _ he _ =>
    obtain ⟨n, -, flag, hflag, rfl⟩ := he
    simp only at h
    split at h
    · cases pure_eq_ok.mp h
      rw [hsame root hroot first List.mem_cons_self, hflag]
      cases flag <;> rfl
    · cases h

/-- The roots of a part are stored in the same place. -/
theorem storage_of_cutPart {root : NodeId} {rest others : List NodeId} {round : Round}
    (h : c.cutPart assigned candidates root rest = .ok (part, others, round)) :
    ∃ storage, ∀ k ∈ part.roots, ∃ n, c.nodes.get? k = some n ∧ n.rel.storage = storage := by
  simp only [cutPart, bind_eq_ok, Round.lift_eq_ok, mapM_eq_ok, pure_eq_ok, node_eq_ok,
    List.partition_eq_filter_filter] at h
  obtain ⟨n, hn, stored, hstored, _, -, backend, -, order, -, h⟩ := h
  cases h
  have hfound : ∀ e ∈ stored, ∃ m, c.nodes.get? e.1 = some m ∧ m.rel.storage = e.2 := by
    clear * - hstored
    induction hstored with
    | nil => simp
    | cons he _ ih =>
      obtain ⟨m, hm, rfl⟩ := he
      exact List.forall_mem_cons.mpr ⟨⟨m, hm, rfl⟩, ih⟩
  refine ⟨n.rel.storage, List.forall_mem_cons.mpr ⟨⟨n, hn, rfl⟩, ?_⟩⟩
  intro k hk
  obtain ⟨e, he, rfl⟩ := List.mem_map.mp hk
  obtain ⟨he, hsame⟩ := List.mem_filter.mp he
  obtain ⟨m, hm, hstorage⟩ := hfound e he
  exact ⟨m, hm, hstorage.trans (of_decide_eq_true hsame)⟩

/-- All of the part runs where it has to, and all of its roots are stored in the same place. -/
structure Uniform (p : Plan) (part : Part) : Prop where
  backend : ∀ k ∈ part.nodes, p.requiresMpc k = .ok (decide (part.backend = .mpc))
  storage : ∃ storage, ∀ k ∈ part.roots, ∃ n, p.nodes.get? k = some n ∧ n.rel.storage = storage

theorem uniform_of_cutPart {root : NodeId} {rest others : List NodeId} {round : Round} (h : c.loose = p.loose)
    (run : c.cutPart assigned candidates root rest = .ok (part, others, round)) :
    p.Uniform part ∧ round.plan.loose = p.loose := by
  obtain ⟨order, -, hwalks, hbackend, -, hnodes⟩ := run_cutPart run
  have hround := (Round.Agreeing.begin h candidates).walks (fun _ h => h) hwalks
  refine ⟨⟨?_, ?_⟩, hround.loose⟩
  · intro k hk
    rw [hnodes, List.mem_filter, decide_eq_true_iff] at hk
    obtain ⟨root, hroot, hflag⟩ := hround.flag k hk.2
    rw [← hflag, ← requiresMpc_eq_of_loose hround.loose]
    exact requiresMpc_of_backendOf hbackend root hroot
  · obtain ⟨storage, hstorage⟩ := storage_of_cutPart run
    refine ⟨storage, fun k hk => ?_⟩
    obtain ⟨n, hn, hrel⟩ := hstorage k hk
    obtain ⟨m, hm, heq⟩ := exists_of_loose h hn
    exact ⟨m, hm, by rw [heq, hrel]⟩

theorem uniform_of_cutParts {limit rounds : Nat} {roots : List NodeId} {pt : Partition} (h : c.loose = p.loose)
    (run : c.cutParts limit rounds assigned candidates roots = .ok pt) : ∀ part ∈ pt.parts, p.Uniform part := by
  refine cutParts_induct (motive := fun c _ _ _ pt => c.loose = p.loose → ∀ part ∈ pt.parts, p.Uniform part)
    (fun _ _ => by simp) (fun _ hpart ih h => ?_) run h
  obtain ⟨huniform, hloose⟩ := uniform_of_cutPart h hpart
  exact List.forall_mem_cons.mpr ⟨huniform, ih hloose⟩

/-- A node is in a part for MPC exactly when it needs MPC in the plan that was cut, and the
roots of a part are stored in the same place. -/
theorem partition_uniform {limit : Nat} {pt : Partition} (run : p.partition limit = .ok pt) :
    ∀ part ∈ pt.parts,
      (∀ k ∈ part.nodes, ∃ needs, p.requiresMpc k = .ok needs ∧ (needs = true ↔ part.backend = .mpc)) ∧
      ∀ a ∈ part.roots, ∀ b ∈ part.roots, ∃ n m, p.nodes.get? a = some n ∧ p.nodes.get? b = some m ∧
        n.rel.storage = m.rel.storage := by
  simp only [partition, bind_eq_ok] at run
  obtain ⟨roots, -, run⟩ := run
  intro part hpart
  obtain ⟨hbackend, storage, hstorage⟩ := uniform_of_cutParts rfl run part hpart
  refine ⟨fun k hk => ⟨_, hbackend k hk, decide_eq_true_iff⟩, ?_⟩
  intro a ha b hb
  obtain ⟨n, hn, hna⟩ := hstorage a ha
  obtain ⟨m, hm, hmb⟩ := hstorage b hb
  exact ⟨n, m, hn, hm, hna.trans hmb.symm⟩

/-- Here the parts are not all for one backend. -/
theorem partition_uniform_joinShared : ∃ (p : Plan) (pt : Partition), p.Rooted ∧ p.partition 100 = .ok pt ∧
    (∃ part ∈ pt.parts, part.backend = .mpc ∧ part.nodes ≠ []) ∧
    (∃ part ∈ pt.parts, part.backend = .local ∧ part.nodes ≠ []) ∧
    ∀ part ∈ pt.parts,
      (∀ k ∈ part.nodes, ∃ needs, p.requiresMpc k = .ok needs ∧ (needs = true ↔ part.backend = .mpc)) ∧
      ∀ a ∈ part.roots, ∀ b ∈ part.roots, ∃ n m, p.nodes.get? a = some n ∧ p.nodes.get? b = some m ∧
        n.rel.storage = m.rel.storage := by
  have hcuts : Workflow.cuts 100 (fun _ pt => pt.parts.any (fun part => part.backend = .mpc ∧ part.nodes ≠ []) &&
      pt.parts.any (fun part => part.backend = .local ∧ part.nodes ≠ [])) Workflow.joinShared = true := by cbv
  obtain ⟨p, q, pt, hp, run, hcut, htest⟩ := Workflow.exists_of_cuts hcuts
  simp only [Bool.and_eq_true, List.any_eq_true, decide_eq_true_eq] at htest
  have hq := (Edit.compile_serves hp.simple run).1.rooted
  exact ⟨q, pt, hq, hcut, htest.1, htest.2, partition_uniform hcut⟩

end Plan

end JointPlan
