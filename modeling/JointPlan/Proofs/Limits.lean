import JointPlan.Proofs.Partitioning

/-!
# The limit on the number of parts

The limit only says when cutting is given up. Cutting is the same under every limit until then, so a plan that is
cut into some number of parts is cut into the same parts by every limit from that number on, and exceeds all
smaller ones. Every part takes at least the root it is started with from the nodes that are in no part yet. So
there are no more parts than nodes, and a limit of that size is never exceeded.
-/

namespace JointPlan

-- ---------------------------------------------------------------------------
-- Steps that know of no limit
-- ---------------------------------------------------------------------------

/-- The result is not that a limit has been exceeded. -/
def Unlimited {α : Type} (x : Except PartitionFault α) : Prop := ∀ limit, x ≠ .error (.iterationLimit limit)

namespace Unlimited

variable {α β : Type} {x : Except PartitionFault α} {f : α → Except PartitionFault β}

theorem ok {a : α} : Unlimited (.ok a) := fun _ => by simp

theorem pure {a : α} : Unlimited (pure a) := ok

theorem error {fault : PartitionFault} (h : ∀ limit, fault ≠ .iterationLimit limit) :
    Unlimited (.error fault : Except PartitionFault α) := fun limit hx => h limit (Except.error.inj hx)

theorem plan {fault : Fault} : Unlimited (.error (.plan fault) : Except PartitionFault α) := error (by simp)

theorem lift {y : Except Fault α} : Unlimited (Round.lift y) := by
  cases y with
  | ok a => exact ok
  | error fault => exact plan

theorem bind (hx : Unlimited x) (hf : ∀ a, Unlimited (f a)) : Unlimited (x >>= f) := by
  cases x with
  | ok a => exact hf a
  | error fault => exact fun limit h => hx limit (congrArg Except.error (Except.error.inj h))

/-- A limit is exceeded in the rest, if at all. -/
theorem of_bind {limit : Nat} (hx : Unlimited x) (h : (x >>= f) = .error (.iterationLimit limit)) :
    ∃ a, x = .ok a ∧ f a = .error (.iterationLimit limit) := by
  cases x with
  | ok a => exact ⟨a, rfl, h⟩
  | error fault => exact absurd (congrArg Except.error (Except.error.inj h)) (hx limit)

theorem foldlM {ι : Type} {g : α → ι → Except PartitionFault α} (hg : ∀ a i, Unlimited (g a i)) (l : List ι) (a : α) :
    Unlimited (l.foldlM g a) := by
  induction l generalizing a with
  | nil => exact pure
  | cons i l ih =>
    rw [List.foldlM_cons]
    exact bind (hg a i) ih

end Unlimited

namespace Round

variable {assigned : NodeSet} {r : Round} {id child : NodeId}

theorem unlimited_disconnect : Unlimited (r.disconnect id child) := by
  unfold disconnect
  split
  · exact .ok
  · exact .plan

theorem unlimited_cut : Unlimited (r.cut id child) := by
  refine .bind unlimited_disconnect fun r => .bind .lift fun n => ?_
  split <;> exact .pure

theorem unlimited_grow : Unlimited (grow assigned r id) := by
  fun_induction grow assigned r id with
  | case2 | case3 => exact .ok
  | case4 => exact unlimited_disconnect
  | case7 => exact unlimited_cut
  | case9 _ _ _ _ _ _ _ _ _ _ _ _ _ _ _ ih => exact ih
  | case10 => exact .error (by simp)
  | _ => exact .plan

end Round

namespace Plan

variable {p c : Plan} {assigned candidates : NodeSet} {root : NodeId} {roots rest : List NodeId}

theorem unlimited_backendOf : Unlimited (c.backendOf roots) := by
  refine .bind .lift fun flags => ?_
  split
  · exact .pure
  · split
    · exact .pure
    · exact .error (by simp)

theorem unlimited_cutPart : Unlimited (c.cutPart assigned candidates root rest) := by
  refine .bind .lift fun n => .bind .lift fun stored => .bind ?walks fun round => ?_
  case walks => exact .foldlM (fun _ _ => Round.unlimited_grow) _ _
  exact .bind unlimited_backendOf fun backend => .bind .lift fun order => .pure

theorem unlimited_nextRoots : Unlimited (c.nextRoots candidates roots) := by
  unfold nextRoots
  split
  · exact .bind .lift fun _ => .pure
  · exact .ok

-- ---------------------------------------------------------------------------
-- Another limit
-- ---------------------------------------------------------------------------

variable {limit rounds : Nat} {pt : Partition}

theorem cutParts_of_done {candidates' : NodeSet} (h : c.nextRoots candidates roots = .ok ([], candidates')) :
    c.cutParts limit rounds assigned candidates roots = .ok ⟨c, []⟩ := by
  cases rounds <;> simp only [cutParts, h] <;> rfl

theorem cutParts_zero {candidates' : NodeSet} (h : c.nextRoots candidates roots = .ok (root :: rest, candidates')) :
    c.cutParts limit 0 assigned candidates roots = .error (.iterationLimit limit) := by
  simp only [cutParts, h]
  rfl

theorem cutParts_succ {candidates' : NodeSet} {part : Part} {others : List NodeId} {round : Round}
    (h : c.nextRoots candidates roots = .ok (root :: rest, candidates'))
    (hpart : c.cutPart assigned candidates' root rest = .ok (part, others, round)) :
    c.cutParts limit (rounds + 1) assigned candidates roots = (do
      let tail ← round.plan.cutParts limit rounds (assigned.insertAll part.nodes) round.candidates others
      return { tail with parts := part :: tail.parts }) := by
  rw [cutParts, h]
  change (c.cutPart assigned candidates' root rest >>= _) = _
  rw [hpart]
  rfl

/-- As many rounds as there are parts are enough, and fewer are not. -/
theorem cutParts_threshold (run : c.cutParts limit rounds assigned candidates roots = .ok pt) (limit' rounds' : Nat) :
    c.cutParts limit' rounds' assigned candidates roots =
      if pt.parts.length ≤ rounds' then .ok pt else .error (.iterationLimit limit') := by
  refine cutParts_induct (motive := fun c assigned candidates roots pt => ∀ rounds',
    c.cutParts limit' rounds' assigned candidates roots =
      if pt.parts.length ≤ rounds' then .ok pt else .error (.iterationLimit limit'))
    (fun hnext rounds' => ?done) (fun hnext hpart ih rounds' => ?step) run rounds'
  case done => exact cutParts_of_done hnext
  case step =>
    cases rounds' with
    | zero => exact cutParts_zero hnext
    | succ rounds' =>
      rw [cutParts_succ hnext hpart, ih rounds']
      simp only [List.length_cons, Nat.add_le_add_iff_right]
      split <;> rfl

-- ---------------------------------------------------------------------------
-- Enough parts for all nodes
-- ---------------------------------------------------------------------------

theorem unseen_insertAll_lt {k : NodeId} {l : List NodeId} (hk : p.contains k = true) (hout : k ∉ assigned) (hl : k ∈ l) :
    p.nodes.unseen (assigned.insertAll l) < p.nodes.unseen assigned := by
  obtain ⟨n, hn⟩ := Option.isSome_iff_exists.mp hk
  refine Nat.lt_of_le_of_lt ?_ (IdMap.unseen_insert_lt hn hout)
  refine (List.monotone_filter_right _ fun a ha => ?_).length_le
  have hsub : a ∈ assigned.insert k → a ∈ assigned.insertAll l := by
    rw [IdSet.mem_insert, IdSet.mem_insertAll]
    rintro (rfl | ha)
    · exact .inr hl
    · exact .inl ha
  simpa using mt hsub (by simpa using ha)

theorem mem_roots_of_cutPart {part : Part} {others : List NodeId} {round : Round}
    (run : c.cutPart assigned candidates root rest = .ok (part, others, round)) : root ∈ part.roots := by
  simp only [cutPart, bind_eq_ok, pure_eq_ok] at run
  obtain ⟨n, -, stored, -, grown, -, backend, -, order, -, hpart⟩ := run
  cases hpart
  exact List.mem_cons_self

/-- When the rounds are used up there have been as many parts, each with a node of its own, and one more node is left. -/
theorem lt_unseen_of_cutParts_error {rank : NodeId → Nat} {limit' : Nat} (hrank : ∀ u v, p.Edge u v → rank u < rank v)
    (h : Round.Walking p assigned [] roots none ⟨c, ∅, candidates⟩)
    (run : c.cutParts limit rounds assigned candidates roots = .error (.iterationLimit limit')) :
    rounds < p.nodes.unseen assigned := by
  induction rounds generalizing c assigned candidates roots with
  | zero =>
    obtain ⟨⟨roots', candidates'⟩, hnext, run⟩ := unlimited_nextRoots.of_bind run
    cases roots' with
    | nil => cases run
    | cons root rest =>
      obtain ⟨hroot, hfresh, -⟩ := ((walking_nextRoots h hnext).1.ready root).mp (.inl List.mem_cons_self)
      exact Nat.zero_lt_of_lt (unseen_insertAll_lt (l := [root]) hroot hfresh List.mem_cons_self)
  | succ rounds ih =>
    obtain ⟨⟨roots', candidates'⟩, hnext, run⟩ := unlimited_nextRoots.of_bind run
    cases roots' with
    | nil => cases run
    | cons root rest =>
      obtain ⟨⟨part, others, round⟩, hpart, run⟩ := unlimited_cutPart.of_bind run
      have htail : round.plan.cutParts limit rounds (assigned.insertAll part.nodes) round.candidates others =
          .error (.iterationLimit limit') := by
        cases htail : round.plan.cutParts limit rounds (assigned.insertAll part.nodes) round.candidates others with
        | error fault =>
          simp only [htail] at run
          exact congrArg Except.error (Except.error.inj run)
        | ok tail =>
          simp only [htail] at run
          cases run
      obtain ⟨hfollows, hwalking⟩ := follows_of_cutPart hrank (walking_nextRoots h hnext).1 hpart
      have hroot := hfollows.roots root (mem_roots_of_cutPart hpart)
      obtain ⟨hcontains, hfresh⟩ := hfollows.fresh root hroot
      exact Nat.lt_of_le_of_lt (ih hwalking htail) (unseen_insertAll_lt hcontains hfresh hroot)

theorem unseen_empty : p.nodes.unseen ∅ = p.size := by
  simp [IdMap.unseen, IdMap.keys, size, IdMap.size]

/-- A limit of the number of nodes is never exceeded. If a plan can be cut under some limit, the number of its parts is the
smallest limit under which it can, and the result is the same under all of them. -/
theorem Rooted.partition_threshold (hp : p.Rooted) :
    (∀ m, p.size ≤ m → ∀ limit, p.partition m ≠ .error (.iterationLimit limit)) ∧
    ∀ m pt, p.partition m = .ok pt → pt.parts.length ≤ m ∧
      (∀ m', pt.parts.length ≤ m' → p.partition m' = .ok pt) ∧
      ∀ m', m' < pt.parts.length → p.partition m' = .error (.iterationLimit m') := by
  refine ⟨fun m hm limit run => ?enough, fun m pt run => ?threshold⟩
  case enough =>
    obtain ⟨roots, hroots, run⟩ := Unlimited.lift.of_bind run
    obtain ⟨rank, hrank⟩ := exists_rank hp.acyclic
    have hlt := lt_unseen_of_cutParts_error hrank (hp.walking (Round.lift_eq_ok.mp hroots)) run
    rw [unseen_empty] at hlt
    exact Nat.not_lt.mpr hm hlt
  case threshold =>
    have hrun (m' : Nat) : p.partition m' = if pt.parts.length ≤ m' then .ok pt else .error (.iterationLimit m') := by
      obtain ⟨roots, hroots, run⟩ := bind_eq_ok.mp run
      rw [partition, hroots]
      exact cutParts_threshold run m' m'
    refine ⟨?_, fun m' hm' => ?_, fun m' hm' => ?_⟩
    · by_contra hlt
      rw [hrun m, if_neg hlt] at run
      cases run
    · rw [hrun, if_pos hm']
    · rw [hrun, if_neg (Nat.not_le.mpr hm')]

-- ---------------------------------------------------------------------------
-- Instances
-- ---------------------------------------------------------------------------

/-- There are more than two parts, so two are not enough. -/
theorem Rooted.partition_threshold_joinShared : ∃ (p : Plan) (pt : Partition), p.Rooted ∧ p.partition 100 = .ok pt ∧
    2 < pt.parts.length ∧ pt.parts.length ≤ 100 ∧ p.partition pt.parts.length = .ok pt ∧
    p.partition 2 = .error (.iterationLimit 2) ∧ p.partition p.size ≠ .error (.iterationLimit p.size) := by
  obtain ⟨p, q, pt, hp, run, hcut, htest⟩ := Workflow.exists_of_cuts Workflow.cuts_joinShared
  have hq := (Edit.compile_serves hp.simple run).1.rooted
  have hparts : 2 < pt.parts.length := by
    simp only [Workflow.lateInput, Bool.and_eq_true, Option.any_eq_true] at htest
    obtain ⟨-, -, b, hb, -⟩ := htest
    exact (List.getElem?_eq_some_iff.mp hb).1
  obtain ⟨henough, hexact⟩ := hq.partition_threshold
  obtain ⟨hle, hsame, hexceeds⟩ := hexact 100 pt hcut
  exact ⟨q, pt, hq, hcut, hparts, hle, hsame _ le_rfl, hexceeds 2 hparts, henough _ le_rfl _⟩

end Plan

end JointPlan
