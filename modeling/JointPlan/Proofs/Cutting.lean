import JointPlan.Partition.Cut
import JointPlan.Proofs.Traversal

/-!
# Cutting one part

Parts are cut from a plan by taking edges away, and an edge is taken away only when its
upper end joins a part. `Plan.CutFrom` relates a plan to what is left of it; whether a
node needs MPC does not depend on edges, so it stays as it was. `Round.Walking` is the
invariant of the walks that make up one part. It holds before the first part is cut, every
walk keeps it, and what it says at the end of a part is what the next one starts from.
-/

namespace JointPlan

namespace Node

/-- The node without its edges. -/
def loose (n : Node) : Node := { n with parents := ∅, children := ∅ }

end Node

namespace Plan

variable {p q c : Plan} {u v k parent child : NodeId} {n : Node}

-- ---------------------------------------------------------------------------
-- Nodes without edges
-- ---------------------------------------------------------------------------

/-- The nodes of a plan without its edges. -/
def loose (p : Plan) : Plan := ⟨p.nodes.map fun _ => Node.loose, ∅, 0⟩

theorem node_loose : p.loose.node k = Node.loose <$> p.node k := by
  simp only [node, loose, IdMap.get?_map]
  cases p.nodes.get? k <;> rfl

theorem inputRelations_loose : p.loose.inputRelations k = p.inputRelations k := by
  unfold inputRelations
  rw [node_loose]
  cases p.node k with
  | error fault => rfl
  | ok n =>
    refine mapM_congr fun u _ => ?_
    rw [node_loose]
    cases p.node u <;> rfl

/-- Whether a node needs MPC does not depend on edges. -/
theorem requiresMpc_loose : p.loose.requiresMpc k = p.requiresMpc k := by
  have hgiven (above : NodeId → Except Fault Bool) (k : NodeId) :
      p.loose.requiresMpcGiven above k = p.requiresMpcGiven above k := by
    unfold requiresMpcGiven
    rw [node_loose, inputRelations_loose]
    cases p.node k <;> rfl
  have hwithin (depth : Nat) : ∀ k, p.loose.requiresMpcWithin depth k = p.requiresMpcWithin depth k := by
    induction depth with
    | zero => exact hgiven _
    | succ depth ih =>
      intro k
      rw [requiresMpcWithin, requiresMpcWithin, funext ih]
      exact hgiven _ k
  have hsize : p.loose.size = p.size := by simp [size, loose, IdMap.size, IdMap.map]
  unfold requiresMpc
  rw [hsize, hwithin]

-- ---------------------------------------------------------------------------
-- Plans without some of their edges
-- ---------------------------------------------------------------------------

/-- The two ends of every edge agree. -/
def TwoSided (p : Plan) : Prop := ∀ u v, p.Edge u v ↔ ∃ m, p.nodes.get? v = some m ∧ u ∈ m.parents

/-- The plan `q` is left when some edges of `p` have been taken away. -/
structure CutFrom (p q : Plan) : Prop where
  loose : q.loose = p.loose
  twoSided : q.TwoSided
  sub : ∀ u v, q.Edge u v → p.Edge u v

namespace CutFrom

theorem contains (h : CutFrom p q) : q.contains k = p.contains k := by
  have hk := congrArg (fun p : Plan => (p.nodes.get? k).isSome) h.loose
  simp only [Plan.loose, IdMap.get?_map, Option.isSome_map] at hk
  exact hk

theorem requiresMpc (h : CutFrom p q) : q.requiresMpc k = p.requiresMpc k := by
  rw [← requiresMpc_loose, h.loose, requiresMpc_loose]

end CutFrom

/-- The node `k` when the edge from `parent` to `child` is gone. -/
def severed (parent child k : NodeId) (n : Node) : Node :=
  let n := if k = parent then n.dropChild child else n
  if k = child then { n with parents := n.parents.erase parent } else n

theorem get?_of_disconnect {x : Unit} (run : Edit.disconnect parent child c = .ok x q) :
    q.nodes.get? k = (c.nodes.get? k).map (severed parent child k) := by
  simp only [Edit.disconnect, run_bind, Edit.run_modifyNode, Edit.run_node] at run
  obtain ⟨-, _, ⟨m, hm, rfl⟩, -, _, ⟨n, hn, rfl⟩, _, _, ⟨-, rfl⟩, run⟩ := run
  have hq : q.nodes = ((c.set parent (m.dropChild child)).set child
      { n with parents := n.parents.erase parent }).nodes := by
    split at run
    · rw [← run_modify.mp run]
    · rw [← (run_pure.mp run).2]
  rw [hq, get?_set, get?_set]
  rw [get?_set] at hn
  unfold severed
  split_ifs at hn ⊢ <;> simp_all

theorem edge_of_disconnect {x : Unit} (run : Edit.disconnect parent child c = .ok x q) :
    q.Edge u v ↔ c.Edge u v ∧ ¬ (u = parent ∧ v = child) := by
  unfold Edge
  rw [get?_of_disconnect run]
  cases c.nodes.get? u with
  | none => simp
  | some n =>
    simp only [Option.map_some, Option.some.injEq, exists_eq_left', severed]
    split_ifs <;> simp_all [Node.dropChild]

theorem loose_of_disconnect {x : Unit} (run : Edit.disconnect parent child c = .ok x q) : q.loose = c.loose := by
  refine ext_get? (fun k => ?_) rfl rfl
  simp only [loose, IdMap.get?_map, get?_of_disconnect run, Option.map_map]
  refine congrArg (fun f => (c.nodes.get? k).map f) (funext fun n => ?_)
  simp only [Function.comp_apply, severed]
  split_ifs <;> rfl

theorem CutFrom.disconnect {x : Unit} (h : CutFrom p c) (run : Edit.disconnect parent child c = .ok x q) :
    CutFrom p q ∧ ∀ u v, q.Edge u v ↔ c.Edge u v ∧ ¬ (u = parent ∧ v = child) := by
  have hedge (u v : NodeId) := edge_of_disconnect (u := u) (v := v) run
  have hparents (u v : NodeId) : (∃ m, q.nodes.get? v = some m ∧ u ∈ m.parents) ↔
      (∃ m, c.nodes.get? v = some m ∧ u ∈ m.parents) ∧ ¬ (u = parent ∧ v = child) := by
    rw [get?_of_disconnect run]
    cases c.nodes.get? v with
    | none => simp
    | some n =>
      simp only [Option.map_some, Option.some.injEq, exists_eq_left', severed]
      split_ifs <;> simp_all [Node.dropChild]
  refine ⟨⟨?_, fun u v => ?_, fun u v huv => h.sub u v ((hedge u v).mp huv).1⟩, hedge⟩
  · rw [loose_of_disconnect run, h.loose]
  · rw [hedge, h.twoSided u v, hparents]

end Plan

-- ---------------------------------------------------------------------------
-- The walks of one part
-- ---------------------------------------------------------------------------

namespace Round

open Plan

variable {p : Plan} {assigned : NodeSet} {starts roots : List NodeId} {r r' : Round} {id child : NodeId}

theorem lift_eq_ok {α : Type} {x : Except Fault α} {a : α} : lift x = .ok a ↔ x = .ok a := by
  cases x <;> simp [lift, Except.mapError]

theorem run_disconnect : r.disconnect id child = .ok r' ↔
    ∃ x plan, Edit.disconnect id child r.plan = .ok x plan ∧ { r with plan } = r' := by
  unfold Round.disconnect
  cases Edit.disconnect id child r.plan <;> simp

theorem run_cut : r.cut id child = .ok r' ↔ ∃ x plan m, Edit.disconnect id child r.plan = .ok x plan ∧
    plan.nodes.get? child = some m ∧
      { r with plan, candidates := if m.isRoot then r.candidates.insert child else r.candidates } = r' := by
  simp only [cut, bind_eq_ok, run_disconnect, lift_eq_ok, node_eq_ok]
  constructor
  · rintro ⟨_, ⟨x, plan, hplan, rfl⟩, m, hm, run⟩
    refine ⟨x, plan, m, hplan, hm, ?_⟩
    split at run
    · rw [if_pos ‹_›]
      exact pure_eq_ok.mp run
    · rw [if_neg ‹_›]
      exact pure_eq_ok.mp run
  · rintro ⟨x, plan, m, hplan, hm, rfl⟩
    refine ⟨_, ⟨x, plan, hplan, rfl⟩, m, hm, ?_⟩
    split <;> rfl

/-- The walks of a part are made one after the other. -/
theorem walks_induct {motive : List NodeId → Round → Prop} {l : List NodeId}
    (step : ∀ {root l r r'}, motive (root :: l) r → walk assigned r root = .ok r' → motive l r')
    (h : motive l r) (run : l.foldlM (walk assigned) r = .ok r') : motive [] r' := by
  induction l generalizing r with
  | nil =>
    cases pure_eq_ok.mp run
    exact h
  | cons root l ih =>
    rw [List.foldlM_cons, bind_eq_ok] at run
    obtain ⟨r₁, hwalk, run⟩ := run
    exact ih (step h hwalk) run

/-- What holds while a part is being cut from what is left of `p`. The nodes `assigned` are in
earlier parts, the walks set out from `roots`, and `starts` are the nodes that no walk has set
out from yet. All edges of a node are there until it joins the part; the node in `pending` has
joined it, but its edge has not been looked at. -/
structure Walking (p : Plan) (assigned : NodeSet) (roots starts : List NodeId) (pending : Option NodeId)
    (r : Round) : Prop where
  cut : p.CutFrom r.plan
  whole : ∀ u v, u ∉ assigned → u ∉ r.members ∨ u ∈ pending → p.Edge u v → r.plan.Edge u v
  closed : ∀ u v, u ∈ assigned → r.plan.Edge u v → v ∈ assigned
  inside : ∀ u v, u ∈ r.members → u ∉ pending → r.plan.Edge u v → v ∈ r.members
  lost : ∀ u v, u ∈ r.members → p.Edge u v →
    r.plan.Edge u v ∨ v ∈ assigned ∨ p.requiresMpc v ≠ p.requiresMpc u
  fresh : ∀ k ∈ r.members, p.contains k = true ∧ k ∉ assigned
  ready : ∀ k, k ∈ starts ∨ k ∈ r.candidates ↔
    p.contains k = true ∧ k ∉ assigned ∧ k ∉ r.members ∧ ∀ u, ¬ r.plan.Edge u k
  nodup : starts.Nodup
  disjoint : ∀ k ∈ starts, k ∉ r.candidates
  origin : ∀ k ∈ r.members, k ∈ roots ∨
    ∃ u ∈ r.members, r.plan.Edge u k ∧ p.requiresMpc u = p.requiresMpc k
  flag : ∀ k ∈ r.members, ∃ root ∈ roots, p.requiresMpc root = p.requiresMpc k
  begun : ∀ k ∈ roots, k ∈ starts ∨ k ∈ r.members

namespace Walking

theorem perm {pending : Option NodeId} {starts' : List NodeId}
    (h : Walking p assigned roots starts pending r) (hperm : starts.Perm starts') :
    Walking p assigned roots starts' pending r :=
  { h with
    ready := fun k => by rw [← hperm.mem_iff, h.ready]
    nodup := hperm.nodup_iff.mp h.nodup
    disjoint := fun k hk => h.disjoint k (hperm.mem_iff.mpr hk)
    begun := fun k hk => (h.begun k hk).imp_left hperm.mem_iff.mp }

/-- Nothing is left to do at a node whose children are in the part. -/
theorem settle (h : Walking p assigned roots starts (some id) r)
    (hid : ∀ v, r.plan.Edge id v → v ∈ r.members) : Walking p assigned roots starts none r :=
  { h with
    whole := fun u v hu hor => h.whole u v hu (.inl (hor.resolve_right (by simp)))
    inside := fun u v hu _ huv => by
      by_cases hui : u = id
      · exact hid v (hui ▸ huv)
      · exact h.inside u v hu (by simpa using Ne.symm hui) huv }

/-- The edge out of a node is taken away, since it leads to an earlier part or out of MPC or
into it. -/
theorem sever {plan : Plan} {x : Unit} (h : Walking p assigned roots starts (some id) r)
    (hid : id ∈ r.members) (hchild : child ∉ r.members) (honly : ∀ v, r.plan.Edge id v → v = child)
    (hlost : child ∈ assigned ∨ p.requiresMpc child ≠ p.requiresMpc id)
    (run : Edit.disconnect id child r.plan = .ok x plan) (candidates : NodeSet)
    (hcandidates : ∀ k, k ∈ candidates ↔
      k ∈ r.candidates ∨ (k = child ∧ child ∉ assigned ∧ p.contains child = true ∧ ∀ u, ¬ plan.Edge u child))
    (hedge : r.plan.Edge id child) :
    Walking p assigned roots starts none { r with plan, candidates } := by
  obtain ⟨hcut, hedges⟩ := h.cut.disconnect run
  have hkept {u v : NodeId} (huv : r.plan.Edge u v) (hne : u ≠ id ∨ v ≠ child) : plan.Edge u v :=
    (hedges u v).mpr ⟨huv, fun ⟨hu, hv⟩ => hne.elim (· hu) (· hv)⟩
  have hstarts : child ∉ starts ∧ child ∉ r.candidates := by
    rw [← not_or, h.ready]
    exact fun hready => hready.2.2.2 id hedge
  refine
    { cut := hcut
      whole := fun u v hu hor huv => hkept (h.whole u v hu (.inl (hor.resolve_right (by simp))) huv)
        (.inl fun hui => hor.resolve_right (by simp) (hui ▸ hid))
      closed := fun u v hu huv => h.closed u v hu ((hedges u v).mp huv).1
      inside := fun u v hu _ huv => ?inside
      lost := fun u v hu huv => ?lost
      fresh := h.fresh
      ready := fun k => ?ready
      nodup := h.nodup
      disjoint := fun k hk => ?disjoint
      origin := fun k hk => ?origin
      flag := h.flag
      begun := h.begun }
  case inside =>
    obtain ⟨huv, hne⟩ := (hedges u v).mp huv
    have hui : u ≠ id := fun hui => hne ⟨hui, honly v (hui ▸ huv)⟩
    exact h.inside u v hu (by simpa using Ne.symm hui) huv
  case lost =>
    rcases h.lost u v hu huv with h | h
    · by_cases hne : u = id ∧ v = child
      · obtain ⟨rfl, rfl⟩ := hne
        exact .inr hlost
      · exact .inl ((hedges u v).mpr ⟨h, hne⟩)
    · exact .inr h
  case ready =>
    rw [hcandidates, ← or_assoc, h.ready]
    by_cases hk : k = child
    · subst hk
      have hnot : ¬ ∀ u, ¬ r.plan.Edge u k := fun hall => hall id hedge
      simp only [hnot, and_false, false_or, true_and, hchild, not_false_eq_true]
      tauto
    · have hsame : (∀ u, ¬ plan.Edge u k) ↔ ∀ u, ¬ r.plan.Edge u k :=
        forall_congr' fun u => not_congr ⟨fun h => ((hedges u k).mp h).1, fun h => hkept h (.inr hk)⟩
      simp only [hk, false_and, or_false, hsame]
  case disjoint =>
    rw [hcandidates, not_or]
    exact ⟨h.disjoint k hk, fun hc => hstarts.1 (hc.1 ▸ hk)⟩
  case origin =>
    refine (h.origin k hk).imp_right fun ⟨u, hu, huk, hflag⟩ => ⟨u, hu, hkept huk (.inr ?_), hflag⟩
    exact fun hkc => hchild (hkc ▸ hk)

/-- A child on the same side of MPC joins the part. -/
theorem join (h : Walking p assigned roots starts (some id) r) (hid : id ∈ r.members)
    (hedge : r.plan.Edge id child) (honly : ∀ v, r.plan.Edge id v → v = child)
    (hchild : child ∉ r.members) (hassigned : child ∉ assigned)
    (hcontains : p.contains child = true) (hflag : p.requiresMpc child = p.requiresMpc id) :
    Walking p assigned roots starts (some child) { r with members := r.members.insert child } := by
  have hwhole {v : NodeId} (huv : p.Edge child v) : r.plan.Edge child v :=
    h.whole child v hassigned (.inl hchild) huv
  refine
    { cut := h.cut
      whole := fun u v hu hor huv => ?whole
      closed := h.closed
      inside := fun u v hu hne huv => ?inside
      lost := fun u v hu huv => ?lost
      fresh := fun k hk => ?fresh
      ready := fun k => ?ready
      nodup := h.nodup
      disjoint := h.disjoint
      origin := fun k hk => ?origin
      flag := fun k hk => ?flag
      begun := fun k hk => (h.begun k hk).imp_right fun hk => IdSet.mem_insert.mpr (.inr hk) }
  case whole =>
    rcases hor with hu' | hu'
    · exact h.whole u v hu (.inl fun hmem => hu' (IdSet.mem_insert.mpr (.inr hmem))) huv
    · cases hu'
      exact hwhole huv
  case inside =>
    have hu := (IdSet.mem_insert.mp hu).resolve_left (by simpa using Ne.symm hne)
    by_cases hui : u = id
    · exact IdSet.mem_insert.mpr (.inl (honly v (hui ▸ huv)))
    · exact IdSet.mem_insert.mpr (.inr (h.inside u v hu (by simpa using Ne.symm hui) huv))
  case lost =>
    rcases IdSet.mem_insert.mp hu with rfl | hu
    · exact .inl (hwhole huv)
    · exact h.lost u v hu huv
  case fresh =>
    rcases IdSet.mem_insert.mp hk with rfl | hk
    · exact ⟨hcontains, hassigned⟩
    · exact h.fresh k hk
  case ready =>
    rw [h.ready]
    refine and_congr_right fun _ => and_congr_right fun _ => ?_
    rw [IdSet.mem_insert, not_or, and_assoc]
    refine ⟨fun ⟨hk, hnone⟩ => ⟨fun hkc => hnone id (hkc ▸ hedge), hk, hnone⟩, fun ⟨_, hk, hnone⟩ => ⟨hk, hnone⟩⟩
  case origin =>
    rcases IdSet.mem_insert.mp hk with rfl | hk
    · exact .inr ⟨id, IdSet.mem_insert.mpr (.inr hid), hedge, hflag.symm⟩
    · exact (h.origin k hk).imp_right fun ⟨u, hu, h⟩ => ⟨u, IdSet.mem_insert.mpr (.inr hu), h⟩
  case flag =>
    rcases IdSet.mem_insert.mp hk with rfl | hk
    · rw [hflag]
      exact h.flag id hid
    · exact h.flag k hk

theorem grow (h : Walking p assigned roots starts (some id) r) (hid : id ∈ r.members)
    (run : grow assigned r id = .ok r') : Walking p assigned roots starts none r' := by
  have hchildren {r : Round} {id : NodeId} {n : Node} (hn : r.plan.node id = .ok n) (v : NodeId) :
      r.plan.Edge id v ↔ v ∈ n.children.toList := by
    rw [node_eq_ok] at hn
    simp [Edge, hn]
  fun_induction Round.grow assigned r id with
  | case2 r id n hn hnil =>
    cases run
    exact h.settle fun v huv => by simp [hchildren hn, hnil] at huv
  | case3 r id n hn child hone hmember =>
    cases run
    exact h.settle fun v huv => by
      obtain rfl : v = child := by simpa [hchildren hn, hone] using huv
      exact hmember
  | case4 r id n hn child hone hmember hassigned =>
    obtain ⟨x, plan, hplan, rfl⟩ := run_disconnect.mp run
    refine h.sever hid hmember (fun v huv => ?_) (.inl hassigned) hplan r.candidates (fun k => ?_) ?_
    · simpa [hchildren hn, hone] using huv
    · simp [hassigned]
    · simp [hchildren hn, hone]
  | case7 r id n hn child hone hmember hassigned below above habove hbelow hne =>
    obtain ⟨x, plan, m, hplan, hm, rfl⟩ := run_cut.mp run
    rw [h.cut.requiresMpc] at habove hbelow
    have hcut := (h.cut.disconnect hplan).1
    have hcontains : p.contains child = true := by
      rw [← hcut.contains]
      exact contains_of_get? hm
    have hroot : m.isRoot = true ↔ ∀ u, ¬ plan.Edge u child := by
      simp [Node.isRoot, IdSet.isEmpty_iff, IdSet.ext_iff, hcut.twoSided _ child, hm]
    refine h.sever hid hmember (fun v huv => ?_) (.inr ?_) hplan _ (fun k => ?_) ?_
    · simpa [hchildren hn, hone] using huv
    · rw [habove, hbelow]
      exact fun h => hne (Except.ok.inj h)
    · rw [← hroot]
      split_ifs with hm' <;> simp [hm', hassigned, hcontains, or_comm]
    · simp [hchildren hn, hone]
  | case9 r id n hn child hone hmember hassigned below above habove hbelow heq m hm ih =>
    rw [h.cut.requiresMpc] at habove hbelow
    refine ih (h.join hid ?_ (fun v huv => ?_) hmember hassigned ?_ ?_) (IdSet.mem_insert.mpr (.inl rfl)) run
    · simp [hchildren hn, hone]
    · simpa [hchildren hn, hone] using huv
    · rw [← h.cut.contains]
      exact contains_of_get? hm
    · rw [habove, hbelow, not_not.mp heq]
  | _ => cases run

/-- A walk sets out from one of the nodes that nothing leads to. -/
theorem walk {root : NodeId} (h : Walking p assigned roots (root :: starts) none r) (hroot : root ∈ roots)
    (run : walk assigned r root = .ok r') : Walking p assigned roots starts none r' := by
  obtain ⟨hcontains, hassigned, hmember, hnone⟩ := (h.ready root).mp (.inl List.mem_cons_self)
  have hnodup := List.nodup_cons.mp h.nodup
  have hnot : root ∉ r.candidates := h.disjoint root List.mem_cons_self
  refine grow ?_ (IdSet.mem_insert.mpr (.inl rfl)) run
  have hold {u : NodeId} (hu : u ∈ r.members.insert root) (hne : u ≠ root) : u ∈ r.members :=
    (IdSet.mem_insert.mp hu).resolve_left hne
  refine
    { cut := h.cut
      whole := fun u v hu hor huv => h.whole u v hu (.inl ?whole) huv
      closed := h.closed
      inside := fun u v hu hne huv => ?inside
      lost := fun u v hu huv => ?lost
      fresh := fun k hk => ?fresh
      ready := fun k => ?ready
      nodup := hnodup.2
      disjoint := fun k hk => h.disjoint k (List.mem_cons_of_mem _ hk)
      origin := fun k hk => ?origin
      flag := fun k hk => ?flag
      begun := fun k hk => ?begun }
  case whole =>
    rcases hor with hu' | hu'
    · exact fun hmem => hu' (IdSet.mem_insert.mpr (.inr hmem))
    · cases hu'
      exact hmember
  case inside =>
    have hu := hold hu (by simpa using Ne.symm hne)
    exact IdSet.mem_insert.mpr (.inr (h.inside u v hu (by simp) huv))
  case lost =>
    rcases IdSet.mem_insert.mp hu with rfl | hu
    · exact .inl (h.whole u v hassigned (.inl hmember) huv)
    · exact h.lost u v hu huv
  case fresh =>
    rcases IdSet.mem_insert.mp hk with rfl | hk
    · exact ⟨hcontains, hassigned⟩
    · exact h.fresh k hk
  case ready =>
    have hk := h.ready k
    rw [List.mem_cons] at hk
    rw [IdSet.mem_insert]
    by_cases hkr : k = root
    · subst hkr
      simp [hnodup.1, hnot]
    · simpa [hkr] using hk
  case origin =>
    rcases IdSet.mem_insert.mp hk with rfl | hk
    · exact .inl hroot
    · exact (h.origin k hk).imp_right fun ⟨u, hu, h⟩ => ⟨u, IdSet.mem_insert.mpr (.inr hu), h⟩
  case flag =>
    rcases IdSet.mem_insert.mp hk with rfl | hk
    · exact ⟨k, hroot, rfl⟩
    · exact h.flag k hk
  case begun =>
    rw [IdSet.mem_insert]
    rcases h.begun k hk with hk | hk
    · exact (List.mem_cons.mp hk).symm.imp_right .inl
    · exact .inr (.inr hk)

theorem walks {l others : List NodeId} (h : Walking p assigned roots (l ++ others) none r)
    (hl : ∀ root ∈ l, root ∈ roots) (run : l.foldlM (Round.walk assigned) r = .ok r') :
    Walking p assigned roots others none r' := by
  refine (walks_induct (motive := fun l r => Walking p assigned roots (l ++ others) none r ∧ ∀ root ∈ l, root ∈ roots)
    ?_ ⟨h, hl⟩ run).1
  rintro root l r r' ⟨h, hl⟩ hwalk
  exact ⟨h.walk (hl root List.mem_cons_self) hwalk, fun a ha => hl a (List.mem_cons_of_mem _ ha)⟩

/-- The part is finished, and the next one can be begun. -/
theorem next {assigned' : NodeSet} (h : Walking p assigned roots starts none r)
    (hassigned : ∀ k, k ∈ assigned' ↔ k ∈ assigned ∨ k ∈ r.members) :
    Walking p assigned' [] starts none ⟨r.plan, ∅, r.candidates⟩ where
  cut := h.cut
  whole u v hu _ huv := by
    rw [hassigned, not_or] at hu
    exact h.whole u v hu.1 (.inl hu.2) huv
  closed u v hu huv := by
    rw [hassigned] at hu ⊢
    exact hu.imp (h.closed u v · huv) (h.inside u v · (by simp) huv)
  inside u v hu := (IdSet.not_mem_empty u hu).elim
  lost u v hu := (IdSet.not_mem_empty u hu).elim
  fresh k hk := (IdSet.not_mem_empty k hk).elim
  ready k := by
    rw [h.ready, hassigned]
    simp [not_or, and_assoc]
  nodup := h.nodup
  disjoint := h.disjoint
  origin k hk := (IdSet.not_mem_empty k hk).elim
  flag k hk := (IdSet.not_mem_empty k hk).elim
  begun := by simp

/-- When nothing can be begun, all nodes are in parts. -/
theorem assigned_of_contains {rank : NodeId → Nat} {k : NodeId} (hrank : ∀ u v, p.Edge u v → rank u < rank v)
    (h : Walking p assigned roots [] none ⟨r.plan, ∅, ∅⟩) (hk : p.contains k = true) : k ∈ assigned := by
  induction hr : rank k using Nat.strong_induction_on generalizing k with
  | _ i ih =>
    subst hr
    by_contra hout
    have hfed : ∃ u, r.plan.Edge u k := by
      by_contra hnone
      have := (h.ready k).mpr ⟨hk, hout, IdSet.not_mem_empty k, not_exists.mp hnone⟩
      simp at this
    obtain ⟨u, huk⟩ := hfed
    have hup := h.cut.sub u k huk
    have hu : p.contains u = true := hup.contains
    exact hout (h.closed u k (ih _ (hrank u k hup) hu rfl) huk)

end Walking

end Round

end JointPlan
