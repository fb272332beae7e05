import JointPlan.Proofs.Traversal

/-!
# Valid plans

A coherent plan is valid when one node alone has no readers and that node collects;
`Plan.EndsIn` says which node it is and for whom it collects. What coherence asks of a
plan is written down a second time, without a rank and with the roots as where
everything can be reached from, as `Plan.WellFormed`.
-/

namespace JointPlan

namespace Plan

variable {p q : Plan} {s k : NodeId} {n : Node} {recipients : PartySet}

theorem validate_eq_ok : p.validate = .ok () ↔ (∃ order, p.topSort = .ok order) ∧
    ∃ sink recipients, p.sinks = [sink] ∧ sink.op = .collect recipients := by
  have hdiscard : discard p.topSort = .ok () ↔ ∃ order, p.topSort = .ok order := by
    cases p.topSort <;> simp [discard, Functor.mapConst, Except.map]
  simp only [validate, bind_eq_ok, hdiscard]
  constructor
  · rintro ⟨_, horder, h⟩
    refine ⟨horder, ?_⟩
    split at h
    · cases h
    · rename_i sink hsink
      split at h
      · exact ⟨sink, _, hsink, ‹_›⟩
      · cases h
    · cases h
  · rintro ⟨horder, sink, recipients, hsink, hop⟩
    refine ⟨(), horder, ?_⟩
    simp only [hsink, hop]
    rfl

-- ---------------------------------------------------------------------------
-- The end of a plan
-- ---------------------------------------------------------------------------

/-- The node `s` collects for the recipients, and all other nodes have readers. -/
structure EndsIn (p : Plan) (s : NodeId) (recipients : PartySet) : Prop where
  sink : ∃ n, p.nodes.get? s = some n ∧ n.op = .collect recipients ∧ n.children = ∅
  only : ∀ k n, p.nodes.get? k = some n → n.children = ∅ → k = s

theorem EndsIn.ne_of_reader {c : NodeId} (h : p.EndsIn s recipients) (hn : p.nodes.get? k = some n)
    (hc : c ∈ n.children) : k ≠ s := by
  rintro rfl
  obtain ⟨m, hm, -, hleaf⟩ := h.sink
  cases hn.symm.trans hm
  exact IdSet.not_mem_empty c (hleaf ▸ hc)

/-- The same, seen from the readers. -/
theorem Linked.endsIn_iff (hp : p.Linked) : p.EndsIn s recipients ↔
    (∃ n, p.nodes.get? s = some n ∧ n.op = .collect recipients) ∧ (∀ v, ¬ p.Feeds s v) ∧
      ∀ k n, p.nodes.get? k = some n → k ≠ s → ∃ v, p.Feeds k v := by
  have hleaf {k : NodeId} {n : Node} (hn : p.nodes.get? k = some n) :
      n.children = ∅ ↔ ∀ v, ¬ p.Feeds k v := by
    simp [IdSet.ext_iff, ← hp.children hn]
  constructor
  · rintro ⟨⟨n, hn, hop, hempty⟩, only⟩
    refine ⟨⟨n, hn, hop⟩, (hleaf hn).mp hempty, fun k m hm hk => ?_⟩
    by_contra hnone
    exact hk (only k m hm ((hleaf hm).mpr (not_exists.mp hnone)))
  · rintro ⟨⟨n, hn, hop⟩, hempty, only⟩
    refine ⟨⟨n, hn, hop, (hleaf hn).mpr hempty⟩, fun k m hm hempty' => ?_⟩
    by_contra hk
    obtain ⟨v, hv⟩ := only k m hm hk
    exact (hleaf hm).mp hempty' v hv

theorem Linked.sinks_nodup (hp : p.Linked) : p.sinks.Nodup := by
  refine List.Nodup.filter _ (List.Nodup.filterMap (fun a b m ha hb => ?_) (IdSet.nodup_toList _))
  exact (hp.keyed ha).symm.trans (hp.keyed hb)

/-- The sinks of a plan that ends in one node. -/
theorem EndsIn.sinks_eq (h : p.EndsIn s recipients) (hp : p.Coherent) :
    ∃ n, p.sinks = [n] ∧ n.id = s ∧ n.op = .collect recipients := by
  obtain ⟨n, hn, hop, hleaf⟩ := h.sink
  have hmem (m : Node) : m ∈ p.sinks ↔ m = n := by
    rw [hp.mem_sinks, Node.isLeaf, IdSet.isEmpty_iff]
    constructor
    · rintro ⟨⟨k, hm⟩, hleaf'⟩
      obtain rfl := h.only k m hm hleaf'
      exact Option.some.inj (hm.symm.trans hn)
    · rintro rfl
      exact ⟨⟨s, hn⟩, hleaf⟩
  have hsinks : p.sinks.Perm [n] := by
    refine (List.perm_ext_iff_of_nodup hp.toLinked.sinks_nodup (List.nodup_singleton n)).mpr fun m => ?_
    rw [hmem, List.mem_singleton]
  exact ⟨n, List.perm_singleton.mp hsinks, hp.keyed hn, hop⟩

theorem EndsIn.validate (h : p.EndsIn s recipients) (hp : p.Coherent) : p.validate = .ok () := by
  obtain ⟨n, hsinks, -, hop⟩ := h.sinks_eq hp
  exact validate_eq_ok.mpr ⟨hp.exists_topSort, n, recipients, hsinks, hop⟩

theorem Coherent.endsIn_of_validate (hp : p.Coherent) (hvalid : p.validate = .ok ()) :
    ∃ s recipients, p.EndsIn s recipients := by
  obtain ⟨-, n, recipients, hsinks, hop⟩ := validate_eq_ok.mp hvalid
  obtain ⟨⟨s, hn⟩, hleaf⟩ := hp.mem_sinks.mp (show n ∈ p.sinks by simp [hsinks])
  refine ⟨s, recipients, ⟨n, hn, hop, IdSet.isEmpty_iff.mp hleaf⟩, fun k m hm hleaf' => ?_⟩
  have hmem : m ∈ p.sinks := hp.mem_sinks.mpr ⟨⟨k, hm⟩, IdSet.isEmpty_iff.mpr hleaf'⟩
  obtain rfl : m = n := by simpa [hsinks] using hmem
  exact (hp.keyed hm).symm.trans (hp.keyed hn)

theorem EndsIn.of_outline_eq (h : p.EndsIn s recipients) (heq : q.outline = p.outline) :
    q.EndsIn s recipients where
  sink := by
    obtain ⟨n, hn, hop, hleaf⟩ := h.sink
    obtain ⟨m, hm, hs⟩ := get?_of_outline_eq heq.symm hn
    refine ⟨m, hm, ?_, (Node.children_eq_of_outline_eq hs).symm.trans hleaf⟩
    exact Op.eq_of_blank_eq ((Node.blank_eq_of_outline_eq hs).symm.trans (by rw [hop])) rfl
  only k n hn hleaf := by
    obtain ⟨m, hm, hs⟩ := get?_of_outline_eq heq hn
    exact h.only k m hm ((Node.children_eq_of_outline_eq hs).symm.trans hleaf)

-- ---------------------------------------------------------------------------
-- Well-formed plans
-- ---------------------------------------------------------------------------

/-- The records of the nodes agree, nodes have the inputs that they take, and everything
comes from the sources. -/
structure WellFormed (p : Plan) : Prop where
  keyed : ∀ k n, p.nodes.get? k = some n → n.id = k ∧ k < p.nextId
  bounded : p.nextId < Word.limit
  edges : ∀ u v, (∃ n, p.nodes.get? u = some n ∧ v ∈ n.children) ↔
    ∃ m, p.nodes.get? v = some m ∧ u ∈ m.parents
  parents : ∀ k n, p.nodes.get? k = some n → ∀ u, u ∈ n.parents ↔ u ∈ n.inputs.ids
  fits : ∀ k n, p.nodes.get? k = some n → n.inputs.fits n.op.arity = true
  roots : ∀ k, k ∈ p.roots ↔ ∃ n, p.nodes.get? k = some n ∧ n.op = .create
  acyclic : ∀ k, ¬ Relation.TransGen p.Edge k k
  reachable : ∀ k n, p.nodes.get? k = some n → ∃ r ∈ p.roots, p.Reaches r k

theorem Linked.edges (hp : p.Linked) (u v : NodeId) : (∃ n, p.nodes.get? u = some n ∧ v ∈ n.children) ↔
    ∃ m, p.nodes.get? v = some m ∧ u ∈ m.parents := by
  constructor
  · rintro ⟨n, hn, hv⟩
    obtain ⟨m, hm, hu⟩ := (hp.children hn).mp hv
    exact ⟨m, hm, (hp.parents hm).mpr hu⟩
  · rintro ⟨m, hm, hu⟩
    have hfeeds := hp.feeds_of_mem_parents hm hu
    obtain ⟨n, hn⟩ := hp.closed hfeeds
    exact ⟨n, hn, (hp.children hn).mpr hfeeds⟩

theorem Coherent.wellFormed (hp : p.Coherent) : p.WellFormed where
  keyed _ _ hn := ⟨hp.keyed hn, hp.below hn⟩
  bounded := hp.bounded
  edges := hp.edges
  parents _ _ hn _ := hp.parents hn
  fits _ _ hn := hp.fits hn
  roots _ := hp.roots
  acyclic := hp.acyclic
  reachable _ _ hn := hp.reachable hn

namespace WellFormed

variable (hp : p.WellFormed)

include hp

theorem feeds_iff_edge {u v : NodeId} : p.Feeds u v ↔ p.Edge u v := by
  refine Iff.trans ?_ (hp.edges u v).symm
  constructor
  · rintro ⟨m, hm, hu⟩
    exact ⟨m, hm, (hp.parents v m hm u).mpr hu⟩
  · rintro ⟨m, hm, hu⟩
    exact ⟨m, hm, (hp.parents v m hm u).mp hu⟩

theorem coherent : p.Coherent := by
  refine
    { keyed := fun hn => (hp.keyed _ _ hn).1
      below := fun hn => (hp.keyed _ _ hn).2
      bounded := hp.bounded
      closed := fun h => ?closed
      parents := fun hn => hp.parents _ _ hn _
      children := fun {k n v} hn => ?children
      ranked := ?ranked
      fits := fun hn => hp.fits _ _ hn
      fed := fun {k n} hn hop hids => ?fed
      roots := hp.roots _ }
  case closed =>
    obtain ⟨n, hn, -⟩ := hp.feeds_iff_edge.mp h
    exact ⟨n, hn⟩
  case children =>
    rw [hp.feeds_iff_edge]
    exact ⟨fun hv => ⟨n, hn, hv⟩, fun ⟨m, hm, hv⟩ => Option.some.inj (hn.symm.trans hm) ▸ hv⟩
  case ranked =>
    obtain ⟨rank, hrank⟩ := exists_rank hp.acyclic
    exact ⟨rank, fun h => hrank _ _ (hp.feeds_iff_edge.mp h)⟩
  case fed =>
    -- a node that nothing leads to is a root
    obtain ⟨r, hr, h⟩ := hp.reachable k n hn
    rcases Relation.ReflTransGen.cases_tail h with rfl | ⟨u, -, huk⟩
    · obtain ⟨m, hm, hcreate⟩ := (hp.roots k).mp hr
      cases hn.symm.trans hm
      exact hop hcreate
    · obtain ⟨m, hm, hu⟩ := hp.feeds_iff_edge.mpr huk
      cases hn.symm.trans hm
      rw [hids] at hu
      cases hu

end WellFormed

end Plan

end JointPlan
