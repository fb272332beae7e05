import JointPlan.Proofs.Widening

/-!
# Reversible tails leave MPC

Pulling labels up past a node makes its parent the next node to leave MPC, so a chain of operators that can be
undone is to collapse in one sweep. It does when no node feeds more than one other. A node whose only child has had
its turn is not touched by the visit of any other node, unless that child has stopped to need MPC. So of the nodes
that are no stores each stops to need MPC at its own visit or never (`Pass.requiresMpc_of_steps`), and what a
visit has found to be in the way is in the way at the end.
-/

namespace JointPlan

-- ---------------------------------------------------------------------------
-- What a visit looks at
-- ---------------------------------------------------------------------------

/-- Whether an operator can be undone depends on the number of columns that it reads. -/
theorem Op.isReversible_congr {op : Op} {ins ins' : List Relation}
    (h : List.Forall₂ (fun r r' : Relation => r.columns.length = r'.columns.length) ins ins') :
    op.isReversible ins' = op.isReversible ins := by
  cases op
  case project =>
    cases h with
    | nil => rfl
    | cons hhead _ => simp only [isReversible, hhead]
  case arithmetic fn _ _ _ => cases fn <;> rfl
  all_goals rfl

namespace Plan

variable {p q : Plan} {k c u v parent : NodeId} {n m : Node}

/-- No node feeds more than one other. -/
def Unbranched (p : Plan) : Prop := ∀ k n, p.nodes.get? k = some n → n.children.size ≤ 1

theorem Unbranched.eq (h : p.Unbranched) (hp : p.Linked) (hu : p.Feeds k u) (hv : p.Feeds k v) : u = v := by
  obtain ⟨n, hn⟩ := hp.closed hu
  exact IdSet.eq_of_size_le_one (h k n hn) ((hp.children hn).mpr hu) ((hp.children hn).mpr hv)

/-- The node reads `parent` alone, and it goes by the labels of what it reads, of which there are some,
whether it needs MPC. -/
structure Heeds (p : Plan) (k parent : NodeId) : Prop where
  reader : ∃ n, p.nodes.get? k = some n ∧ n.inputs = .unary parent ∧
    n.op ≠ .opening ∧ n.op ≠ .store ∧ ∀ storage, n.op ≠ .closing storage
  labels : ∃ m, p.nodes.get? parent = some m ∧ m.rel.columns ≠ []

/-- What a node needs that is no store can be seen from it and its inputs. -/
theorem Linked.requiresMpc_congr (hp : p.Linked) (hq : q.Linked) (hn : p.nodes.get? k = some n)
    (hm : q.nodes.get? k = some m) (hop : m.op = n.op) (hstore : n.op ≠ .store) (hrel : n.op = .create → m.rel = n.rel)
    (hins : q.inputRelations k = p.inputRelations k) : q.requiresMpc k = p.requiresMpc k := by
  rw [hp.requiresMpc_eq, hq.requiresMpc_eq, requiresMpcGiven, requiresMpcGiven, node_eq_ok.mpr hn, node_eq_ok.mpr hm]
  simp only [bind, Except.bind, hop, hins]
  cases hcase : n.op
  case store => exact absurd hcase hstore
  case create => rw [hrel hcase]
  all_goals rfl

namespace Widened

theorem unbranched (h : Widened p q) (hp : p.Unbranched) : q.Unbranched := by
  intro k m hm
  obtain ⟨n, hn, hnm⟩ := h.get?_old hm
  exact hnm.children ▸ hp k n hn

theorem isReversible (h : Widened p q) {b : Bool} (hk : p.isReversible k = .ok b) : q.isReversible k = .ok b := by
  obtain ⟨n, hfound, hk⟩ := bind_eq_ok.mp hk
  obtain ⟨ins, hins, hk⟩ := bind_eq_ok.mp hk
  obtain ⟨m, hm, hnm⟩ := h.get? (node_eq_ok.mp hfound)
  obtain ⟨ins', hins', hwidened⟩ := h.inputRelations hins
  refine bind_eq_ok.mpr ⟨m, node_eq_ok.mpr hm, bind_eq_ok.mpr ⟨ins', hins', ?_⟩⟩
  rw [hnm.op, Op.isReversible_congr (hwidened.imp fun _ _ hr => hr.columns.length_eq)]
  exact hk

theorem isRoot (h : Widened p q) {b : Bool} (hk : q.isRoot k = .ok b) : p.isRoot k = .ok b := by
  obtain ⟨m, hfound, hroot⟩ := map_eq_ok.mp hk
  obtain ⟨n, hn, hnm⟩ := h.get?_old (node_eq_ok.mp hfound)
  refine map_eq_ok.mpr ⟨n, node_eq_ok.mpr hn, ?_⟩
  rw [← hroot, Node.isRoot, Node.isRoot, hnm.parents]

theorem heeds (h : Widened p q) (hk : q.Heeds k parent) : p.Heeds k parent where
  reader := by
    obtain ⟨n', hn', hin, hop⟩ := hk.reader
    obtain ⟨n, hn, hnn'⟩ := h.get?_old hn'
    rw [hnn'.inputs] at hin
    rw [hnn'.op] at hop
    exact ⟨n, hn, hin, hop⟩
  labels := by
    obtain ⟨m', hm', hne⟩ := hk.labels
    obtain ⟨m, hm, hmm'⟩ := h.get?_old hm'
    refine ⟨m, hm, fun hnil => hne ?_⟩
    have hlength := hmm'.rel.columns.length_eq
    rw [hnil] at hlength
    exact List.eq_nil_of_length_eq_zero hlength.symm

end Widened

theorem Ordered.of_append {l l' : List NodeId} (h : p.Ordered (l ++ l')) : p.Ordered l' := by
  induction l with
  | nil => exact h
  | cons a l ih => exact ih h.2.2

/-- In the reverse order the nodes that a node feeds have had their turn before it. -/
theorem Coherent.not_mem_of_feeds (hp : p.Coherent) {order front back : List NodeId} (h : p.Ordered order)
    (hsplit : order.reverse = front ++ k :: back) (hkc : p.Feeds k c) : c ∉ k :: back := by
  have horder : order = back.reverse ++ k :: front.reverse := by
    rw [← List.reverse_reverse order, hsplit]
    simp
  rw [horder] at h
  have hmem : c ∈ k :: front.reverse := hp.mem_of_feeds h.of_append List.mem_cons_self hkc
  intro hback
  have hback := (List.mem_cons.mp hback).resolve_left (hp.ne_of_feeds hkc).symm
  exact (List.nodup_append.mp h.nodup).2.2 c (List.mem_reverse.mpr hback) c hmem rfl

end Plan

namespace PushUp

open Plan Edit

variable {p q : Plan} {id parent c : NodeId} {n m : Node} {u : Unit}

/-- What a visit asks for before it widens the labels of the node and of its parent. -/
structure Eligible (p : Plan) (id parent : NodeId) : Prop where
  reads : ∃ n, p.nodes.get? id = some n ∧ n.inputs = .unary parent
  inner : p.isRoot parent = .ok false
  reversible : p.isReversible id = .ok true
  lower : p.isLowerBoundary id = .ok true

theorem Eligible.visit_eq (h : Eligible p id parent) (hp : p.Linked) (hn : p.nodes.get? id = some n)
    (hm : p.nodes.get? parent = some m) (hin : n.inputs = .unary parent) :
    visit id p = .ok () ((p.set id (loosenColumns n.rel.storage.members n)).set parent
      (loosenColumns n.rel.storage.members m)) := by
  have hne : parent ≠ id := hp.ne_of_feeds ⟨n, hn, by simp [hin]⟩
  simp only [visit, bind_of_ok (run_node.mpr ⟨hn, rfl⟩), hin]
  apply run_bind.mpr ⟨true, p, run_ask.mpr ⟨h.reversible, rfl⟩, _⟩
  apply run_bind.mpr ⟨true, p, run_ask.mpr ⟨h.lower, rfl⟩, _⟩
  apply run_bind.mpr ⟨false, p, run_ask.mpr ⟨h.inner, rfl⟩, _⟩
  apply run_bind.mpr ⟨(), _, run_modifyNode.mpr ⟨n, hn, rfl⟩, _⟩
  exact run_modifyNode.mpr ⟨m, by rw [get?_set, if_neg hne, hm], rfl⟩

/-- A node that has been loosened reads what all parties that store it hold in the clear. -/
theorem Eligible.requiresMpc (h : Eligible p id parent) (hp : p.Coherent) (hheeds : p.Heeds id parent)
    (run : visit id p = .ok u q) : q.requiresMpc id = .ok false := by
  obtain ⟨n, hn, hin, hopening, hstore, hclosing⟩ := hheeds.reader
  obtain ⟨m, hm, hcolumns⟩ := hheeds.labels
  have hq := (widened_of_visit hp run).coherent hp
  have hne : id ≠ parent := (hp.ne_of_feeds ⟨n, hn, by simp [hin]⟩).symm
  obtain ⟨hn', hm'⟩ : q.nodes.get? id = some (loosenColumns n.rel.storage.members n) ∧
      q.nodes.get? parent = some (loosenColumns n.rel.storage.members m) := by
    obtain ⟨-, rfl⟩ := EStateM.Result.ok.inj (run.symm.trans (h.visit_eq hp.toLinked hn hm hin))
    simp [get?_set, hne]
  have hins : q.inputRelations id = .ok [(loosenColumns n.rel.storage.members m).rel] := by
    apply inputRelations_eq_ok.mpr ⟨_, hn', _⟩
    simp only [loosenColumns, hin]
    exact .cons ⟨_, hm', rfl⟩ .nil
  have hlocal : Relation.requireMpc [(loosenColumns n.rel.storage.members m).rel] = false := by
    obtain ⟨a, ha⟩ := IdSet.exists_mem_of_ne_empty n.rel.storage.members_ne_empty
    rw [Relation.requireMpc_eq_false (by simp)]
    refine .inl ⟨a, fun r hr => ?_⟩
    obtain rfl := List.mem_singleton.mp hr
    simp [loosenColumns, Column.loosen, hcolumns, ha]
  have hcreate : n.op ≠ .create := Op.ne_create_of_unary (hp.arity_of_inputs hn hin)
  by_cases hinner : n.op.isInner = true
  · rw [hq.toLinked.requiresMpc_of_inner hn' hinner hcreate hins, hlocal]
  · rw [hq.toLinked.requiresMpc_eq, requiresMpcGiven, node_eq_ok.mpr hn']
    cases hop : n.op <;> simp_all [Op.isInner, loosenColumns, bind, Except.bind, pure, Except.pure]

end PushUp

namespace Pass

open Plan Edit PushUp

variable {p q : Plan} {id k c parent : NodeId} {n : Node} {l : List NodeId} {u : Unit}

/-- The visit of another node does not touch what feeds a joint computation: it is either one of several
nodes that the same node feeds, or it does not leave MPC. -/
theorem requiresMpc_of_step (hp : p.Coherent) (hsingle : p.Unbranched) (hn : p.nodes.get? c = some n)
    (hstore : n.op ≠ .store) (hne : c ≠ id) (run : pushUp.step id p = .ok u q) (hc : p.requiresMpc c = .ok true) :
    q.requiresMpc c = .ok true := by
  have hwidened := widened_of_step hp run
  obtain ⟨m, hm, hnm⟩ := hwidened.get? hn
  suffices hkept : ∀ v, p.Feeds v c → q.nodes.get? v = p.nodes.get? v by
    have hins : q.inputRelations c = p.inputRelations c :=
      Alike.inputRelations_congr hn hm hnm.inputs fun v hv => .of_eq (hkept v ⟨n, hn, hv⟩)
    have hrel (hcreate : n.op = .create) : m.rel = n.rel := by
      apply hnm.source
      have hroot := (hp.isRoot_iff hn).mpr hcreate
      exact IdSet.isEmpty_iff.mp hroot
    rw [hp.toLinked.requiresMpc_congr (hwidened.coherent hp).toLinked hn hm hnm.op hstore hrel hins, hc]
  intro v hv
  obtain ⟨-, rfl⟩ | ⟨x, hx, run⟩ := run_step.mp run
  · rfl
  simp only [pushUp] at run
  split at run
  case isFalse =>
    obtain ⟨-, rfl⟩ := run_pure.mp run
    rfl
  obtain rfl | ⟨y, parent, m, hy, hin, -, -, -, hlower, rfl⟩ := run_visit hp run
  · rfl
  have hid : v ≠ id := by
    rintro rfl
    have hfalse := ((isLowerBoundary_eq_true hy).mp hlower).2 c ((hp.children hy).mpr hv)
    rw [hc] at hfalse
    cases hfalse
  have hparent : v ≠ parent := by
    rintro rfl
    exact hne (hsingle.eq hp.toLinked hv ⟨y, hy, by simp [hin]⟩)
  rw [get?_set, if_neg hparent, get?_set, if_neg hid]

/-- Of the nodes that are no stores each stops to need MPC at its own visit or never. -/
theorem requiresMpc_of_steps (hp : p.Coherent) (hsingle : p.Unbranched) (hn : p.nodes.get? c = some n)
    (hstore : n.op ≠ .store) (hl : c ∉ l) (run : l.forM pushUp.step p = .ok u q) (hc : p.requiresMpc c = .ok true) :
    q.requiresMpc c = .ok true := by
  have hloop := forM_loop (motive := fun l r => c ∉ l ∧ p.Widened r ∧ r.requiresMpc c = .ok true)
    (fun k l r s ⟨hl, hr, hmpc⟩ hstep => ?_) ⟨hl, .refl, hc⟩ run
  · exact hloop.2.2
  obtain ⟨m, hm, hnm⟩ := hr.get? hn
  obtain ⟨hne, hl⟩ := not_or.mp fun h => hl (List.mem_cons.mpr h)
  exact ⟨hl, hr.trans (widened_of_step (hr.coherent hp) hstep),
    requiresMpc_of_step (hr.coherent hp) (hr.unbranched hsingle) hm (hnm.op ▸ hstore) hne hstep hmpc⟩

/-- A node that is loosened when its turn comes needs no MPC at the end. -/
theorem requiresMpc_of_eligible (hp : p.Coherent) (hheeds : p.Heeds k parent) (h : Eligible p k parent)
    (run : (k :: l).forM pushUp.step p = .ok u q) : q.requiresMpc k = .ok false := by
  obtain ⟨s, hstep, hrest⟩ := run_forM_cons.mp run
  obtain ⟨n, hn, hin, -⟩ := hheeds.reader
  obtain ⟨hnone, -⟩ | ⟨n', hn', hvisit⟩ := run_step.mp hstep
  · rw [hn] at hnone
    cases hnone
  cases hn.symm.trans hn'
  simp only [pushUp, hp.arity_of_inputs hn hin, if_true] at hvisit
  have hs := (widened_of_step hp hstep).coherent hp
  exact (widened_of_steps hs hrest).requiresMpc hs.toLinked (h.requiresMpc hp hheeds hvisit)

/-- A node that would be loosened at the end would have been loosened when its turn came, after all that it feeds. -/
theorem eligible_of_steps (hp : p.Coherent) (hsingle : p.Unbranched) (hl : ∀ c, p.Feeds k c → c ∉ l)
    (run : l.forM pushUp.step p = .ok u q) (h : Eligible q k parent) : Eligible p k parent := by
  have hwidened := widened_of_steps hp run
  have hq := hwidened.coherent hp
  obtain ⟨m, hm, hin⟩ := h.reads
  obtain ⟨n, hn, hnm⟩ := hwidened.get?_old hm
  obtain ⟨hmpc, hlocal⟩ := (isLowerBoundary_eq_true hm).mp h.lower
  constructor
  case reads => exact ⟨n, hn, hnm.inputs ▸ hin⟩
  case inner => exact hwidened.isRoot h.inner
  case reversible =>
    obtain ⟨b, hb⟩ := hp.toLinked.exists_isReversible hn
    rw [hb, ← hwidened.isReversible hb, h.reversible]
  case lower =>
    apply (isLowerBoundary_eq_true hn).mpr
    constructor
    · obtain ⟨b, hb⟩ := hp.toLinked.exists_requiresMpc hn
      cases b with
      | true => exact hb
      | false =>
        rw [hwidened.requiresMpc hp.toLinked hb] at hmpc
        cases hmpc
    · intro c hc
      have hkc := (hp.children hn).mp hc
      have ⟨x, hx, hmem⟩ := hkc
      obtain ⟨y, hy, hxy⟩ := hwidened.get? hx
      obtain ⟨b, hb⟩ := hp.toLinked.exists_requiresMpc hx
      cases b with
      | false => exact hb
      | true =>
        have hfalse := hlocal c (hnm.children.symm ▸ hc)
        suffices hjoint : q.requiresMpc c = .ok true by
          rw [hjoint] at hfalse
          cases hfalse
        by_cases hstore : x.op = .store
        · -- a store goes with the node that it stores
          obtain ⟨v, hv⟩ := hp.inputs_of_arity hx (by rw [hstore]; rfl)
          obtain rfl : k = v := by simpa [hv] using hmem
          rw [hq.toLinked.requiresMpc_store hy (hxy.op.trans hstore) (hxy.inputs.trans hv), hmpc]
        · exact requiresMpc_of_steps hp hsingle hx hstore (hl c hkc) run hb

/-- When no node feeds more than one other, pulling labels up leaves no node to be loosened that goes by the
labels of its input, and each such node that has been loosened needs no MPC at the end. -/
theorem pushUp_collapses (hp : p.WellFormed) (hsingle : p.Unbranched) (run : pushUp.run p = .ok () q) :
    (∀ k parent, q.Heeds k parent → ¬ Eligible q k parent) ∧
    ∀ order front back k parent s, p.topSort = .ok order → order.reverse = front ++ k :: back →
      front.forM pushUp.step p = .ok () s → s.Heeds k parent → Eligible s k parent →
      q.requiresMpc k = .ok false := by
  obtain ⟨order, r, horder, hsteps, hfinish⟩ := run_run.mp run
  obtain ⟨-, rfl⟩ := run_pure.mp hfinish
  have hcoherent := hp.coherent
  constructor
  · intro k parent hheeds heligible
    have hwidened := widened_of_steps hcoherent hsteps
    obtain ⟨m, hm, -⟩ := heligible.reads
    obtain ⟨n, hn, -⟩ := hwidened.get?_old hm
    have hmem : k ∈ order.reverse := List.mem_reverse.mpr ((hcoherent.mem_topSort horder).mpr (contains_of_get? hn))
    obtain ⟨front, back, hsplit⟩ := List.append_of_mem hmem
    rw [show pushUp.direction.arrange order = order.reverse from rfl, hsplit] at hsteps
    obtain ⟨s, hfront, hrest⟩ := run_forM_append.mp hsteps
    have hps := widened_of_steps hcoherent hfront
    have hs := hps.coherent hcoherent
    have hbefore : Eligible s k parent := by
      apply eligible_of_steps hs (hps.unbranched hsingle) _ hrest heligible
      intro c hkc
      exact hcoherent.not_mem_of_feeds (ordered_of_topSortFrom horder) hsplit (hps.sameGraph.feeds.mp hkc)
    have hlocal := requiresMpc_of_eligible hs ((widened_of_steps hs hrest).heeds hheeds) hbefore hrest
    rw [((isLowerBoundary_eq_true hm).mp heligible.lower).1] at hlocal
    cases hlocal
  · intro order' front back k parent s horder' hsplit hfront hheeds heligible
    cases horder.symm.trans horder'
    rw [show pushUp.direction.arrange order = order.reverse from rfl, hsplit] at hsteps
    obtain ⟨s', hfront', hrest⟩ := run_forM_append.mp hsteps
    obtain ⟨-, rfl⟩ := EStateM.Result.ok.inj (hfront.symm.trans hfront')
    exact requiresMpc_of_eligible ((widened_of_steps hcoherent hfront).coherent hcoherent) hheeds heligible hrest

/-- When the sort has been loosened it is the turn of the shuffle above it. -/
theorem pushUp_collapses_shuffleSort : ∃ p q s, p.WellFormed ∧ p.Unbranched ∧ pushUp.run p = .ok () q ∧
    p.topSort = .ok [0, 1, 2, 3, 4, 5] ∧ [5, 4].forM pushUp.step p = .ok () s ∧ ¬ Eligible p 3 2 ∧
    s.Heeds 3 2 ∧ Eligible s 3 2 ∧ q.requiresMpc 3 = .ok false ∧ ∀ k parent, q.Heeds k parent → ¬ Eligible q k parent := by
  have hwrites : Workflow.writesTo Workflow.shuffleSort (fun p =>
      runsTo pushUp.run p fun _ => runsTo ([5, 4].forM pushUp.step) p fun s =>
        (∀ k ∈ p.nodes.keys, (p.nodes.get? k).all fun n => n.children.size ≤ 1) ∧
        p.topSort = .ok [0, 1, 2, 3, 4, 5] ∧ p.isLowerBoundary 3 = .ok false ∧
        (s.nodes.get? 3).map (fun n => (n.inputs, n.op)) = some (.unary 2, .shuffle) ∧
        (s.nodes.get? 2).map (fun m => m.rel.columns.isEmpty) = some false ∧ s.isRoot 2 = .ok false ∧
        s.isReversible 3 = .ok true ∧ s.isLowerBoundary 3 = .ok true) = true := by cbv
  obtain ⟨p, w, hwrite, hruns⟩ := Workflow.exists_of_writesTo hwrites
  obtain ⟨q, run, hruns⟩ := exists_of_runsTo hruns
  obtain ⟨s, hsteps, htest⟩ := exists_of_runsTo hruns
  obtain ⟨hchildren, horder, hnot, hreader, hlabels, hinner, hreversible, hlower⟩ := of_decide_eq_true htest
  have hbuilt : p.Built := ⟨_, w, hwrite⟩
  have hp := hbuilt.simple.coherent.wellFormed
  have hsingle : p.Unbranched := fun k n hn => by
    simpa [hn] using hchildren k (IdMap.mem_keys_of_get? hn)
  obtain ⟨n, hn, hreader⟩ := Option.map_eq_some_iff.mp hreader
  obtain ⟨hin, hop⟩ := Prod.mk.inj hreader
  obtain ⟨m, hm, hlabels⟩ := Option.map_eq_some_iff.mp hlabels
  have hheeds : s.Heeds 3 2 := ⟨⟨n, hn, hin, by simp [hop], by simp [hop], by simp [hop]⟩, m, hm, by simpa using hlabels⟩
  have heligible : Eligible s 3 2 := ⟨⟨n, hn, hin⟩, hinner, hreversible, hlower⟩
  obtain ⟨hnone, hlocal⟩ := pushUp_collapses hp hsingle run
  refine ⟨p, q, s, hp, hsingle, run, horder, hsteps, fun h => ?_, hheeds, heligible, ?_, hnone⟩
  · rw [h.lower] at hnot
    cases hnot
  · exact hlocal _ [5, 4] [2, 1, 0] 3 2 s horder rfl hsteps hheeds heligible

end Pass

end JointPlan
