import JointPlan.Proofs.Equivariance

/-!
# Passes under other numbers

The passes do the same to a plan under other numbers. Besides what `Edit.Equivariant` asks for, this needs that
lookups at the border of MPC do not fail, which they do not in a coherent plan, and that the numbers of old
nodes rise along edges both before and after they are permuted. The first numbers that a plan gives out rise
along its edges, and no pass puts in an edge between two old nodes that were not connected before.
-/

namespace JointPlan

namespace Plan

variable {a p q : Plan} {σ : Equiv.Perm NodeId} {u v X : NodeId}

-- ---------------------------------------------------------------------------
-- Edges between old nodes
-- ---------------------------------------------------------------------------

/-- The numbers of the nodes of `a` rise along edges, under both numberings. -/
def Rising (a : Plan) (σ : Equiv.Perm NodeId) (p : Plan) : Prop :=
  ∀ u v, u < a.nextId → v < a.nextId → p.Feeds u v → u < v ∧ σ u < σ v

namespace Rising

theorem agrees (h : Rising a σ p) (hσ : a.Renumbers σ) : p.Agrees σ := by
  intro u v huv
  by_cases hu : u < a.nextId <;> by_cases hv : v < a.nextId
  · obtain ⟨hlt, hlt'⟩ := h u v hu hv huv
    exact iff_of_true hlt hlt'
  · have hv := Nat.not_lt.mp hv
    rw [hσ.fixed hv]
    exact iff_of_true (hu.trans_le hv) ((hσ.below.mpr hu).trans_le hv)
  · have hu := Nat.not_lt.mp hu
    rw [hσ.fixed hu]
    exact iff_of_false (Nat.not_lt.mpr (hv.trans_le hu).le) (Nat.not_lt.mpr ((hσ.below.mpr hv).trans_le hu).le)
  · rw [hσ.fixed (Nat.not_lt.mp hu), hσ.fixed (Nat.not_lt.mp hv)]

theorem of_feeds (h : Rising a σ p) (hfeeds : ∀ u v, u < a.nextId → v < a.nextId → q.Feeds u v → p.Feeds u v) :
    Rising a σ q := fun u v hu hv huv => h u v hu hv (hfeeds u v hu hv huv)

theorem of_outline_eq (h : Rising a σ p) (heq : q.outline = p.outline) : Rising a σ q :=
  h.of_feeds fun _ _ _ _ => (SameGraph.of_outline_eq heq).feeds.mp

end Rising

theorem Spliced.rising {parent : NodeId} {cs : NodeSet} {op : Op} {rel : Relation} (hs : p.Spliced parent cs op rel q)
    (hnext : a.nextId ≤ p.nextId) (h : Rising a σ p) : Rising a σ q := by
  refine h.of_feeds fun u v hu hv huv => ?_
  rw [(SameGraph.of_outline_eq hs.outline).feeds, feeds_splice, if_neg (hv.trans_le hnext).ne] at huv
  split at huv
  · exact (huv.resolve_left fun hnew => (hu.trans_le hnext).ne hnew.1).2
  · exact huv

theorem Reworked.rising {K : Op → Prop} (hr : Reworked K p q) (hnext : a.nextId ≤ p.nextId) (h : Rising a σ p) :
    a.nextId ≤ q.nextId ∧ Rising a σ q := by
  induction hr with
  | refl => exact ⟨hnext, h⟩
  | derived _ hrenewed ih =>
    exact ⟨ih.1.trans (nextId_eq_of_outline_eq hrenewed.outline).ge, ih.2.of_outline_eq hrenewed.outline⟩
  | inserted _ _ hinserted ih =>
    obtain ⟨rel, spliced⟩ := hinserted.spliced
    exact ⟨ih.1.trans (spliced.nextId_eq ▸ Nat.le_succ _), spliced.rising ih.1 ih.2⟩

theorem Forked.rising {id child : NodeId} {n : Node} {rel : Relation} (hf : p.Forked id child n rel q)
    (hnext : a.nextId ≤ p.nextId) (h : Rising a σ p) : Rising a σ q := by
  refine h.of_feeds fun u v hu hv huv => ?_
  rw [(SameGraph.of_outline_eq hf.outline).feeds, feeds_forked, if_neg (hv.trans_le hnext).ne] at huv
  split at huv
  · exact (huv.resolve_left fun hnew => (hu.trans_le hnext).ne hnew.1).2
  · exact huv

theorem Exchanged.rising {x : Node} {part : Op} (he : p.Exchanged X x part q) (h : Rising a σ p) : Rising a σ q :=
  h.of_feeds fun u v _ _ huv => by
    rwa [(SameGraph.of_outline_eq he.outline).feeds, feeds_set_op he.node] at huv

theorem Appended.rising {ops : List Op} (happ : p.Appended X ops q) (hnext : a.nextId ≤ p.nextId) (h : Rising a σ p) :
    a.nextId ≤ q.nextId ∧ Rising a σ q := by
  induction happ with
  | nil => exact ⟨hnext, h⟩
  | cons _ first _ ih => exact ih (hnext.trans (first.nextId_eq ▸ Nat.le_succ _)) (first.rising hnext h)

/-- What the moved node was between is connected now. -/
theorem Pushed.rising {top bottom : NodeId} {t b : Node} (hpush : p.Pushed top bottom t b q) (hp : p.Coherent)
    (hnext : a.nextId ≤ p.nextId) (hbottom : bottom < a.nextId) (h : Rising a σ p) : Rising a σ q := by
  intro u v hu hv huv
  have hfed : p.Feeds top bottom := ⟨b, hpush.lower, by simp [hpush.fed]⟩
  rw [(SameGraph.of_outline_eq hpush.outline).feeds, feeds_pushed hp.toLinked hpush.upper] at huv
  split_ifs at huv with hnew hb ht hc
  · exact absurd hnew (Nat.not_le.mpr (hv.trans_le hnext))
  · exact absurd huv.1 (Nat.not_le.mpr (hu.trans_le hnext))
  · rcases huv with ⟨rfl, hbv⟩ | ⟨-, huv⟩
    · obtain ⟨hub, hub'⟩ := h u bottom hu hbottom hfed
      obtain ⟨hbv, hbv'⟩ := h bottom v hbottom hv hbv
      exact ⟨hub.trans hbv, hub'.trans hbv'⟩
    · exact h u v hu hv huv
  · exact h u v hu hv huv

/-- What is kept from visit to visit. -/
structure Tracks (a : Plan) (σ : Equiv.Perm NodeId) (p : Plan) : Prop extends p.Orderly where
  descends : Descends a p
  rising : Rising a σ p

theorem Tracks.reworked {K : Op → Prop} (h : Tracks a σ p) (hr : Reworked K p q) (hq : Descends a q) :
    Tracks a σ q where
  toOrderly := h.toOrderly.reworked hr
  descends := hq
  rising := (hr.rising h.descends.next h.rising).2

end Plan

theorem PushDown.Visited.rising {a p q : Plan} {σ : Equiv.Perm NodeId} {X : NodeId} {x : Node} (hv : Visited p X x q)
    (hp : p.Coherent) (hx : p.nodes.get? X = some x) (hnext : a.nextId ≤ p.nextId) (hX : X < a.nextId)
    (h : Plan.Rising a σ p) : Plan.Rising a σ q := by
  cases hv with
  | skipped same => exact same ▸ h
  | distributed hd =>
    have hexchanged := hd.toExchanged
    obtain ⟨hnext', hrising⟩ := hd.appended.rising (hexchanged.nextId_eq.symm ▸ hnext) (hexchanged.rising h)
    exact hd.pushed.rising (hd.coherent₂ hp) hnext' hX hrising
  | copied _ _ run =>
    exact (forkNode_forks (motive := fun r => a.nextId ≤ r.nextId ∧ Plan.Rising a σ r) hp hx ⟨hnext, h⟩
      (fun _ forked h => ⟨h.1.trans (forked.nextId_eq ▸ Nat.le_succ _), forked.rising h.1 h.2⟩) run).2

-- ---------------------------------------------------------------------------
-- Visits of the boundary passes
-- ---------------------------------------------------------------------------

namespace Boundary

open Plan Edit

variable {a p q : Plan} {σ : Equiv.Perm NodeId} {X parent child : NodeId} {n : Node} {u : Unit}

theorem firsts_map {ids : List NodeId} : firsts (ids.map σ) = (firsts ids).map σ := by
  have hfold (acc : List NodeId) : (ids.map σ).foldl (fun acc id => if id ∈ acc then acc else acc ++ [id]) (acc.map σ) =
      (ids.foldl (fun acc id => if id ∈ acc then acc else acc ++ [id]) acc).map σ := by
    induction ids generalizing acc with
    | nil => rfl
    | cons id ids ih =>
      rw [List.map_cons, List.foldl_cons, List.foldl_cons, ← ih]
      by_cases hid : id ∈ acc
      · simp [hid]
      · simp [hid]
  exact hfold []

theorem equivariant_orphanAfter {op : Op} {ending : String} (hσ : a.Renumbers σ) :
    Equivariant a σ σ (orphanAfter X op ending) (orphanAfter (σ X) op ending) := .bind .node fun _ => .addOrphan hσ

theorem equivariant_requiresMpc :
    Equivariant a σ id (ask fun p => p.requiresMpc X) (ask fun p => p.requiresMpc (σ X)) :=
  .ask fun _ _ _ => requiresMpc_permute

theorem equivariant_arrivesShared {shared : Storage} :
    Equivariant a σ id (arrivesShared shared parent) (arrivesShared shared (σ parent)) :=
  .bind .node fun n => by
    rw [Node.permute_op, Node.permute_rel]
    cases n.op
    case closing storage => exact .ite Iff.rfl .pure (.ite Iff.rfl equivariant_requiresMpc .pure)
    all_goals exact .ite Iff.rfl equivariant_requiresMpc .pure

theorem equivariant_closeInput {shared : Storage} (hσ : a.Renumbers σ) :
    Equivariant a σ id (closeInput X shared parent) (closeInput (σ X) shared (σ parent)) :=
  .bind equivariant_arrivesShared fun _ => .ite Iff.rfl
    (.bind (equivariant_orphanAfter hσ) fun _ => .insertBetween) .pure

theorem equivariant_closeInputs (hσ : a.Renumbers σ) : Equivariant a σ id (closeInputs X) (closeInputs (σ X)) :=
  .bind .refreshStorage fun _ => .bind equivariant_requiresMpc fun _ => .ite Iff.rfl (.bind .node fun n => by
    rw [Node.permute_rel, show (n.permute σ).inputs = n.inputs.map σ from rfl, Inputs.ids_map, firsts_map]
    exact .forM fun _ _ => equivariant_closeInput hσ) .pure

theorem equivariant_visitClose {op : Op} (hσ : a.Renumbers σ) :
    Equivariant a σ id (visitClose X op) (visitClose (σ X) op) := by
  unfold visitClose
  cases op.arity
  case nullary => exact .pure
  case unary => exact .refreshStorage
  all_goals exact equivariant_closeInputs hσ

theorem equivariant_insertRead {position : Nat} (hσ : a.Renumbers σ) :
    Equivariant a σ id (insertRead parent child position) (insertRead (σ parent) (σ child) position) :=
  .bind (equivariant_orphanAfter hσ) fun _ => .insertBetween

theorem equivariant_readChildren (hσ : a.Renumbers σ) :
    Equivariant a σ id (readChildren parent) (readChildren (σ parent)) :=
  .bind (.ask fun _ _ hp => hσ.sortedChildren_permute hp) fun children => by
    rw [List.zipIdx_map]
    exact .forM fun _ _ => .bind .node fun _ => .ite Iff.rfl (equivariant_insertRead hσ) .pure

theorem equivariant_readAfterOpening (hσ : a.Renumbers σ) :
    Equivariant a σ id (readAfterOpening X) (readAfterOpening (σ X)) :=
  .bind (.ask fun _ _ hp => hσ.sortedChildren_permute hp) fun children => by
    rw [List.zipIdx_map]
    refine .forM fun _ _ => .bind .node fun n => ?_
    rw [Node.permute_op]
    cases n.op
    case read => exact .pure
    case store => exact equivariant_readChildren hσ
    all_goals exact equivariant_insertRead hσ

theorem equivariant_feedsOneStore (hσ : a.Renumbers σ) : Equivariant a σ id (feedsOneStore X) (feedsOneStore (σ X)) :=
  .bind .node fun _ => .ite (by simp [Node.permute]) .pure
    (.bind (.ask fun _ _ hp => hσ.sortedChildren_permute hp) fun children => by
    rcases children with _ | ⟨only, _ | ⟨second, rest⟩⟩
    · exact .pure
    · exact .bind .node fun _ => .pure
    · exact .pure)

theorem equivariant_storeBeforeClosing (hσ : a.Renumbers σ) :
    Equivariant a σ id (storeBeforeClosing X) (storeBeforeClosing (σ X)) :=
  .bind .node fun n => by
    cases hin : n.inputs <;> simp only [Node.permute, hin, Inputs.map]
    case unary parent =>
      exact .bind .node fun _ => .ite Iff.rfl (.bind (equivariant_orphanAfter hσ) fun _ => .insertBetween) .pure
    all_goals exact .throw

/-- A node is put in behind all readers. -/
theorem insertBehind_permute {op : Op} {ending : String} (hσ : a.Renumbers σ) (hp : Descends a p)
    (run : (do let new ← orphanAfter X op ending; insertAfterAll X new : Edit Unit) p = .ok u q)
    (hq : q.Agrees σ) : Descends a q ∧
      (do let new ← orphanAfter (σ X) op ending; insertAfterAll (σ X) new : Edit Unit) (p.permute σ) =
        .ok () (q.permute σ) := by
  obtain ⟨new, r, horphan, hinsert⟩ := run_bind.mp run
  obtain ⟨hr, horphan'⟩ := (equivariant_orphanAfter hσ).run hp horphan
  obtain ⟨hdq, hinsert'⟩ := insertAfterAll_permute hr hinsert hq
  exact ⟨hdq, (bind_of_ok horphan').trans hinsert'⟩

theorem openOutput_permute (hσ : a.Renumbers σ) (hc : p.Coherent) (hp : Descends a p) (hn : p.nodes.get? X = some n)
    (run : openOutput X p = .ok u q) (hq : q.Agrees σ) :
    Descends a q ∧ openOutput (σ X) (p.permute σ) = .ok () (q.permute σ) := by
  obtain ⟨leaf, _, asked, run⟩ := run_bind.mp run
  obtain ⟨hleaf, rfl⟩ := run_ask.mp asked
  rw [openOutput, bind_of_ok (run_ask.mpr ⟨isLeaf_permute hleaf, rfl⟩)]
  cases leaf with
  | true =>
    obtain ⟨rfl, rfl⟩ := run_pure.mp run
    exact ⟨hp, rfl⟩
  | false =>
    obtain ⟨lower, _, asked, run⟩ := run_bind.mp run
    obtain ⟨hlower, rfl⟩ := run_ask.mp asked
    rw [Bool.not_false, if_pos rfl, bind_of_ok (run_ask.mpr ⟨hc.isLowerBoundary_permute hn hlower, rfl⟩)]
    cases lower with
    | false =>
      obtain ⟨rfl, rfl⟩ := run_pure.mp run
      exact ⟨hp, rfl⟩
    | true => exact insertBehind_permute hσ hp run hq

theorem storeAfterOpening_permute (hσ : a.Renumbers σ) (hc : p.Coherent) (hp : Descends a p)
    (run : storeAfterOpening X p = .ok u q) (hq : q.Agrees σ) :
    Descends a q ∧ storeAfterOpening (σ X) (p.permute σ) = .ok () (q.permute σ) := by
  obtain ⟨n, _, asked, run⟩ := run_bind.mp run
  obtain ⟨hn, rfl⟩ := run_node.mp asked
  rw [storeAfterOpening, bind_of_ok (run_node.mpr ⟨get?_permute_of hn, rfl⟩), Node.permute_isLeaf]
  cases hleaf : n.isLeaf with
  | true =>
    rw [hleaf] at run
    obtain ⟨rfl, rfl⟩ := run_pure.mp run
    exact ⟨hp, rfl⟩
  | false =>
    rw [hleaf] at run
    obtain ⟨stored, r, hstored, run⟩ := run_bind.mp run
    obtain ⟨rfl, -⟩ := run_feedsOneStore hc hn hstored
    rw [Bool.not_false, if_pos rfl, bind_of_ok ((equivariant_feedsOneStore hσ).run hp hstored).2]
    cases stored with
    | true =>
      obtain ⟨rfl, rfl⟩ := run_pure.mp run
      exact ⟨hp, rfl⟩
    | false => exact insertBehind_permute hσ hp run hq

end Boundary

-- ---------------------------------------------------------------------------
-- Visits of the optimizing passes
-- ---------------------------------------------------------------------------

theorem PushUp.visit_permute {a p q : Plan} {σ : Equiv.Perm NodeId} {X : NodeId} {u : Unit} (hc : p.Coherent)
    (hp : Plan.Descends a p) (run : visit X p = .ok u q) :
    Plan.Descends a q ∧ visit (σ X) (p.permute σ) = .ok () (q.permute σ) := by
  have hstays (run : (pure () : Edit Unit) p = .ok u q) :
      Plan.Descends a q ∧ (pure () : Edit Unit) (p.permute σ) = .ok () (q.permute σ) := by
    obtain ⟨-, rfl⟩ := run_pure.mp run
    exact ⟨hp, rfl⟩
  have hloosens (members : PartySet) {k : NodeId} : Edit.Equivariant a σ id (Edit.modifyNode k (loosenColumns members))
      (Edit.modifyNode (σ k) (loosenColumns members)) := .modifyNode (fun _ => rfl) (fun _ => rfl) fun _ => rfl
  have hboth (members : PartySet) {parent : NodeId} : Edit.Equivariant a σ id
      (do Edit.modifyNode X (loosenColumns members); Edit.modifyNode parent (loosenColumns members))
      (do Edit.modifyNode (σ X) (loosenColumns members); Edit.modifyNode (σ parent) (loosenColumns members)) :=
    .bind (hloosens members) fun _ => hloosens members
  obtain ⟨n, _, asked, run⟩ := run_bind.mp run
  obtain ⟨hn, rfl⟩ := Edit.run_node.mp asked
  rw [visit, bind_of_ok (Edit.run_node.mpr ⟨Plan.get?_permute_of hn, rfl⟩)]
  cases hin : n.inputs <;> simp only [Node.permute, hin, Inputs.map] at run ⊢
  case unary parent =>
    obtain ⟨reversible, _, asked, run⟩ := run_bind.mp run
    obtain ⟨hreversible, rfl⟩ := Edit.run_ask.mp asked
    rw [bind_of_ok (Edit.run_ask.mpr ⟨Plan.isReversible_permute hreversible, rfl⟩)]
    cases reversible with
    | false => exact hstays run
    | true =>
      obtain ⟨lower, _, asked, run⟩ := run_bind.mp run
      obtain ⟨hlower, rfl⟩ := Edit.run_ask.mp asked
      rw [if_pos rfl, bind_of_ok (Edit.run_ask.mpr ⟨hc.isLowerBoundary_permute hn hlower, rfl⟩)]
      cases lower with
      | false => exact hstays run
      | true =>
        obtain ⟨root, _, asked, run⟩ := run_bind.mp run
        obtain ⟨hroot, rfl⟩ := Edit.run_ask.mp asked
        rw [if_pos rfl, bind_of_ok (Edit.run_ask.mpr ⟨Plan.isRoot_permute hroot, rfl⟩)]
        cases root with
        | true => exact hstays run
        | false => exact (hboth _).run hp run
  all_goals exact hstays run

namespace PushDown

open Plan Edit

variable {a p q : Plan} {σ : Equiv.Perm NodeId} {X : NodeId} {x : Node} {u : Unit}

theorem boundaryConcat?_permute {concat? : Option NodeId} (hc : p.Coherent)
    (run : boundaryConcat? X p = .ok concat? q) :
    boundaryConcat? (σ X) (p.permute σ) = .ok (concat?.map σ) (p.permute σ) := by
  have hnone (run : (pure none : Edit (Option NodeId)) p = .ok concat? q) :
      (pure none : Edit (Option NodeId)) (p.permute σ) = .ok (concat?.map σ) (p.permute σ) := by
    obtain ⟨rfl, -⟩ := run_pure.mp run
    rfl
  obtain ⟨n, _, asked, run⟩ := run_bind.mp run
  obtain ⟨hn, rfl⟩ := run_node.mp asked
  rw [boundaryConcat?, bind_of_ok (run_node.mpr ⟨get?_permute_of hn, rfl⟩)]
  cases hin : n.inputs <;> simp only [Node.permute, hin, Inputs.map, IdSet.size_permute] at run ⊢
  case unary parent =>
    split at run
    case isTrue hsize => rw [if_pos hsize]; exact hnone run
    case isFalse hsize =>
      obtain ⟨t, _, asked, run⟩ := run_bind.mp run
      obtain ⟨ht, rfl⟩ := run_node.mp asked
      rw [if_neg hsize, bind_of_ok (run_node.mpr ⟨get?_permute_of ht, rfl⟩), Node.permute_op]
      split at run
      case isTrue hop => rw [if_pos hop]; exact hnone run
      case isFalse hop =>
        obtain ⟨enters, _, asked, run⟩ := run_bind.mp run
        obtain ⟨henters, rfl⟩ := run_ask.mp asked
        obtain ⟨rfl, -⟩ := run_pure.mp run
        rw [if_neg hop, bind_of_ok (run_ask.mpr ⟨hc.isUpperBoundary_permute ht henters, rfl⟩)]
        cases enters <;> rfl
  all_goals exact hnone run

theorem replaceOp_permute {part : Op} (h : Tracks a σ p) (hx : p.nodes.get? X = some x) (harity : x.op.arity = .unary)
    (hsized : ∀ ds, part ≠ .distinct ds) (run : replaceOp X part p = .ok u q) :
    Tracks a σ q ∧ replaceOp (σ X) part (p.permute σ) = .ok () (q.permute σ) := by
  have exchanged := exchanged_of_replaceOp hx harity hsized run
  obtain ⟨hq, hrun⟩ := Equivariant.replaceOp.run h.descends run
  exact ⟨⟨⟨exchanged.coherent h.coherent, exchanged.sound h.sound⟩, hq, exchanged.rising h.rising⟩, hrun⟩

theorem append_permute {op : Op} {name : String} {new : NodeId} (hσ : a.Renumbers σ) (h : Tracks a σ p)
    (hsized : ∀ n ds, p.nodes.get? X = some n → op = .distinct ds → n.rel.columns.length = ds.length)
    (run : append X op name p = .ok new q) :
    Tracks a σ q ∧ append (σ X) op name (p.permute σ) = .ok (σ new) (q.permute σ) := by
  obtain ⟨-, n, rel, hn, spliced, -⟩ := spliced_of_append h.coherent hsized run
  have hrising := spliced.rising h.descends.next h.rising
  simp only [append, run_bind, run_node, run_pure] at run
  obtain ⟨n', _, ⟨hn', rfl⟩, id, r, hadd, _, _, hinsert, rfl, rfl⟩ := run
  obtain ⟨hr, hadd'⟩ := (Equivariant.addOrphan hσ).run h.descends hadd
  obtain ⟨hq, hinsert'⟩ := insertAfterAll_permute hr hinsert (hrising.agrees hσ)
  refine ⟨⟨⟨spliced.coherent h.coherent, spliced.sound h.sound⟩, hq, hrising⟩, ?_⟩
  rw [append, bind_of_ok (run_node.mpr ⟨get?_permute_of hn', rfl⟩), Node.permute_rel, bind_of_ok hadd',
    bind_of_ok hinsert']
  rfl

theorem globalSum_permute {op : Op} {rel : Relation} {width : Nat} {out name : String} {new : NodeId}
    (hσ : a.Renumbers σ) (h : Tracks a σ p) (hop : globalSum rel width out = .ok op)
    (run : append X op name p = .ok new q) :
    Tracks a σ q ∧ append (σ X) op name (p.permute σ) = .ok (σ new) (q.permute σ) := by
  simp only [globalSum, bind_eq_ok, pure_eq_ok] at hop
  obtain ⟨groups, -, c, -, rfl⟩ := hop
  exact append_permute hσ h (by simp) run

theorem splitOp_permute (hσ : a.Renumbers σ) (h : Tracks a σ p) (hx : p.nodes.get? X = some x)
    (run : splitOp X x p = .ok true q) :
    Tracks a σ q ∧ splitOp (σ X) (x.permute σ) (p.permute σ) = .ok true (q.permute σ) := by
  cases hop : x.op <;> simp only [splitOp, hop, Node.permute_op, Node.permute_rel, run_bind, run_discard, run_ask,
    run_pure] at run ⊢
  case sum groups c out =>
    obtain ⟨global, _, ⟨hglobal, rfl⟩, _, _, ⟨_, run⟩, -, rfl⟩ := run
    obtain ⟨hq, hrun⟩ := globalSum_permute hσ h hglobal run
    exact ⟨hq, global, _, ⟨hglobal, rfl⟩, (), _, ⟨_, hrun⟩, trivial, rfl⟩
  case count groups out =>
    obtain ⟨global, _, ⟨hglobal, rfl⟩, _, _, ⟨_, run⟩, -, rfl⟩ := run
    obtain ⟨hq, hrun⟩ := globalSum_permute hσ h hglobal run
    exact ⟨hq, global, _, ⟨hglobal, rfl⟩, (), _, ⟨_, hrun⟩, trivial, rfl⟩
  case numRows out =>
    obtain ⟨global, _, ⟨hglobal, rfl⟩, _, _, ⟨_, run⟩, -, rfl⟩ := run
    obtain ⟨hq, hrun⟩ := globalSum_permute hσ h hglobal run
    exact ⟨hq, global, _, ⟨hglobal, rfl⟩, (), _, ⟨_, hrun⟩, trivial, rfl⟩
  case distinct cs =>
    obtain ⟨_, _, ⟨_, run⟩, -, rfl⟩ := run
    obtain ⟨hq, hrun⟩ := append_permute hσ h (fun n ds hn hds => by cases hx.symm.trans hn; cases hds; rfl) run
    exact ⟨hq, (), _, ⟨_, hrun⟩, trivial, rfl⟩
  case mean groups c out weight =>
    cases weight with
    | some weight => simp at run
    | none =>
      simp only [run_bind, run_discard, run_ask, run_pure, run_node] at run ⊢
      obtain ⟨_, p₁, replace, y, _, ⟨hy, rfl⟩, global, _, ⟨hglobal, rfl⟩, _, _, ⟨_, run⟩, -, rfl⟩ := run
      obtain ⟨h₁, replace'⟩ := replaceOp_permute h hx (by rw [hop]; rfl) (by simp) replace
      have hsized : ∀ n ds, p₁.nodes.get? X = some n → global = .distinct ds → n.rel.columns.length = ds.length := by
        simp only [bind_eq_ok, pure_eq_ok] at hglobal
        obtain ⟨_, -, _, -, _, -, rfl⟩ := hglobal
        simp
      obtain ⟨hq, hrun⟩ := append_permute hσ h₁ hsized run
      exact ⟨hq, (), _, replace', _, _, ⟨get?_permute_of hy, rfl⟩, global, _, ⟨hglobal, rfl⟩, (), _,
        ⟨_, hrun⟩, trivial, rfl⟩
  case stdDev groups c out =>
    simp only [run_node] at run ⊢
    obtain ⟨_, p₁, replace, y, _, ⟨hy, rfl⟩, op₁, _, ⟨hsums, rfl⟩, sums, r, run₁, z, _, ⟨hz, rfl⟩, op₂, _,
      ⟨hspread, rfl⟩, spread, s, run₂, _, _, ⟨_, run₃⟩, -, rfl⟩ := run
    obtain ⟨h₁, replace'⟩ := replaceOp_permute h hx (by rw [hop]; rfl) (by simp) replace
    have hsized₁ : ∀ n ds, p₁.nodes.get? X = some n → op₁ = .distinct ds → n.rel.columns.length = ds.length := by
      simp only [bind_eq_ok, pure_eq_ok] at hsums
      obtain ⟨_, -, _, -, rfl⟩ := hsums
      simp
    have hsized₂ : ∀ n ds, r.nodes.get? sums = some n → op₂ = .distinct ds → n.rel.columns.length = ds.length := by
      simp only [bind_eq_ok, pure_eq_ok] at hspread
      obtain ⟨_, -, _, -, _, -, _, -, rfl⟩ := hspread
      simp
    obtain ⟨hr, run₁'⟩ := append_permute hσ h₁ hsized₁ run₁
    obtain ⟨hs, run₂'⟩ := append_permute hσ hr hsized₂ run₂
    obtain ⟨hq, run₃'⟩ := append_permute hσ hs (by simp) run₃
    exact ⟨hq, (), _, replace', _, _, ⟨get?_permute_of hy, rfl⟩, op₁, _, ⟨hsums, rfl⟩, _, _, run₁', _, _,
      ⟨get?_permute_of hz, rfl⟩, op₂, _, ⟨hspread, rfl⟩, _, _, run₂', (), _, ⟨_, run₃'⟩, trivial, rfl⟩
  all_goals simp at run

theorem splitOp_false_permute (run : splitOp X x p = .ok false q) :
    splitOp (σ X) (x.permute σ) (p.permute σ) = .ok false (p.permute σ) := by
  cases hop : x.op <;> simp only [splitOp, hop, Node.permute_op, run_bind, run_pure, Bool.true_eq_false,
    false_and, and_false, exists_false] at run ⊢
  case mean groups c out weight =>
    cases weight with
    | some weight => trivial
    | none => simp only [run_bind, run_pure, Bool.true_eq_false, false_and, and_false, exists_false] at run
  all_goals trivial

theorem swap_permute (hσ : a.Renumbers σ) (h : Tracks a σ p) (hx : p.nodes.get? X = some x) (run : swap X p = .ok u q) : Descends a q ∧ swap (σ X) (p.permute σ) = .ok () (q.permute σ) := by
  obtain ⟨concat?, r, hfind, run⟩ := run_bind.mp run
  obtain ⟨rfl, -⟩ := run_boundaryConcat? hfind
  rw [swap, bind_of_ok (boundaryConcat?_permute h.coherent hfind)]
  cases concat? with
  | none =>
    obtain ⟨-, rfl⟩ := run_pure.mp run
    exact ⟨h.descends, rfl⟩
  | some D =>
    have hrest : Equivariant a σ id (do if (← node X).children.size = 1 then discard (Edit.pushDown D X))
        (do if (← node (σ X)).children.size = 1 then discard (Edit.pushDown (σ D) (σ X))) :=
      .bind .node fun n => .ite (by simp [Node.permute]) (.discard (.pushDown hσ)) .pure
    exact hrest.run h.descends run

theorem split_permute (hσ : a.Renumbers σ) (h : Tracks a σ p) (hx : p.nodes.get? X = some x) (run : split X p = .ok u q) : Descends a q ∧ split (σ X) (p.permute σ) = .ok () (q.permute σ) := by
  obtain ⟨concat?, r, hfind, run⟩ := run_bind.mp run
  obtain ⟨rfl, -⟩ := run_boundaryConcat? hfind
  rw [split, bind_of_ok (boundaryConcat?_permute h.coherent hfind)]
  cases concat? with
  | none =>
    obtain ⟨-, rfl⟩ := run_pure.mp run
    exact ⟨h.descends, rfl⟩
  | some D =>
    obtain ⟨x', _, asked, run⟩ := run_bind.mp run
    obtain ⟨hx', rfl⟩ := run_node.mp asked
    cases hx.symm.trans hx'
    have hsize : (x.permute σ).children.size = x.children.size := IdSet.size_permute
    simp only [Option.map_some]
    rw [bind_of_ok (run_node.mpr ⟨get?_permute_of hx, rfl⟩), hsize]
    split at run
    case isFalse hone =>
      obtain ⟨-, rfl⟩ := run_pure.mp run
      rw [if_neg hone]
      exact ⟨h.descends, rfl⟩
    case isTrue hone =>
      obtain ⟨done, p₂, hsplit, run⟩ := run_bind.mp run
      rw [if_pos hone]
      cases done with
      | false =>
        obtain ⟨-, rfl⟩ := run_pure.mp run
        rw [bind_of_ok (splitOp_false_permute hsplit), eq_of_splitOp hsplit]
        exact ⟨h.descends, rfl⟩
      | true =>
        have hpush : Equivariant a σ id (discard (Edit.pushDown D X)) (discard (Edit.pushDown (σ D) (σ X))) :=
          .discard (.pushDown hσ)
        obtain ⟨h₂, hsplit'⟩ := splitOp_permute hσ h hx hsplit
        rw [bind_of_ok hsplit']
        exact hpush.run h₂.descends run

theorem fork_permute (hσ : a.Renumbers σ) (h : Tracks a σ p) (hx : p.nodes.get? X = some x) (run : fork X p = .ok u q) : Descends a q ∧ fork (σ X) (p.permute σ) = .ok () (q.permute σ) := by
  obtain ⟨x', _, asked, run⟩ := run_bind.mp run
  obtain ⟨hx', rfl⟩ := run_node.mp asked
  cases hx.symm.trans hx'
  have hsize : (x.permute σ).children.size = x.children.size := IdSet.size_permute
  rw [fork, bind_of_ok (run_node.mpr ⟨get?_permute_of hx, rfl⟩), hsize]
  split at run
  case isFalse hone =>
    obtain ⟨-, rfl⟩ := run_pure.mp run
    rw [if_neg hone]
    exact ⟨h.descends, rfl⟩
  case isTrue hmany =>
    obtain ⟨enters, _, asked, run⟩ := run_bind.mp run
    obtain ⟨henters, rfl⟩ := run_ask.mp asked
    rw [if_pos hmany, bind_of_ok (run_ask.mpr ⟨h.coherent.isUpperBoundary_permute hx henters, rfl⟩)]
    cases enters with
    | false =>
      obtain ⟨-, rfl⟩ := run_pure.mp run
      exact ⟨h.descends, rfl⟩
    | true => exact (Equivariant.forkNode hσ).discard.run h.descends run

theorem visit_permute (hσ : a.Renumbers σ) (h : Tracks a σ p) (hx : p.nodes.get? X = some x)
    (run : visit X x.op p = .ok u q) :
    Descends a q ∧ visit (σ X) x.op (p.permute σ) = .ok () (q.permute σ) := by
  cases hop : x.op <;> simp only [visit, hop] at run ⊢
  case project | arithmetic | filterByColumn | filterByScalar => exact swap_permute hσ h hx run
  case sum | distinct | count | mean | stdDev | numRows => exact split_permute hσ h hx run
  case concat => exact fork_permute hσ h hx run
  all_goals
    obtain ⟨-, rfl⟩ := run_pure.mp run
    exact ⟨h.descends, rfl⟩

end PushDown

-- ---------------------------------------------------------------------------
-- Whole passes
-- ---------------------------------------------------------------------------

namespace Edit

open Plan

variable {a p q : Plan} {σ : Equiv.Perm NodeId} {x y : Edit Unit}

theorem Equivariant.forEachDerived {step : NodeId → Edit Unit} (hσ : a.Renumbers σ)
    (h : ∀ k, Equivariant a σ id (step k) (step (σ k))) :
    Equivariant a σ id (forEachDerived step) (forEachDerived step) :=
  .bind (.ask fun _ _ hp => hσ.topSort_permute hp) fun _ => .forM fun k _ => .bind .node fun _ =>
    .ite Iff.rfl (h k) .pure

theorem pure_permute {u : Unit} (hp : Descends a p) (run : (pure () : Edit Unit) p = .ok u q) :
    Descends a q ∧ (pure () : Edit Unit) (p.permute σ) = .ok () (q.permute σ) := by
  obtain ⟨-, rfl⟩ := run_pure.mp run
  exact ⟨hp, rfl⟩

/-- The edit does the same to the permuted plan, and keeps what is needed for this. -/
structure Retraces (a : Plan) (σ : Equiv.Perm NodeId) (x : Edit Unit) : Prop where
  run : ∀ {p u q}, Tracks a σ p → x p = .ok u q → Tracks a σ q ∧ x (p.permute σ) = .ok () (q.permute σ)

namespace Retraces

theorem of_equivariant {K : Op → Prop} (h : Equivariant a σ id x x) (hreworks : Reworks K x) : Retraces a σ x where
  run hp run := by
    obtain ⟨hq, hrun⟩ := h.run hp.descends run
    exact ⟨hp.reworked (hreworks hp.coherent run) hq, hrun⟩

theorem bind (hx : Retraces a σ x) (hy : Retraces a σ y) : Retraces a σ (do x; y) where
  run hp run := by
    obtain ⟨_, r, hr, hq⟩ := run_bind.mp run
    obtain ⟨htr, hr'⟩ := hx.run hp hr
    obtain ⟨htq, hq'⟩ := hy.run htr hq
    exact ⟨htq, (bind_of_ok hr').trans hq'⟩

theorem forM {ι : Type} {l : List ι} {g : ι → Edit Unit} (h : ∀ i ∈ l, Retraces a σ (g i)) :
    Retraces a σ (l.forM g) := by
  induction l with
  | nil =>
    refine ⟨fun hp run => ?_⟩
    obtain rfl := run_forM_nil.mp run
    exact ⟨hp, rfl⟩
  | cons i l ih => exact bind (h i List.mem_cons_self) (ih fun j hj => h j (List.mem_cons_of_mem _ hj))

end Retraces

theorem refreshAll_retraces (hσ : a.Renumbers σ) : Retraces a σ refreshAll :=
  .of_equivariant (K := fun _ => True) (.forEachDerived hσ fun _ => .refresh) .refreshAll

end Edit

namespace Pass

open Plan Edit Boundary

variable {pass : Pass} {a p q r s : Plan} {σ : Equiv.Perm NodeId} {X : NodeId} {n : Node}
    {rest order : List NodeId} {u : Unit}

/-- The nodes that have had their turn have had it under their other numbers as well. -/
def Retraced (pass : Pass) (σ : Equiv.Perm NodeId) (p : Plan) (rest : List NodeId) (r : Plan) : Prop :=
  ∃ order done, p.topSort = .ok order ∧ pass.direction.arrange order = done ++ rest ∧
    (done.map σ).forM pass.step (p.permute σ) = .ok () (r.permute σ)

namespace Retraced

theorem start (horder : p.topSort = .ok order) : Retraced pass σ p (pass.direction.arrange order) p :=
  ⟨order, [], horder, rfl, rfl⟩

theorem step (h : Retraced pass σ p (X :: rest) r) (hstep : pass.step (σ X) (r.permute σ) = .ok () (s.permute σ)) :
    Retraced pass σ p rest s := by
  obtain ⟨order, done, horder, harrange, hrun⟩ := h
  refine ⟨order, done ++ [X], horder, by rw [harrange, List.append_assoc]; rfl, ?_⟩
  rw [List.map_append]
  exact run_forM_append.mpr ⟨_, hrun, run_forM_cons.mpr ⟨_, hstep, rfl⟩⟩

theorem visit (h : Retraced pass σ p (X :: rest) r) (hn : r.nodes.get? X = some n)
    (hvisit : pass.visit (σ X) n.op (r.permute σ) = .ok () (s.permute σ)) : Retraced pass σ p rest s :=
  h.step (run_step.mpr (.inr ⟨_, get?_permute_of hn, hvisit⟩))

theorem skip (h : Retraced pass σ p (X :: rest) r) (hnone : r.nodes.get? X = none) : Retraced pass σ p rest r :=
  h.step (run_step.mpr (.inl ⟨by rw [get?_permute, hnone, Option.map_none], rfl⟩))

theorem run (h : Retraced pass σ p [] r) (hσ : a.Renumbers σ) (hp : Descends a p)
    (hfinish : pass.finish (r.permute σ) = .ok () (q.permute σ)) : pass.run (p.permute σ) = .ok () (q.permute σ) := by
  obtain ⟨order, done, horder, harrange, hrun⟩ := h
  refine run_run.mpr ⟨order.map σ, r.permute σ, hσ.topSort_permute hp horder, ?_, hfinish⟩
  have hmap : pass.direction.arrange (order.map σ) = (pass.direction.arrange order).map σ := by
    cases pass.direction <;> simp [Direction.arrange]
  rwa [hmap, harrange, List.append_nil]

end Retraced

theorem retraces {K : Op → Prop} (hσ : a.Renumbers σ) (hvisits : ∀ X op, Reworks K (pass.visit X op))
    (hfinishes : Reworks K pass.finish) (hfinish : Equivariant a σ id pass.finish pass.finish)
    (visit : ∀ {X n r s}, Tracks a σ r → r.nodes.get? X = some n → pass.visit X n.op r = .ok () s →
      s.Agrees σ →
      Descends a s ∧ pass.visit (σ X) n.op (r.permute σ) = .ok () (s.permute σ)) : Retraces a σ pass.run where
  run {p u q} hp run := by
    obtain ⟨r, ⟨hr, hretraced⟩, -, hfinished⟩ := exists_of_run
      (motive := fun rest r => Tracks a σ r ∧ Retraced pass σ p rest r) hp.toOrderly hvisits
      (fun order horder => ⟨hp, .start horder⟩)
      (fun {X rest n r s} ⟨hr, hretraced⟩ _ hn hvisit => by
        have hreworked := hvisits X n.op hr.coherent hvisit
        have hagrees := (hreworked.rising hr.descends.next hr.rising).2.agrees hσ
        obtain ⟨hs, hvisit'⟩ := visit hr hn hvisit hagrees
        exact ⟨hr.reworked hreworked hs, hretraced.visit hn hvisit'⟩) run
    obtain ⟨hq, hfinish'⟩ := hfinish.run hr.descends hfinished
    exact ⟨hr.reworked (hfinishes hr.coherent hfinished) hq, hretraced.run hσ hp.descends hfinish'⟩

theorem pushUp_retraces (hσ : a.Renumbers σ) : Retraces a σ pushUp.run := by
  refine retraces (K := fun _ => True) hσ (fun _ _ => pushUp_visit_reworks) .pure .pure
    fun {X n r s} hr _ hvisit _ => ?_
  simp only [pushUp] at hvisit ⊢
  split at hvisit <;> rename_i hunary
  · rw [if_pos hunary]
    exact PushUp.visit_permute hr.coherent hr.descends hvisit
  · rw [if_neg hunary]
    exact pure_permute hr.descends hvisit

theorem insertClose_retraces (hσ : a.Renumbers σ) : Retraces a σ insertClose.run :=
  retraces hσ (fun _ _ => insertClose_visit_reworks) Reworks.propagateStorage
    (.forEachDerived hσ fun _ => .refreshStorage)
    fun hr _ hvisit _ => (equivariant_visitClose hσ).run hr.descends hvisit

theorem insertOpen_retraces (hσ : a.Renumbers σ) : Retraces a σ insertOpen.run := by
  refine retraces hσ (fun _ _ => insertOpen_visit_reworks) .pure .pure fun {X n r s} hr hn hvisit hs => ?_
  simp only [insertOpen] at hvisit ⊢
  split at hvisit <;> rename_i hboundary
  · rw [if_pos hboundary]
    exact pure_permute hr.descends hvisit
  · rw [if_neg hboundary]
    exact openOutput_permute hσ hr.coherent hr.descends hn hvisit hs

theorem insertRead_retraces (hσ : a.Renumbers σ) : Retraces a σ insertRead.run := by
  refine retraces hσ (fun _ _ => insertRead_visit_reworks) .pure .pure fun {X n r s} hr _ hvisit _ => ?_
  generalize n.op = op at hvisit ⊢
  cases op
  case opening => exact (equivariant_readAfterOpening hσ).run hr.descends hvisit
  all_goals exact pure_permute hr.descends hvisit

theorem insertStore_retraces (hσ : a.Renumbers σ) : Retraces a σ insertStore.run := by
  refine retraces hσ (fun _ _ => insertStore_visit_reworks) .pure .pure fun {X n r s} hr _ hvisit hs => ?_
  generalize n.op = op at hvisit ⊢
  cases op
  case opening => exact storeAfterOpening_permute hσ hr.coherent hr.descends hvisit hs
  case closing => exact (equivariant_storeBeforeClosing hσ).run hr.descends hvisit
  all_goals exact pure_permute hr.descends hvisit

-- When a node changes places with its input, the input takes over its children. These
-- edges rise since they replace two that rise, if the node in between is old; all
-- nodes visited are.
theorem pushDown_permute (hσ : a.Renumbers σ) (hp : Tracks a σ a) (run : pushDown.run a = .ok u q) :
    Tracks a σ q ∧ pushDown.run (a.permute σ) = .ok () (q.permute σ) := by
  have hvisited (order : List NodeId) (horder : a.topSort = .ok order) (X : NodeId)
    (hX : X ∈ order) : X < a.nextId := by
    obtain ⟨n, hn⟩ := Option.isSome_iff_exists.mp ((hp.coherent.mem_topSort horder).mp hX)
    exact hp.coherent.below hn
  obtain ⟨r, ⟨hr, -, hretraced⟩, -, hfinish, -⟩ := exists_of_sweep
    (motive := fun rest r => Tracks a σ r ∧ (∀ X ∈ rest, X < a.nextId) ∧ Retraced pushDown σ a rest r) hp.toOrderly
    (fun order horder => ⟨hp, hvisited order horder, .start horder⟩)
    (fun hnone ⟨hr, hold, hretraced⟩ => ⟨hr, fun Y hY => hold Y (List.mem_cons_of_mem _ hY), hretraced.skip hnone⟩)
    (fun {X rest x r s} hsweep hx hvisit hvisited ⟨hr, hold, hretraced⟩ => by
      obtain ⟨hs, hvisit'⟩ := PushDown.visit_permute hσ hr hx hvisit
      have hrising := hvisited.rising hr.coherent hx hr.descends.next (hold X List.mem_cons_self) hr.rising
      exact ⟨⟨(hvisited.steps hsweep hx).1.toOrderly, hs, hrising⟩, fun Y hY => hold Y (List.mem_cons_of_mem _ hY),
        hretraced.visit hx hvisit'⟩) run
  obtain ⟨hq, hfinish'⟩ := (refreshAll_retraces hσ).run hr hfinish
  exact ⟨hq, hretraced.run hσ hp.descends hfinish'⟩

end Pass

namespace Edit

open Plan

variable {a q : Plan} {σ : Equiv.Perm NodeId} {optimize : Bool} {u : Unit}

theorem insertBoundaries_retraces (hσ : a.Renumbers σ) : Retraces a σ insertBoundaries := by
  refine .forM fun pass hpass => ?_
  simp only [Pass.boundaries, List.mem_cons, List.not_mem_nil, or_false] at hpass
  rcases hpass with rfl | rfl | rfl | rfl
  · exact Pass.insertClose_retraces hσ
  · exact Pass.insertOpen_retraces hσ
  · exact Pass.insertRead_retraces hσ
  · exact Pass.insertStore_retraces hσ

/-- Compiling the plan under other numbers gives the same plan under the other numbers. -/
theorem compile_permute (hσ : a.Renumbers σ) (ha : Tracks a σ a) (run : compile optimize a = .ok u q) :
    Tracks a σ q ∧ compile optimize (a.permute σ) = .ok () (q.permute σ) := by
  cases optimize with
  | false =>
    obtain ⟨hvalid, r, hinsert, hrefresh, hvalid'⟩ := run_compilePlain.mp run
    obtain ⟨hr, hinsert'⟩ := (insertBoundaries_retraces hσ).run ha hinsert
    obtain ⟨hq, hrefresh'⟩ := (refreshAll_retraces hσ).run hr hrefresh
    exact ⟨hq, run_compilePlain.mpr ⟨hσ.validate_permute ha.descends hvalid, _, hinsert', hrefresh',
      hσ.validate_permute hq.descends hvalid'⟩⟩
  | true =>
    obtain ⟨hvalid, b, c, d, r, hdown, hup, hinsert, hrefresh, hwiden, hvalid'⟩ := run_compileOptimized.mp run
    obtain ⟨hb, hdown'⟩ := Pass.pushDown_permute hσ ha hdown
    obtain ⟨hc, hup'⟩ := (Pass.pushUp_retraces hσ).run hb hup
    obtain ⟨hd, hinsert'⟩ := (insertBoundaries_retraces hσ).run hc hinsert
    obtain ⟨hr, hrefresh'⟩ := (refreshAll_retraces hσ).run hd hrefresh
    obtain ⟨hq, hwiden'⟩ := (Pass.pushUp_retraces hσ).run hr hwiden
    exact ⟨hq, run_compileOptimized.mpr ⟨hσ.validate_permute ha.descends hvalid, _, _, _, _, hdown', hup',
      hinsert', hrefresh', hwiden', hσ.validate_permute hq.descends hvalid'⟩⟩

end Edit

end JointPlan
