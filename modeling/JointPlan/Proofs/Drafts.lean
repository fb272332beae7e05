import JointPlan.Proofs.Building
import JointPlan.Proofs.Pushing
import JointPlan.Proofs.Validity

/-!
# Plans in the making

What holds of a plan after any surgery at all, on calls that finish and on calls that
fail halfway. Nodes may wait for their inputs and roots may be lost, so the plan need
not be coherent; but the three records of every edge agree, there is no cycle, and no
number is given twice.

Each surgical edit is one of the changes of shape, and each change of shape keeps
`Plan.Draft`. What is derived afterwards, and whether that succeeds, cannot be seen in
the outline.
-/

namespace JointPlan

namespace Inputs

/-- The node waits for its inputs, or has as many as it takes. -/
def Suits (i : Inputs) (a : Arity) : Prop := i = .none ∨ i.fits a = true

variable {i : Inputs} {a : Arity}

theorem Suits.map {f : NodeId → NodeId} (h : i.Suits a) : (i.map f).Suits a :=
  h.imp (fun h => by rw [h]; rfl) fits_map.trans

theorem Suits.mapIdx {f : Nat → NodeId → NodeId} (h : i.Suits a) : (i.mapIdx f).Suits a :=
  h.imp (fun h => by rw [h]; rfl) fits_mapIdx.trans

theorem Suits.arity {u : NodeId} (h : (unary u).Suits a) : a = .unary := by
  cases a <;> simp_all [Suits, fits]

end Inputs

namespace Plan

variable {p q r : Plan} {id parent child new top bottom u v k : NodeId} {cs : NodeSet} {op : Op}
  {rel : Relation} {inputs : Inputs} {n o t b : Node}

structure Draft (p : Plan) : Prop extends p.Linked where
  shaped : ∀ {k n}, p.nodes.get? k = some n → n.inputs.Suits n.op.arity
  roots : ∀ {k}, k ∈ p.roots → ∃ n, p.nodes.get? k = some n ∧ n.inputs.ids = []

namespace Draft

theorem of_sameGraph (hp : p.Draft) (h : SameGraph p q) : q.Draft := by
  refine { h.linked hp.toLinked with shaped := fun {k n} hn => ?_, roots := fun {k} hk => ?_ }
  · obtain ⟨m, hm, hs⟩ := h.old hn
    rw [hs.inputs, hs.arity]
    exact hp.shaped hm
  · obtain ⟨m, hm, hids⟩ := hp.roots (h.roots ▸ hk)
    obtain ⟨n, hn, hs⟩ := h.new hm
    exact ⟨n, hn, hs.inputs ▸ hids⟩

theorem empty : (∅ : Plan).Draft where
  toLinked := linked_empty
  shaped hn := nomatch hn
  roots hk := (IdSet.not_mem_empty _ hk).elim

-- ---------------------------------------------------------------------------
-- Changes of shape
-- ---------------------------------------------------------------------------

variable (hp : p.Draft)

include hp

theorem joined (hin : ∀ u ∈ inputs.ids, ∃ n, p.nodes.get? u = some n)
    (hsuits : inputs.Suits op.arity) (room : p.nextId + 1 < Word.limit) :
    (p.joined op rel inputs).Draft := by
  refine { hp.toLinked.joined hin room with shaped := fun {k m} hm => ?_, roots := fun {k} hk => ?_ }
  · rcases get?_joined_eq_some hm with ⟨rfl, rfl⟩ | ⟨-, n, hn, rfl⟩
    · exact hsuits
    · simpa using hp.shaped hn
  · obtain ⟨n, hn, hids⟩ := hp.roots hk
    exact ⟨_, by rw [get?_joined, if_neg (hp.ne_nextId hn), hn, Option.map_some], by simpa using hids⟩

theorem insert_root (hn : p.nodes.get? k = some n) (hids : n.inputs.ids = []) :
    ({ p with roots := p.roots.insert k } : Plan).Draft := by
  refine { hp.toLinked.with_roots with shaped := hp.shaped, roots := fun {j} hj => ?_ }
  rcases IdSet.mem_insert.mp hj with rfl | hj
  · exact ⟨n, hn, hids⟩
  · exact hp.roots hj

theorem erase_root : ({ p with roots := p.roots.erase k } : Plan).Draft :=
  { hp.toLinked.with_roots with
    shaped := hp.shaped
    roots := fun hj => hp.roots (IdSet.mem_erase.mp hj).1 }

theorem spliceAt (hn : p.nodes.get? parent = some n) (hcs : ∀ c ∈ cs, c ∈ n.children)
    (ho : p.Orphan new o) (hne : parent ≠ new) : (p.spliceAt new parent cs o.op o.rel).Draft := by
  have hlinked : (p.spliceAt new parent cs o.op o.rel).Linked :=
    hp.toLinked.spliceAt hn hcs (hp.below ho.node) hne (fun _ => ho.not_fed hp.toLinked)
      fun _ => ho.not_feeds hp.toLinked
  refine { hlinked with shaped := fun {k m} hm => ?_, roots := fun {k} hk => ?_ }
  · rcases get?_spliceAt_eq_some hm with ⟨rfl, rfl⟩ | ⟨-, n, hn, rfl⟩
    · exact .inr (by simp [ho.arity, Inputs.fits])
    · rw [relinked_inputs, relinked_op]
      split
      · exact (hp.shaped hn).map
      · exact hp.shaped hn
  · obtain ⟨m, hm, hids⟩ := hp.roots hk
    have hknew : k ≠ new := fun h => ho.free (h ▸ hk)
    refine ⟨_, by rw [get?_spliceAt, if_neg hknew, hm, Option.map_some], ?_⟩
    rw [relinked_inputs]
    split
    · simp [Inputs.replace, hids]
    · exact hids

theorem forked (hn : p.nodes.get? id = some n) (hc : child ∈ n.children)
    (room : p.nextId + 1 < Word.limit) : (p.forked id child n rel).Draft := by
  have hlinked : (p.forked id child n rel).Linked := hp.toLinked.forked hn hc room
  refine { hlinked with shaped := fun {k m} hm => ?_, roots := fun {k} hk => ?_ }
  · rcases get?_forked_eq_some hm with ⟨rfl, rfl⟩ | ⟨-, m', hm', rfl⟩
    · have := hp.shaped hn
      exact this
    · rw [forkedNode_inputs, forkedNode_op]
      split
      · exact (hp.shaped hm').map
      · exact hp.shaped hm'
  · have hcases : (k = p.nextId ∧ n.parents = ∅) ∨ k ∈ p.roots := by
      rw [Plan.forked] at hk
      split at hk
      · exact (IdSet.mem_insert.mp hk).imp_left fun h => ⟨h, IdSet.isEmpty_iff.mp ‹n.isRoot = true›⟩
      · exact .inr hk
    rw [Plan.forked, IdMap.get?_insert, IdMap.get?_map]
    rcases hcases with ⟨rfl, hparents⟩ | hk
    · refine ⟨_, if_pos rfl, List.eq_nil_iff_forall_not_mem.mpr fun u hu => ?_⟩
      exact IdSet.not_mem_empty u (hparents ▸ (hp.parents hn).mpr hu)
    · obtain ⟨m, hm, hids⟩ := hp.roots hk
      refine ⟨_, by rw [if_neg (hp.ne_nextId hm), hm, Option.map_some], ?_⟩
      rw [forkedNode_inputs]
      split
      · simp [Inputs.replace, hids]
      · exact hids

theorem bypassed (ht : p.nodes.get? top = some t) (hb : p.nodes.get? bottom = some b)
    (hfed : b.inputs = .unary top) : (p.bypassed top bottom b).Draft := by
  have hlinked : (p.bypassed top bottom b).Linked := hp.toLinked.bypassed ht hb hfed
  have hinputs {k : NodeId} {n m : Node} (hn : p.nodes.get? k = some n)
      (hm : (p.bypassed top bottom b).nodes.get? k = some m) : m.op = n.op ∧
        m.inputs = if k ∈ b.children then n.inputs.replace bottom top else n.inputs := by
    rw [get?_bypassed, hn] at hm
    split at hm
    · cases hm
    · cases hm
      split_ifs <;> exact ⟨rfl, rfl⟩
  refine { hlinked with shaped := fun {k m} hm => ?_, roots := fun {k} hk => ?_ }
  · obtain ⟨n, hn⟩ : ∃ n, p.nodes.get? k = some n := by
      rw [get?_bypassed] at hm
      split at hm
      · cases hm
      · obtain ⟨n, hn, -⟩ := Option.map_eq_some_iff.mp hm
        exact ⟨n, hn⟩
    obtain ⟨hop, hin⟩ := hinputs hn hm
    rw [hop, hin]
    split
    · exact (hp.shaped hn).map
    · exact hp.shaped hn
  · obtain ⟨n, hn, hids⟩ := hp.roots hk
    have hkb : k ≠ bottom := by
      rintro rfl
      cases hb.symm.trans hn
      simp [hfed] at hids
    have hm : (p.bypassed top bottom b).nodes.get? k = _ := get?_bypassed
    rw [if_neg hkb, hn, Option.map_some] at hm
    refine ⟨_, hm, ?_⟩
    rw [(hinputs hn hm).2]
    split
    · simp [Inputs.replace, hids]
    · exact hids

theorem pushed {rels : Nat → Relation} (ht : p.nodes.get? top = some t)
    (hb : p.nodes.get? bottom = some b) (hfed : b.inputs = .unary top)
    (room : p.nextId + t.inputs.ids.length < Word.limit) : (p.pushed top bottom t b rels).Draft := by
  have hlinked : (p.pushed top bottom t b rels).Linked := hp.toLinked.pushed ht hb hfed room
  refine { hlinked with shaped := fun {k m} hm => ?_, roots := fun {k} hk => ?_ }
  · rcases get?_pushed_eq_some hp.toLinked hm with ⟨i, input, rfl, -, rfl⟩ | ⟨-, -, n, hn, rfl⟩
    · have hsuits := hp.shaped hb
      rw [hfed] at hsuits
      exact .inr (by simp [hsuits.arity, Inputs.fits])
    · rw [pushedNode_inputs, pushedNode_op]
      split_ifs
      · exact (hp.shaped hn).mapIdx
      · exact (hp.shaped hn).map
      · exact hp.shaped hn
  · obtain ⟨n, hn, hids⟩ := hp.roots hk
    have hkb : k ≠ bottom := by
      rintro rfl
      cases hb.symm.trans hn
      simp [hfed] at hids
    refine ⟨_, get?_pushed_old hp.toLinked hn hkb, ?_⟩
    rw [pushedNode_inputs]
    split_ifs <;> simp [Inputs.replace, hids]

end Draft

-- ---------------------------------------------------------------------------
-- Numbers
-- ---------------------------------------------------------------------------

/-- The plan `q` comes after `p`: what is new in it has a number that was not given out. -/
structure Advances (p q : Plan) : Prop where
  draft : q.Draft
  nextId_le : p.nextId ≤ q.nextId
  fresh : ∀ {k n}, q.nodes.get? k = some n → p.contains k = true ∨ p.nextId ≤ k

namespace Advances

theorem refl (hp : p.Draft) : Advances p p :=
  ⟨hp, Nat.le_refl _, fun hn => .inl (by simp [Plan.contains, IdMap.contains, hn])⟩

theorem trans (h₁ : Advances p q) (h₂ : Advances q r) : Advances p r where
  draft := h₂.draft
  nextId_le := h₁.nextId_le.trans h₂.nextId_le
  fresh hn := by
    rcases h₂.fresh hn with hq | hq
    · obtain ⟨m, hm⟩ := Option.isSome_iff_exists.mp hq
      exact h₁.fresh hm
    · exact .inr (h₁.nextId_le.trans hq)

theorem of_sameGraph (h : Advances p q) (hqr : SameGraph q r) : Advances p r where
  draft := h.draft.of_sameGraph hqr
  nextId_le := h.nextId_le.trans_eq hqr.nextId.symm
  fresh hn := by
    obtain ⟨m, hm, -⟩ := hqr.old hn
    exact h.fresh hm

theorem of_outline_eq (h : Advances p q) (hqr : r.outline = q.outline) : Advances p r :=
  h.of_sameGraph (.of_outline_eq hqr)

end Advances

namespace Draft

variable (hp : p.Draft)

include hp

theorem advances_joined (hin : ∀ u ∈ inputs.ids, ∃ n, p.nodes.get? u = some n)
    (hsuits : inputs.Suits op.arity) (room : p.nextId + 1 < Word.limit) :
    Advances p (p.joined op rel inputs) where
  draft := hp.joined hin hsuits room
  nextId_le := Nat.le_succ _
  fresh hm := by
    rcases get?_joined_eq_some hm with ⟨rfl, -⟩ | ⟨-, n, hn, -⟩
    · exact .inr (Nat.le_refl _)
    · exact .inl (contains_of_get? hn)

theorem advances_spliceAt (hn : p.nodes.get? parent = some n) (hcs : ∀ c ∈ cs, c ∈ n.children)
    (ho : p.Orphan new o) (hne : parent ≠ new) : Advances p (p.spliceAt new parent cs o.op o.rel) where
  draft := hp.spliceAt hn hcs ho hne
  nextId_le := Nat.le_refl _
  fresh hm := by
    rcases get?_spliceAt_eq_some hm with ⟨rfl, -⟩ | ⟨-, n, hn, -⟩
    · exact .inl (contains_of_get? ho.node)
    · exact .inl (contains_of_get? hn)

theorem advances_forked (hn : p.nodes.get? id = some n) (hc : child ∈ n.children)
    (room : p.nextId + 1 < Word.limit) : Advances p (p.forked id child n rel) where
  draft := hp.forked hn hc room
  nextId_le := Nat.le_succ _
  fresh hm := by
    rcases get?_forked_eq_some hm with ⟨rfl, -⟩ | ⟨-, m, hm, -⟩
    · exact .inr (Nat.le_refl _)
    · exact .inl (contains_of_get? hm)

theorem advances_bypassed (ht : p.nodes.get? top = some t) (hb : p.nodes.get? bottom = some b)
    (hfed : b.inputs = .unary top) :
    Advances p { p.bypassed top bottom b with roots := p.roots.erase bottom } where
  draft := (hp.bypassed ht hb hfed).erase_root
  nextId_le := Nat.le_refl _
  fresh {k m} hm := by
    have hm : (p.bypassed top bottom b).nodes.get? k = some m := hm
    rw [get?_bypassed] at hm
    split at hm
    · cases hm
    · obtain ⟨n, hn, -⟩ := Option.map_eq_some_iff.mp hm
      exact .inl (contains_of_get? hn)

theorem advances_pushed {rels : Nat → Relation} (ht : p.nodes.get? top = some t)
    (hb : p.nodes.get? bottom = some b) (hfed : b.inputs = .unary top)
    (room : p.nextId + t.inputs.ids.length < Word.limit) :
    Advances p (p.pushed top bottom t b rels) where
  draft := hp.pushed ht hb hfed room
  nextId_le := Nat.le_add_right _ _
  fresh hm := by
    rcases get?_pushed_eq_some hp.toLinked hm with ⟨i, input, rfl, -, -⟩ | ⟨-, -, n, hn, -⟩
    · exact .inr (Nat.le_add_right _ _)
    · exact .inl (contains_of_get? hn)

end Draft

end Plan

namespace Edit

open Plan

variable {p q : Plan} {id parent child new top bottom : NodeId} {op : Op} {rel : Relation}
  {inputs : Inputs} {name : String}

-- ---------------------------------------------------------------------------
-- Surgical edits
-- ---------------------------------------------------------------------------

section Advances

variable (hp : p.Draft)

include hp

theorem addOrphan_advances : Advances p (after (addOrphan op rel) p) := by
  by_cases room : p.nextId + 1 < Word.limit
  · rw [after_of_ok (addOrphan_eq room)]
    exact hp.advances_joined (by simp [Inputs.ids]) (.inl rfl) room
  · rw [after_of_error (addOrphan_eq_error room)]
    exact .refl hp

theorem addCreate_advances : Advances p (after (addCreate rel) p) := by
  cases run : addCreate rel p with
  | error fault q =>
    by_cases room : p.nextId + 1 < Word.limit
    · rw [addCreate, bind_of_ok (addOrphan_eq room)] at run
      cases run
    · rw [addCreate, after_bind_of_error (addOrphan_eq_error room)]
      exact .refl hp
  | ok id q =>
    rw [after_of_ok run]
    obtain ⟨room, -, rfl⟩ := run_addCreate run
    have h : Advances p (p.joined .create rel .none) :=
      hp.advances_joined (by simp [Inputs.ids]) (.inl rfl) room
    have hnew : (p.joined .create rel .none).nodes.get? p.nextId = some _ :=
      (get?_joined_none _).trans (if_pos rfl)
    exact { h with draft := h.draft.insert_root hnew rfl }

theorem insertNode_advances : Advances p (after (insertNode op name inputs) p) := by
  rcases insertNode_cases op name inputs hp.toLinked with
    ⟨e, hfail⟩ | ⟨room, -, hfits, -, hin, storage, heq⟩
  · rw [after_of_error hfail]
    exact .refl hp
  · rw [after_congr heq]
    exact (hp.advances_joined hin (.inr hfits) room).of_outline_eq
      ((refresh_redraws.bind fun _ => .pure) _)

theorem insertBetween_advances : Advances p (after (insertBetween parent child new) p) := by
  rcases insertBetween_cases parent child new hp.toLinked with
    ⟨e, hfail⟩ | ⟨n, o, hn, hc, ho, heq⟩
  · rw [after_of_error hfail]
    exact .refl hp
  · rw [after_congr heq]
    have hne : parent ≠ new := by
      rintro rfl
      exact ho.not_feeds hp.toLinked ((hp.children hn).mp hc)
    exact (hp.advances_spliceAt hn (by simpa using hc) ho hne).of_outline_eq
      ((refresh_redraws.bind fun _ => refreshStorage_redraws) _)

theorem insertAfterAll_advances (hne : new ≠ parent) : Advances p (after (insertAfterAll parent new) p) := by
  rcases insertAfterAll_cases hp.toLinked hne with ⟨e, hfail⟩ | ⟨n, o, hn, ho, heq⟩
  · rw [after_of_error hfail]
    exact .refl hp
  · rw [after_congr heq]
    exact (hp.advances_spliceAt hn (fun _ hc => hc) ho hne.symm).of_outline_eq
      ((refresh_redraws.bind fun _ => Leads.forM fun _ _ => refreshStorage_redraws) _)

theorem removeNode_advances : Advances p (after (removeNode id) p) := by
  rcases removeNode_cases id hp.toLinked with ⟨e, hfail⟩ | ⟨parent, m, n, hm, hn, hin, heq⟩
  · rw [after_of_error hfail]
    exact .refl hp
  · rw [after_congr heq]
    exact (hp.advances_bypassed hm hn hin).of_outline_eq
      ((Leads.forM fun _ _ => refreshStorage_redraws) _)

theorem replaceOp_advances : Advances p (after (replaceOp id op) p) := by
  rcases replaceOp_cases p id op with ⟨e, hfail⟩ | ⟨n, hn, harity, heq⟩
  · rw [after_of_error hfail]
    exact .refl hp
  · rw [after_congr heq]
    exact ((Advances.refl hp).of_sameGraph (.set_op hn harity.symm)).of_outline_eq (refresh_redraws _)

theorem pushDown_advances {copies : List NodeId} (run : pushDown top bottom p = .ok copies q) :
    Advances p q := by
  obtain ⟨t, b, h⟩ := pushed_of_pushDown hp.toLinked run
  exact (hp.advances_pushed h.upper h.lower h.fed h.room).of_outline_eq h.outline

end Advances

/-- One copy, whether it can be derived or not. -/
theorem forkFor_advances {n : Node} {cs : NodeSet} (position : Nat) (hp : p.Draft)
    (hn : p.nodes.get? id = some { n with children := cs }) (hc : child ∈ cs)
    (room : p.nextId + 1 < Word.limit) :
    Advances p (after (forkFor id n position child) p) ∧
      (after (forkFor id n position child) p).nodes.get? id = some { n with children := cs.erase child } := by
  rw [after_congr (forkFor_eq hp.toLinked hn hc room), after_bind_pure]
  have hfeeds : p.Feeds id child := (hp.children hn).mp hc
  have hne : child ≠ id := hp.ne_of_feeds hfeeds |>.symm
  exact ⟨(hp.advances_forked hn hc room).of_outline_eq (refreshStorage_redraws _),
    (refreshStorage_elsewhere hne _).trans (hp.get?_forked_self hn hc)⟩

/-- The copies for the children that are still to come. The node itself is left with the
children that have got none. -/
theorem forkFors_advance {n : Node} {cs : NodeSet} {l : List (NodeId × Nat)} (hp : p.Draft)
    (hn : p.nodes.get? id = some { n with children := cs }) (hl : ∀ c ∈ l.map Prod.fst, c ∈ cs)
    (hnodup : (l.map Prod.fst).Nodup) :
    Advances p (after (l.mapM fun (child, position) => forkFor id n position child) p) := by
  induction l generalizing p cs with
  | nil => exact .refl hp
  | cons a l ih =>
    obtain ⟨child, position⟩ := a
    rw [List.mapM_cons]
    rw [List.map_cons, List.nodup_cons] at hnodup
    by_cases room : p.nextId + 1 < Word.limit
    case neg =>
      rw [after_bind_of_error (forkFor_eq_error room)]
      exact .refl hp
    obtain ⟨h, hr⟩ := forkFor_advances position hp hn (hl child (by simp)) room
    cases run : forkFor id n position child p with
    | error e r =>
      rw [after_of_error run] at h
      rw [after_bind_of_error run]
      exact h
    | ok copy r =>
      rw [after_of_ok run] at h hr
      rw [after_bind_of_ok run, after_bind_pure]
      refine h.trans (ih h.draft hr (fun c hc => IdSet.mem_erase.mpr ⟨hl c (by simp [hc]), ?_⟩) hnodup.2)
      rintro rfl
      exact hnodup.1 hc

theorem forkNode_advances (hp : p.Draft) : Advances p (after (forkNode id) p) := by
  have hcases : FailsOr (fun r => ∃ n children, p.nodes.get? id = some n ∧
      p.sortedChildren id = .ok children ∧ r = ((children.zipIdx.drop 1).mapM
        fun (child, position) => forkFor id n position child : Edit (List NodeId)) p) p (forkNode id p) :=
    .bind node_leads fun n hfound => .bind ask_leads fun children hsorted =>
      .done ⟨n, children, (run_node.mp hfound).1, (run_ask.mp hsorted).1, rfl⟩
  rcases hcases with ⟨e, hfail⟩ | ⟨n, children, hn, hsorted, heq⟩
  · rw [after_of_error hfail]
    exact .refl hp
  · rw [after_congr heq]
    have hperm := sortedChildren_perm hp.toLinked hn hsorted
    have hdrop : (children.zipIdx.drop 1).map Prod.fst = children.drop 1 := by
      rw [List.map_drop, List.zipIdx_map_fst]
    have hn' : p.nodes.get? id = some { n with children := n.children } := hn
    refine forkFors_advance hp hn' ?_ ?_ <;> rw [hdrop]
    · exact fun c hc => IdSet.mem_toList.mp (hperm.mem_iff.mp (List.mem_of_mem_drop hc))
    · exact (hperm.nodup_iff.mpr (IdSet.nodup_toList _)).drop

end Edit

-- ---------------------------------------------------------------------------
-- Any surgery
-- ---------------------------------------------------------------------------

/-- A call of a surgical edit. -/
inductive Surgery where
  | addCreate (rel : Relation)
  | insertNode (op : Op) (name : String) (inputs : Inputs)
  | addOrphan (op : Op) (rel : Relation)
  | insertBetween (parent child new : NodeId)
  | insertAfterAll (parent new : NodeId)
  | removeNode (id : NodeId)
  | forkNode (id : NodeId)
  | pushDown (top bottom : NodeId)
  | replaceOp (id : NodeId) (op : Op)
  | refresh (id : NodeId)
  | refreshStorage (id : NodeId)
  | refreshAll

namespace Surgery

open Plan

def edit : Surgery → Edit Unit
  | addCreate rel => discard (Edit.addCreate rel)
  | insertNode op name inputs => discard (Edit.insertNode op name inputs)
  | addOrphan op rel => discard (Edit.addOrphan op rel)
  | insertBetween parent child new => Edit.insertBetween parent child new
  | insertAfterAll parent new => Edit.insertAfterAll parent new
  | removeNode id => Edit.removeNode id
  | forkNode id => discard (Edit.forkNode id)
  | pushDown top bottom => discard (Edit.pushDown top bottom)
  | replaceOp id op => Edit.replaceOp id op
  | refresh id => Edit.refresh id
  | refreshStorage id => Edit.refreshStorage id
  | refreshAll => Edit.refreshAll

/-- What a caller sees to: no node is spliced in below itself, and a move that passes its
checks can be carried out. -/
def Proper (p : Plan) : Surgery → Prop
  | insertAfterAll parent new => new ≠ parent
  | pushDown top bottom => (∃ copies q, Edit.pushDown top bottom p = .ok copies q) ∨
      ∃ fault q, Edit.checkPushDown top bottom p = .error fault q
  | _ => True

/-- A call keeps the plan a draft, whatever comes of it. -/
theorem advances {p : Plan} (call : Surgery) (hp : p.Draft) (proper : call.Proper p) :
    Advances p (after call.edit p) := by
  cases call <;> simp only [edit, after_discard]
  case addCreate => exact Edit.addCreate_advances hp
  case insertNode => exact Edit.insertNode_advances hp
  case addOrphan => exact Edit.addOrphan_advances hp
  case insertBetween => exact Edit.insertBetween_advances hp
  case insertAfterAll => exact Edit.insertAfterAll_advances hp proper
  case removeNode => exact Edit.removeNode_advances hp
  case forkNode => exact Edit.forkNode_advances hp
  case pushDown top bottom =>
    rcases proper with ⟨copies, q, run⟩ | ⟨fault, q, hcheck⟩
    · rw [after_of_ok run]
      exact Edit.pushDown_advances hp run
    · rw [Edit.pushDown, after_bind_of_error hcheck,
        ← show p = q from Edit.checkPushDown_leads.of_error hcheck]
      exact .refl hp
  case replaceOp => exact Edit.replaceOp_advances hp
  case refresh => exact (Advances.refl hp).of_outline_eq (Edit.refresh_redraws _)
  case refreshStorage => exact (Advances.refl hp).of_outline_eq (Edit.refreshStorage_redraws _)
  case refreshAll => exact (Advances.refl hp).of_outline_eq (Edit.refreshAll_redraws _)

end Surgery

namespace Plan

variable {p : Plan}

/-- The plan has been made from the empty one by surgical edits. -/
inductive Drafted : Plan → Prop
  | empty : Drafted ∅
  | edit {p : Plan} (call : Surgery) : Drafted p → call.Proper p → Drafted (after call.edit p)

theorem Drafted.draft (h : p.Drafted) : p.Draft := by
  induction h with
  | empty => exact .empty
  | edit call _ proper ih => exact (call.advances ih proper).draft

/-- The records of the nodes agree with each other. -/
structure Consistent (p : Plan) : Prop where
  keyed : ∀ k n, p.nodes.get? k = some n → n.id = k ∧ k < p.nextId
  edges : ∀ u v, (∃ n, p.nodes.get? u = some n ∧ v ∈ n.children) ↔
    ∃ m, p.nodes.get? v = some m ∧ u ∈ m.parents
  parents : ∀ k n, p.nodes.get? k = some n → ∀ u, u ∈ n.parents ↔ u ∈ n.inputs.ids
  shaped : ∀ k n, p.nodes.get? k = some n →
    (n.inputs = .none ∧ n.parents = ∅) ∨ n.inputs.fits n.op.arity = true
  roots : ∀ k ∈ p.roots, ∃ n, p.nodes.get? k = some n ∧ n.parents = ∅
  acyclic : ∀ k, ¬ Relation.TransGen p.Edge k k

theorem Linked.parents_eq_empty {k : NodeId} {n : Node} (hp : p.Linked) (hn : p.nodes.get? k = some n)
    (hids : n.inputs.ids = []) : n.parents = ∅ := by
  ext u
  simp [hp.parents hn, hids]

theorem Draft.consistent (hp : p.Draft) : p.Consistent where
  keyed _ _ hn := ⟨hp.keyed hn, hp.below hn⟩
  edges := hp.edges
  parents _ _ hn _ := hp.parents hn
  shaped k n hn := (hp.shaped hn).imp_left fun hnone =>
    ⟨hnone, hp.parents_eq_empty hn (by rw [hnone]; rfl)⟩
  roots k hk := by
    obtain ⟨n, hn, hids⟩ := hp.roots hk
    exact ⟨n, hn, hp.parents_eq_empty hn hids⟩
  acyclic := hp.acyclic

/-- After any surgery the records of the nodes agree. A further call never takes the next number
back, and what it adds has a number that had not been given out. -/
theorem Drafted.consistent_and_fresh (h : p.Drafted) : p.Consistent ∧
    ∀ call : Surgery, call.Proper p → p.nextId ≤ (after call.edit p).nextId ∧
      ∀ k, (after call.edit p).contains k = true → p.contains k = true ∨ p.nextId ≤ k := by
  refine ⟨h.draft.consistent, fun call proper => ?_⟩
  have hadvances := call.advances h.draft proper
  refine ⟨hadvances.nextId_le, fun k hk => ?_⟩
  obtain ⟨n, hn⟩ := Option.isSome_iff_exists.mp hk
  exact hadvances.fresh hn

/-- Whether the move of a node above its parent finishes. -/
def canPushDown (p : Plan) (top bottom : NodeId) : Bool :=
  match Edit.pushDown top bottom p with
  | .ok .. => true
  | .error .. => false

theorem proper_of_canPushDown {top bottom : NodeId} (h : p.canPushDown top bottom = true) :
    (Surgery.pushDown top bottom).Proper p := by
  unfold canPushDown at h
  split at h
  · exact .inl ⟨_, _, ‹_›⟩
  · cases h

/-- A relation is taken twice, its rows are counted, and the count is moved above the
concatenation. The number of the count is not given out again. -/
theorem Drafted.consistent_and_fresh_countTwice : ∃ p : Plan, p.Drafted ∧ p.contains 4 = true ∧
    p.contains 2 = false ∧ p.nextId = 5 ∧ p.Consistent ∧ ∀ call : Surgery, call.Proper p →
      p.nextId ≤ (after call.edit p).nextId ∧
      ∀ k, (after call.edit p).contains k = true → p.contains k = true ∨ p.nextId ≤ k := by
  let rel : Relation := .owning "a" [.fresh "x" .integer] (.single (.singleton 1) (by decide))
  have h₁ := Drafted.empty.edit (.addCreate rel) trivial
  have h₂ := h₁.edit (.insertNode .concat "b" (.nary [0, 0])) trivial
  have h₃ := h₂.edit (.insertNode (.numRows "n") "c" (.unary 1)) trivial
  have h₄ := h₃.edit (.pushDown 1 2) (proper_of_canPushDown (by decide +kernel))
  exact ⟨_, h₄, by decide +kernel, by decide +kernel, by decide +kernel, h₄.consistent_and_fresh⟩

end Plan

end JointPlan
