import JointPlan.Proofs.Compiling

/-!
# Passes keep plans valid

Every change of shape leaves the one node without readers where it is and gives no other
node up: a new node is read, and a node that loses a reader keeps another. So a pass
takes a well-formed plan that delivers to some recipients to one that delivers to the
same recipients at the same node, whatever labels and parameters the plan has. A pass that
runs out of numbers fails, and never gives a number out twice.
-/

namespace JointPlan

namespace Plan

variable {p q : Plan} {s k X parent : NodeId} {recipients : PartySet}

/-- A coherent plan that ends where it collects for the recipients. -/
structure Delivers (p : Plan) (s : NodeId) (recipients : PartySet) : Prop
    extends p.EndsIn s recipients where
  coherent : p.Coherent

-- ---------------------------------------------------------------------------
-- Changes of shape
-- ---------------------------------------------------------------------------

theorem Delivers.of_outline_eq (hp : p.Delivers s recipients) (h : q.outline = p.outline) :
    q.Delivers s recipients where
  toEndsIn := hp.toEndsIn.of_outline_eq h
  coherent := hp.coherent.of_outline_eq h

theorem Spliced.delivers {cs : NodeSet} {op : Op} {rel : Relation} {c : NodeId}
    (h : p.Spliced parent cs op rel q) (hp : p.Delivers s recipients) (hc : c ∈ cs) :
    q.Delivers s recipients := by
  obtain ⟨n, hn, hcs⟩ := h.subset
  have hfeeds : p.Feeds parent c := (hp.coherent.children hn).mp (hcs c hc)
  have hparent : parent ≠ s := hp.ne_of_reader hn (hcs c hc)
  have hspliced : (p.splice parent cs op rel).Coherent := hp.coherent.splice hn hcs h.arity h.room
  have hnew : c ≠ p.nextId := fun h => hp.coherent.not_feeds_nextId (h ▸ hfeeds)
  obtain ⟨⟨e, he, hop⟩, hnone, hsome⟩ := hp.coherent.endsIn_iff.mp hp.toEndsIn
  have hs : s ≠ p.nextId := hp.coherent.ne_nextId he
  refine ⟨EndsIn.of_outline_eq (hspliced.endsIn_iff.mpr ⟨?_, fun v => ?_, fun k m hm hk => ?_⟩) h.outline,
    h.coherent hp.coherent⟩
  · exact ⟨_, by rw [get?_splice, if_neg hs, he, Option.map_some], by rw [relinked_op, hop]⟩
  · rw [feeds_splice]
    split_ifs
    · exact hparent.symm
    · rintro (⟨h, -⟩ | ⟨-, h⟩)
      · exact hs h
      · exact hnone v h
    · exact hnone v
  · rcases get?_splice_eq_some hm with ⟨rfl, -⟩ | ⟨hk', m', hm', -⟩
    · refine ⟨c, ?_⟩
      rw [feeds_splice, if_neg hnew, if_pos hc]
      exact .inl ⟨rfl, hfeeds⟩
    · by_cases hkp : k = parent
      · refine ⟨p.nextId, ?_⟩
        rw [feeds_splice, if_pos rfl]
        exact hkp
      · obtain ⟨v, hv⟩ := hsome k m' hm' hk
        refine ⟨v, ?_⟩
        rw [feeds_splice, if_neg fun h => hp.coherent.not_feeds_nextId (h ▸ hv)]
        split_ifs
        · exact .inr ⟨hkp, hv⟩
        · exact hv

/-- The node that is copied keeps a reader. -/
theorem Forked.delivers {id child other : NodeId} {n : Node} {rel : Relation}
    (h : p.Forked id child n rel q) (hp : p.Delivers s recipients) (hother : other ∈ n.children)
    (hne : other ≠ child) : q.Delivers s recipients := by
  have hfeeds : p.Feeds id child := (hp.coherent.children h.node).mp h.member
  have hfeeds' : p.Feeds id other := (hp.coherent.children h.node).mp hother
  have hid : id ≠ s := hp.ne_of_reader h.node h.member
  have hforked : (p.forked id child n rel).Coherent := hp.coherent.forked h.node h.member h.room
  have hnew {u v : NodeId} (h : p.Feeds u v) : v ≠ p.nextId := fun hv =>
    hp.coherent.not_feeds_nextId (hv ▸ h)
  obtain ⟨⟨e, he, hop⟩, hnone, hsome⟩ := hp.coherent.endsIn_iff.mp hp.toEndsIn
  have hs : s ≠ p.nextId := hp.coherent.ne_nextId he
  refine ⟨EndsIn.of_outline_eq (hforked.endsIn_iff.mpr ⟨?_, fun v => ?_, fun k m hm hk => ?_⟩) h.outline,
    h.coherent hp.coherent⟩
  · refine ⟨forkedNode id child p.nextId n s e, ?_, by rw [forkedNode_op, hop]⟩
    rw [Plan.forked, IdMap.get?_insert, if_neg hs, IdMap.get?_map, he, Option.map_some]
  · rw [feeds_forked]
    split_ifs
    · exact fun h' => hnone id ⟨n, h.node, h'⟩
    · rintro (⟨h, -⟩ | ⟨-, h⟩)
      · exact hs h
      · exact hnone v h
    · exact hnone v
  · rcases get?_forked_eq_some hm with ⟨rfl, -⟩ | ⟨hk', m', hm', -⟩
    · refine ⟨child, ?_⟩
      rw [feeds_forked, if_neg (hnew hfeeds), if_pos rfl]
      exact .inl ⟨rfl, hfeeds⟩
    · by_cases hki : k = id
      · refine ⟨other, ?_⟩
        rw [feeds_forked, if_neg (hnew hfeeds'), if_neg hne]
        exact hki ▸ hfeeds'
      · obtain ⟨v, hv⟩ := hsome k m' hm' hk
        refine ⟨v, ?_⟩
        rw [feeds_forked, if_neg (hnew hv)]
        split_ifs
        · exact .inr ⟨hki, hv⟩
        · exact hv

/-- The node that is moved is not the one that delivers. -/
theorem Pushed.delivers {top bottom : NodeId} {t b : Node} (h : p.Pushed top bottom t b q)
    (hp : p.Delivers s recipients) (hbottom : bottom ≠ s) : q.Delivers s recipients := by
  have hc := hp.coherent
  have hpushed : (p.pushed top bottom t b fun i => b.rel.rename s!"{b.rel.name}_{i}").Coherent :=
    hc.pushed h.upper h.lower h.fed h.room
  have hfeeds : p.Feeds top bottom := ⟨b, h.lower, by simp [h.fed]⟩
  have htop : top ≠ bottom := fun h => hc.not_feeds_self (h ▸ hfeeds)
  have hlt {k : NodeId} {n : Node} (hn : p.nodes.get? k = some n) : ¬ p.nextId ≤ k := Nat.not_le.mpr (hc.below hn)
  obtain ⟨⟨e, he, hop⟩, hnone, hsome⟩ := hc.endsIn_iff.mp hp.toEndsIn
  refine ⟨EndsIn.of_outline_eq (hpushed.endsIn_iff.mpr ⟨?_, fun v => ?_, fun k m hm hk => ?_⟩) h.outline,
    h.coherent hc⟩
  · exact ⟨_, get?_pushed_old hc.toLinked he hbottom.symm, by rw [pushedNode_op, hop]⟩
  · rw [feeds_pushed hc.toLinked h.upper]
    split_ifs
    · exact fun hs => hnone top ⟨t, h.upper, List.mem_of_getElem? hs⟩
    · exact id
    · exact fun hs => hlt he hs.1
    · rintro (⟨rfl, -⟩ | ⟨-, hs⟩)
      · exact hnone bottom hfeeds
      · exact hnone v hs
    · exact hnone v
  · rcases get?_pushed_eq_some hc.toLinked hm with ⟨i, input, rfl, hi, -⟩ | ⟨hk', hkb, m', hm', -⟩
    · -- a copy is read by the node that it has come above
      refine ⟨top, ?_⟩
      rw [feeds_pushed hc.toLinked h.upper, if_neg (hlt h.upper), if_neg htop, if_pos rfl]
      exact ⟨Nat.le_add_right _ _, Nat.add_lt_add_left (List.getElem?_eq_some_iff.mp hi).1 _⟩
    · by_cases hkt : k = top
      · -- what was read from the moved node is read from the one below it
        obtain ⟨c, hread⟩ := hsome bottom b h.lower hbottom
        have ⟨n, hn, _⟩ := hread
        have hcb : c ≠ bottom := fun h => hc.not_feeds_self (h ▸ hread)
        have hct : c ≠ top := fun h => hc.not_feeds_back hfeeds (h ▸ hread)
        refine ⟨c, ?_⟩
        rw [feeds_pushed hc.toLinked h.upper, if_neg (hlt hn), if_neg hcb, if_neg hct,
          if_pos ((hc.children h.lower).mpr hread)]
        exact .inl ⟨hkt, hread⟩
      · obtain ⟨v, hread⟩ := hsome k m' hm' hk
        have ⟨n, hn, hmem⟩ := hread
        by_cases hvt : v = top
        · -- an input of the upper node is read by a copy
          subst hvt
          cases h.upper.symm.trans hn
          obtain ⟨i, hi⟩ := List.getElem?_of_mem hmem
          refine ⟨p.nextId + i, ?_⟩
          rwa [feeds_pushed hc.toLinked h.upper, if_pos (Nat.le_add_right _ _), Nat.add_sub_cancel_left]
        · have hvb : v ≠ bottom := by
            rintro rfl
            cases h.lower.symm.trans hn
            exact hkt (by simpa [h.fed] using hmem)
          refine ⟨v, ?_⟩
          rw [feeds_pushed hc.toLinked h.upper, if_neg (hlt hn), if_neg hvb, if_neg hvt]
          split_ifs
          · exact .inr ⟨hkb, hread⟩
          · exact hread

/-- Another operator at a node that is not the one that delivers. -/
theorem Exchanged.delivers {x : Node} {part : Op} (h : p.Exchanged X x part q) (hp : p.Delivers s recipients)
    (hX : X ≠ s) : q.Delivers s recipients := by
  have hgraph : SameGraph p (p.set X { x with op := part }) := .set_op h.node (h.unary.trans h.arity.symm)
  have hset : (p.set X { x with op := part }).Coherent := hgraph.coherent hp.coherent
  obtain ⟨⟨e, he, hop⟩, hnone, hsome⟩ := hp.coherent.endsIn_iff.mp hp.toEndsIn
  refine Delivers.of_outline_eq ⟨hset.endsIn_iff.mpr ⟨⟨e, ?_, hop⟩, fun v => ?_, fun k m hm hk => ?_⟩, hset⟩
    h.outline
  · rw [get?_set, if_neg hX.symm, he]
  · rw [hgraph.feeds]
    exact hnone v
  · simp only [hgraph.feeds]
    obtain ⟨m', hm', -⟩ := hgraph.old hm
    exact hsome k m' hm' hk

theorem Appended.delivers {ops : List Op} (h : p.Appended X ops q) (hp : p.Delivers s recipients)
    (hX : X ≠ s) : q.Delivers s recipients := by
  induction h with
  | nil => exact hp
  | cons hn first _ ih =>
    have hread : _ ≠ ∅ := fun hempty => hX (hp.only _ _ hn hempty)
    obtain ⟨c, hc⟩ := IdSet.exists_mem_of_ne_empty hread
    obtain ⟨e, he, -⟩ := hp.sink
    exact ih (first.delivers hp hc) (hp.coherent.ne_nextId he).symm

theorem Reworked.delivers {K : Op → Prop} (h : Reworked K p q) (hp : p.Delivers s recipients) :
    q.Delivers s recipients := by
  induction h with
  | refl => exact hp
  | derived _ hrenewed ih => exact ih.of_outline_eq hrenewed.outline
  | inserted _ _ hinserted ih =>
    obtain ⟨rel, spliced⟩ := hinserted.spliced
    obtain ⟨c, hc⟩ := hinserted.readers
    exact spliced.delivers ih hc

theorem Distributed.delivers {D : NodeId} {t x t' b : Node} {part : Op} {ops : List Op} {p₁ p₂ : Plan}
    (h : p.Distributed D X t x part ops q p₁ p₂ t' b) (hp : p.Delivers s recipients) :
    q.Delivers s recipients := by
  have hX : X ≠ s := by
    have hread : x.children ≠ ∅ := fun hempty => absurd (hempty ▸ h.single) (by decide)
    obtain ⟨c, hc⟩ := IdSet.exists_mem_of_ne_empty hread
    exact hp.ne_of_reader h.lower hc
  exact h.pushed.delivers (h.appended.delivers (h.toExchanged.delivers hp hX) hX) hX

end Plan

namespace PushDown

open Plan Edit

variable {p q : Plan} {s X : NodeId} {x : Node} {recipients : PartySet}

theorem Visited.delivers (h : Visited p X x q) (hp : p.Delivers s recipients)
    (hx : p.nodes.get? X = some x) : q.Delivers s recipients := by
  cases h with
  | skipped same _ => exact same ▸ hp
  | distributed h => exact h.delivers hp
  | copied _ _ run =>
    have start : p.Delivers s recipients ∧ p.nodes.get? X = some { x with children := x.children } := ⟨hp, hx⟩
    obtain ⟨cs, ⟨h, -⟩, -⟩ := forkNode_loop hp.coherent.toLinked hx
      (motive := fun cs r => r.Delivers s recipients ∧ r.nodes.get? X = some { x with children := cs })
      start (fun child other position cs copy r t h hc hother hne run => by
        obtain ⟨rfl, forked⟩ := forked_of_forkFor h.1.coherent.toLinked h.2 hc run
        exact ⟨forked.delivers h.1 hother hne, forked.left⟩) run
    exact h

end PushDown

namespace Pass

open Plan Edit

variable {p q : Plan} {s : NodeId} {recipients : PartySet} {pass : Pass} {u : Unit}

theorem pushDown_delivers (hp : p.Delivers s recipients) (run : pushDown.run p = .ok u q) :
    q.Delivers s recipients := by
  obtain ⟨order, r, horder, hsteps, hfinish⟩ := run_run.mp run
  have hloop : r.Delivers s recipients := by
    refine forM_loop (motive := fun _ r => r.Delivers s recipients) ?_ hp hsteps
    intro X rest r t hr hstep
    rcases run_step.mp hstep with ⟨-, rfl⟩ | ⟨x, hx, hvisit⟩
    · exact hr
    · exact (PushDown.visit_visited hr.coherent hx hvisit).delivers hr hx
  exact hloop.of_outline_eq (refreshAll_redraws.of_ok hfinish)

theorem delivers (hpass : pass ∈ all) (hp : p.Delivers s recipients) (run : pass.run p = .ok u q) : q.Delivers s recipients := by
  have hreworks {K : Op → Prop} (h : Reworks K pass.run) : q.Delivers s recipients :=
    (h hp.coherent run).delivers hp
  simp only [all, boundaries, List.mem_cons, List.not_mem_nil, or_false] at hpass
  rcases hpass with rfl | rfl | rfl | rfl | rfl | rfl
  · exact pushDown_delivers hp run
  · exact hreworks (K := fun _ => True) pushUp_reworks
  · exact hreworks insertClose_reworks
  · exact hreworks insertOpen_reworks
  · exact hreworks insertRead_reworks
  · exact hreworks insertStore_reworks

/-- A pass that finishes takes a well-formed and valid plan to a well-formed and valid plan that
delivers to the same recipients at the same node. -/
theorem wellFormed_run (hpass : pass ∈ all) (hp : p.WellFormed) (hvalid : p.validate = .ok ())
    (run : pass.run p = .ok () q) :
    q.WellFormed ∧ q.validate = .ok () ∧ ∃ n m recipients, p.sinks = [n] ∧ q.sinks = [m] ∧ m.id = n.id ∧
      n.op = .collect recipients ∧ m.op = .collect recipients := by
  have hcoherent := hp.coherent
  obtain ⟨s, recipients, hends⟩ := hcoherent.endsIn_of_validate hvalid
  have hq := delivers hpass ⟨hends, hcoherent⟩ run
  obtain ⟨n, hsinks, hn, hop⟩ := hends.sinks_eq hcoherent
  obtain ⟨m, hsinks', hm, hop'⟩ := hq.sinks_eq hq.coherent
  exact ⟨hq.coherent.wellFormed, hq.validate hq.coherent, n, m, recipients, hsinks, hsinks',
    hm.trans hn.symm, hop, hop'⟩

/-- Whether the passes finish, one after another, and each of them changes the plan. -/
def eachChanges : List Pass → Plan → Bool
  | [], _ => true
  | pass :: rest, p => runsTo pass.run p fun q => q ≠ p && eachChanges rest q

theorem exists_of_eachChanges {before : List Pass} (after : List Pass) (hbefore : ∀ pass ∈ before, pass ∈ all)
    (hp : p.Delivers s recipients) (h : eachChanges (before ++ after) p = true) :
    ∃ q, before.forM run p = .ok () q ∧ q.Delivers s recipients ∧ eachChanges after q = true := by
  induction before generalizing p with
  | nil => exact ⟨p, rfl, hp, h⟩
  | cons pass before ih =>
    obtain ⟨r, hrun, hr⟩ := exists_of_runsTo h
    have hdelivers := delivers (hbefore pass List.mem_cons_self) hp hrun
    obtain ⟨q, hruns, hq⟩ := ih (fun x hx => hbefore x (List.mem_cons_of_mem _ hx)) hdelivers
      (Bool.and_eq_true_iff.mp hr).2
    exact ⟨q, run_forM_cons.mpr ⟨r, hrun, hruns⟩, hq⟩

/-- Every pass finds something to do when it comes after the others. -/
theorem wellFormed_run_distinctAndSmall : ∃ p₀ w,
    Workflow.write Workflow.distinctAndSmall .empty = .ok p₀ w ∧
    ∀ before pass after, all = before ++ pass :: after → ∃ p q, before.forM run p₀ = .ok () p ∧
      p.WellFormed ∧ p.validate = .ok () ∧ pass.run p = .ok () q ∧ q ≠ p ∧
      q.WellFormed ∧ q.validate = .ok () ∧ ∃ n m recipients, p.sinks = [n] ∧ q.sinks = [m] ∧
        m.id = n.id ∧ n.op = .collect recipients ∧ m.op = .collect recipients := by
  have hwrites : Workflow.writesTo Workflow.distinctAndSmall (eachChanges all) = true := by cbv
  obtain ⟨p₀, w, hwrite, hchanges⟩ := Workflow.exists_of_writesTo hwrites
  have hp₀ : p₀.Built := ⟨_, w, hwrite⟩
  have hcoherent := hp₀.simple.coherent
  obtain ⟨s, recipients, hends⟩ := hcoherent.endsIn_of_validate hp₀.validate
  refine ⟨p₀, w, hwrite, fun before pass after hall => ?_⟩
  have hmem : ∀ x ∈ before ++ pass :: after, x ∈ all := fun x hx => hall ▸ hx
  obtain ⟨p, hbefore, hp, hafter⟩ := exists_of_eachChanges (pass :: after)
    (fun x hx => hmem x (List.mem_append_left _ hx)) ⟨hends, hcoherent⟩ (hall ▸ hchanges)
  obtain ⟨q, hrun, hq⟩ := exists_of_runsTo hafter
  have hwell := hp.coherent.wellFormed
  have hvalid := hp.validate hp.coherent
  exact ⟨p, q, hbefore, hwell, hvalid, hrun, of_decide_eq_true (Bool.and_eq_true_iff.mp hq).1,
    wellFormed_run (hmem pass (List.mem_append_right _ List.mem_cons_self)) hwell hvalid hrun⟩

end Pass

end JointPlan
