import JointPlan.Proofs.Idling

/-!
# Compiling twice

A plan that has been compiled can be compiled again. A visit that changes anything but
what is derived puts a node in, and what is derived is a function of the rest, so a second
run leaves the plan exactly as it is unless it puts nodes in. It may put some in: what has
been opened is stored with each party on its own, so a node that one party could compute
before needs MPC when the first run ends. It does not when the audit of the compiled plan
passes and joint computations get their inputs as shares.
-/

namespace JointPlan

namespace Plan

variable {p q r : Plan} {X : NodeId} {rest : List NodeId} {x : Node} {K : Op → Prop}

/-- New nodes have come in, or nothing has changed but what is derived. -/
def Outgrown (p q : Plan) : Prop := q.skeleton = p.skeleton ∨ p.nextId < q.nextId

namespace Outgrown

theorem refl : Outgrown p p := .inl rfl

theorem trans (h₁ : Outgrown p q) (h₂ : Outgrown q r) : Outgrown p r := by
  rcases h₁ with hpq | hpq <;> rcases h₂ with hqr | hqr
  · exact .inl (hqr.trans hpq)
  · exact .inr (nextId_eq_of_skeleton_eq hpq ▸ hqr)
  · exact .inr (nextId_eq_of_skeleton_eq hqr ▸ hpq)
  · exact .inr (hpq.trans hqr)

end Outgrown

theorem Reworked.outgrown (h : Reworked K p q) (hs : p.Sound) : Outgrown p q := by
  induction h with
  | refl => exact .refl
  | derived hpq hrenewed ih => exact ih.trans (.inl (hrenewed.touched (hpq.sound hs)).skeleton)
  | inserted _ _ hinserted ih => exact ih.trans (.inr (hinserted.nextId_eq ▸ Nat.lt_succ_self _))

/-- There is a copy of the work for each input of the concatenation, and it has one. -/
theorem Distributed.outgrown {D : NodeId} {t t' b : Node} {part : Op} {ops : List Op} {p₁ p₂ : Plan}
    (h : p.Distributed D X t x part ops q p₁ p₂ t' b) (hp : p.Coherent) (hs : p.Sound) : Outgrown p q := by
  have hnext : q.nextId = p₂.nextId + t'.inputs.ids.length := nextId_eq_of_outline_eq h.pushed.outline
  have hcopies : 0 < t'.inputs.ids.length := by
    rw [h.upper_eq hs hp]
    exact List.length_pos_iff.mpr (hp.fed h.upper (by simp [h.concat]))
  refine .inr ?_
  calc p.nextId ≤ p₂.nextId := h.nextId_le
    _ < p₂.nextId + t'.inputs.ids.length := Nat.lt_add_of_pos_right hcopies
    _ = q.nextId := hnext.symm

end Plan

open Plan

theorem PushDown.Visited.outgrown {p q : Plan} {X : NodeId} {x : Node} (h : Visited p X x q) (hp : p.Orderly)
    (hx : p.nodes.get? X = some x) : Outgrown p q := by
  cases h with
  | skipped same _ => exact same ▸ .refl
  | distributed h => exact h.outgrown hp.coherent hp.sound
  | copied _ _ run =>
    exact forkNode_forks (motive := Outgrown p) hp.coherent hx .refl
      (fun _ forked h => h.trans (.inr (forked.nextId_eq ▸ Nat.lt_succ_self _))) run

theorem Pass.pushDown_outgrown {p q : Plan} {u : Unit} (hp : p.Orderly) (run : pushDown.run p = .ok u q) : Outgrown p q := by
  obtain ⟨r, h, -, -, -, hskeleton⟩ := exists_of_pushDown (motive := Outgrown p) hp .refl
    (fun hsweep hx hvisited h => h.trans (hvisited.outgrown hsweep.toOrderly hx)) run
  exact h.trans (.inl hskeleton)

namespace Edit

variable {p q q' : Plan} {optimize : Bool}

theorem prepare_outgrown (hp : p.Orderly) (run : prepare optimize p = .ok () q) :
    Outgrown p q := by
  cases optimize with
  | false =>
    obtain ⟨-, rfl⟩ := run_pure.mp run
    exact .refl
  | true =>
    obtain ⟨_, r, hdown, hup⟩ := run_bind.mp run
    have hreworks := Pass.pushUp_reworks (K := fun _ => False)
    have hr := (Pass.pushDown_serves hp hdown).1
    exact (Pass.pushDown_outgrown hp hdown).trans
      ((hreworks hr.coherent hup).outgrown hr.sound)

theorem compile_outgrown (hp : p.Orderly) (run : compile optimize p = .ok () q) :
    Outgrown p q := by
  obtain ⟨a, ha, haq⟩ := reworked_of_compile hp run
  exact (prepare_outgrown hp ha).trans (haq.outgrown (prepare_serves hp ha).1.sound)

theorem skeleton_of_widen (hp : p.Orderly) (run : widen optimize p = .ok () q) :
    q.skeleton = p.skeleton :=
  ((widen_reworks hp.coherent run).renewed.touched hp.sound).skeleton

/-- A second run that puts nothing in derives what the first one did and widens it alike. -/
theorem eq_of_skeleton_eq (hp : p.Orderly) (run : compile optimize p = .ok () q)
    (run' : compile optimize q = .ok () q') (h : q'.skeleton = q.skeleton) : q' = q := by
  obtain ⟨r, hr, hsettled, hwiden⟩ := exists_settled_of_compile hp run
  obtain ⟨r', hr', hsettled', hwiden'⟩ := exists_settled_of_compile (compile_orderly hp run).1 run'
  have hskeleton : r'.skeleton = r.skeleton := by
    rw [← skeleton_of_widen hr' hwiden', h, skeleton_of_widen hr hwiden]
  obtain rfl := hsettled.eq_of_skeleton_eq hsettled' hr.coherent.toLinked hskeleton
  rw [hwiden] at hwiden'
  cases hwiden'
  rfl

/-- Where all crossings are guarded there is nothing to divide, and the labels are widened as before. -/
theorem eq_of_prepare (hp : p.Orderly) (run : compile optimize p = .ok () q)
    (hguard : ∀ u v, q.Edge u v → q.Crosses u v → q.Guarded u v) (run' : prepare optimize q = .ok () q') : q' = q := by
  cases optimize with
  | false => exact (run_pure.mp run').2.symm
  | true =>
    have hq := (compile_orderly hp run).1
    obtain ⟨r, hr, hsettled, hwiden⟩ := exists_settled_of_compile hp run
    obtain ⟨_, r', hdown, hup⟩ := run_bind.mp run'
    have hrefresh := Pass.finish_of_stays (fun _ _ => PushDown.visit_of_guarded hq.coherent hguard) hdown
    obtain ⟨hskeleton, -, hsettled'⟩ := settled_of_refreshAll hq.coherent hq.sound.sourced hrefresh
    obtain rfl := hsettled.eq_of_skeleton_eq hsettled' hr.coherent.toLinked
      (hskeleton.trans (skeleton_of_widen hr hwiden))
    cases hwiden.symm.trans hup
    rfl

/-- Widening leaves relations where they are. -/
theorem housed_of_compile (hp : p.Orderly) (run : compile optimize p = .ok () q) : q.Housed := by
  obtain ⟨r, hr, hsettled, hwiden⟩ := exists_settled_of_compile hp run
  cases optimize with
  | false =>
    obtain ⟨-, rfl⟩ := run_pure.mp hwiden
    exact hsettled.housed
  | true =>
    obtain ⟨order, s, -, hsteps, hfinish⟩ := Pass.run_run.mp hwiden
    obtain ⟨-, rfl⟩ := run_pure.mp hfinish
    exact (Pass.widened_of_steps hr.coherent hsteps).housed hr.coherent hsettled.housed

/-- Where all crossings are guarded and all inputs of joint computations are shares no boundary is put in. -/
theorem kindred_of_insertBoundaries (hp : p.Built) (run : compile optimize p = .ok () q)
    (hguard : ∀ u v, q.Edge u v → q.Crosses u v → q.Guarded u v) (hpooled : q.Pooled)
    (run' : insertBoundaries q = .ok () q') : Kindred q q' := by
  have hsimple := hp.simple
  have hq := (compile_orderly hsimple.toOrderly run).1
  obtain ⟨hcoherent, post, hstoring⟩ := storing_of_compile hsimple.toOrderly hsimple.plain run
  obtain ⟨a, b, c, ha, hb, hc, hd⟩ := run_insertBoundaries.mp run'
  have hkindred := Pass.kindred_of_insertClose hcoherent hq.sound.numbered (housed_of_compile hsimple.toOrderly run)
    hguard hpooled ha
  have hcoherent' := hkindred.coherent hcoherent
  have hstoring' := hstoring.of_outline_eq (outline_eq_of_skeleton_eq hkindred.skeleton)
  cases (Pass.insertOpen_of_kindred hcoherent hguard hkindred).symm.trans hb
  cases (Pass.insertRead_of_handsOver hcoherent' (hstoring'.handsOver hcoherent')).symm.trans hc
  cases (Pass.insertStore_of_storing hcoherent' hstoring').symm.trans hd
  exact hkindred

/-- A plan that has been compiled can be compiled again by the same pipeline. The second run
puts new nodes in or leaves everything exactly as it is, and it does the latter if the audit
passes and all inputs of joint computations are shares. -/
theorem compile_again (optimize : Bool) (hp : p.Built) (run : compile optimize p = .ok () q)
    (hfree : ¬ Exhausts (compile optimize) q) :
    ∃ q', compile optimize q = .ok () q' ∧ (q' = q ∨ q.nextId < q'.nextId) ∧
      (q.auditBoundaries = .ok () → q.Pooled → q' = q) := by
  have hsimple := hp.simple
  have horderly := hsimple.toOrderly
  have hq := (compile_orderly horderly run).1
  obtain ⟨s, recipients, n, -, -, -, hcarries⟩ := hp.exists_carries
  obtain ⟨_, r, hr, hcarries'⟩ := (wp_compile optimize hcarries).exists_of_not_exhausts (not_exhausts_of_ok run)
  cases run.symm.trans hr
  obtain ⟨_, q', run', -⟩ := (wp_compile optimize hcarries').exists_of_not_exhausts hfree
  refine ⟨q', run', ?_, fun haudit hpooled => ?_⟩
  · rcases compile_outgrown hq run' with h | h
    · exact .inl (eq_of_skeleton_eq horderly run run' h)
    · exact .inr h
  · obtain ⟨-, hhands⟩ := handsOver_of_compile horderly hsimple.plain run
    have hguard : ∀ u v, q.Edge u v → q.Crosses u v → q.Guarded u v := by
      rcases hhands.auditBoundaries hq.coherent with ⟨-, hguard⟩ | ⟨_, _, _, -, herror⟩
      · exact hguard
      · cases haudit.symm.trans herror
    obtain ⟨a, b, c, ha, hb, hc, hwiden⟩ := exists_of_compile run'
    obtain rfl := eq_of_prepare horderly run hguard ha
    have hkindred := kindred_of_insertBoundaries hp run hguard hpooled hb
    have hb' := hq.reworked (insertBoundaries_reworks hq.coherent hb)
    obtain ⟨hskeleton, hsound, -⟩ := settled_of_refreshAll hb'.coherent hb'.sound.sourced hc
    have hc' : c.Orderly := ⟨hb'.coherent.of_skeleton_eq hskeleton, hsound⟩
    refine eq_of_skeleton_eq horderly run run' ?_
    rw [skeleton_of_widen hc' hwiden, hskeleton, hkindred.skeleton]

end Edit

-- ---------------------------------------------------------------------------
-- Instances
-- ---------------------------------------------------------------------------

namespace Workflow

/-- Whether a run puts nodes in. -/
def grows (optimize : Bool) (p : Plan) : Bool := runsTo (Edit.compile optimize) p fun q => p.nextId < q.nextId

theorem exists_of_grows {optimize : Bool} {p : Plan} (h : grows optimize p = true) :
    ∃ q, Edit.compile optimize p = .ok () q ∧ p.nextId < q.nextId := by
  obtain ⟨q, run, hlt⟩ := exists_of_runsTo h
  exact ⟨q, run, of_decide_eq_true hlt⟩

theorem grows_concatShared (optimize : Bool) : compilesTo optimize concatShared (grows optimize) = true := by
  cases optimize <;> cbv

end Workflow

namespace Edit

/-- What has been closed and opened in the first run is left alone in the second. -/
theorem compile_again_concatHeld : ∃ p w q, Workflow.write Workflow.concatHeld .empty = .ok p w ∧
    compile true p = .ok () q ∧ q.names = ["a", "b", "c", "d", "a_close", "b_close", "c_open", "c_open_read",
      "a_store", "b_store", "c_open_store"] ∧
    ¬ Exhausts (compile true) q ∧ q.auditBoundaries = .ok () ∧ q.Pooled ∧ compile true q = .ok () q := by
  have hcompiles : Workflow.compilesTo true Workflow.concatHeld (fun q =>
      (q.names = ["a", "b", "c", "d", "a_close", "b_close", "c_open", "c_open_read",
        "a_store", "b_store", "c_open_store"] ∧ q.auditBoundaries = .ok () ∧ q.Pooled) ∧
        runsTo (compile true) q fun _ => true) = true := by cbv
  obtain ⟨p, w, hwrite, q, run, htest⟩ := Workflow.exists_write_of_compilesTo hcompiles
  obtain ⟨⟨hnames, haudit, hpooled⟩, hruns⟩ := of_decide_eq_true htest
  obtain ⟨_, hagain, -⟩ := exists_of_runsTo hruns
  have hfree := not_exhausts_of_ok hagain
  obtain ⟨q', run', -, hsame⟩ := compile_again true ⟨_, w, hwrite⟩ run hfree
  exact ⟨p, w, q, hwrite, run, hnames, hfree, haudit, hpooled, hsame haudit hpooled ▸ run'⟩

/-- In the first run the concatenation does not need MPC until the shared relation has been
opened; in the second run its inputs are closed. -/
theorem compile_not_idempotent : ∃ p, p.Built ∧ ∀ optimize, ∃ q q', compile optimize p = .ok () q ∧
    compile optimize q = .ok () q' ∧ q' ≠ q := by
  obtain ⟨p, w, hwrite, hcompiles⟩ := Workflow.exists_of_compilesTo_both Workflow.grows_concatShared
  refine ⟨p, ⟨_, w, hwrite⟩, fun optimize => ?_⟩
  obtain ⟨q, run, hgrows⟩ := hcompiles optimize
  obtain ⟨q', run', hlt⟩ := Workflow.exists_of_grows hgrows
  exact ⟨q, q', run, run', fun h => absurd hlt (by rw [h]; exact lt_irrefl _)⟩

end Edit

end JointPlan
