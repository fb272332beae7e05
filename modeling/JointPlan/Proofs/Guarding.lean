import JointPlan.Proofs.Standings

namespace JointPlan

namespace Plan

open Edit Boundary

variable {p q : Plan} {c k s u x : NodeId} {n m : Node} {recipients : PartySet} {w : NodeId → Standing}

-- ---------------------------------------------------------------------------
-- What is delivered
-- ---------------------------------------------------------------------------

theorem Delivers.not_feeds (hp : p.Delivers s recipients) : ¬ p.Feeds s c :=
  (hp.coherent.toLinked.endsIn_iff.mp hp.toEndsIn).2.1 c

/-- What is delivered is read by nobody else: all nodes lead to the one that collects, and that has one input. -/
theorem Delivers.eq_of_feeds (hp : p.Delivers s recipients) (hu : p.Feeds u s) (hc : p.Feeds u c) : c = s := by
  obtain ⟨rank, hrank, hsize⟩ := hp.coherent.toLinked.exists_rank_lt_size
  obtain ⟨⟨e, he, hop⟩, -, hread⟩ := hp.coherent.toLinked.endsIn_iff.mp hp.toEndsIn
  obtain ⟨feeder, hfeeder⟩ := hp.coherent.exists_feeder he (by rw [hop]; rfl)
  -- no other node comes after the one that is read for the delivery
  have hnone : ∀ d k n, p.size - rank k = d → p.nodes.get? k = some n → k ≠ s → ¬ rank u < rank k := by
    intro d
    induction d using Nat.strong_induction_on with
    | _ d ih =>
      rintro k n rfl hn hk hlt
      obtain ⟨v, hv⟩ := hread k n hn hk
      by_cases hvs : v = s
      · rw [hvs, hfeeder] at hv
        rw [hfeeder] at hu
        exact Nat.lt_irrefl _ (hu ▸ hv ▸ hlt)
      · obtain ⟨m, hm, -⟩ := id hv
        have hkv := hrank hv
        have hlast := hsize hm
        exact ih _ (by omega) v m rfl hm hvs (hlt.trans hkv)
  obtain ⟨l, hl, -⟩ := id hc
  by_contra hcs
  exact hnone _ c l rfl hl hcs (hrank hc)

-- ---------------------------------------------------------------------------
-- What is opened
-- ---------------------------------------------------------------------------

end Plan

/-- An opening opens what several parties have a part in. -/
theorem Rule.standings_opening {final : Bool} {y : Standing} (hopened : y.opened = false)
    (hseveral : y.parties.size ≠ 1) :
    (Rule.standings final).Yields [y] .opening { y with opened := true } := by
  rintro n hop
  refine ⟨?_, ?_, ?_, ?_, ?_, ?_, ?_, ?_, ?_, ?_, ?_⟩
  all_goals simp [hop, hopened, hseveral, Rule.holders, Op.isInner, Op.isBoundary, Op.arity]

/-- What has been opened can be delivered. -/
theorem Node.Stands.collect_opened {n : Node} {recipients : PartySet} {y z : Standing}
    (h : n.Stands false [y] z) (hop : n.op = .collect recipients) :
    n.Stands false [{ y with opened := true }] { z with opened := true } where
  holders := h.holders
  quiet := h.quiet
  source := h.source
  closing st hst := by simp [hop] at hst
  opening hopening := by simp [hop] at hopening
  below _ _ _ := rfl
  inner hinner := by simp [hop, Op.isInner] at hinner
  plain := h.plain
  single hborder hunary := by simpa using h.single hborder hunary
  several hmulti := by simp [hop, Op.arity] at hmulti
  delivery hfinal := by cases hfinal

namespace Plan

open Edit Boundary

variable {p q : Plan} {c k s u x : NodeId} {n m : Node} {recipients : PartySet}
  {w : NodeId → Standing}

/-- What holds while outputs are opened: the border has openings and closings only, and the plan ends
in the delivery at `s`. -/
structure Draining (p : Plan) (s : NodeId) (recipients : PartySet) (w : NodeId → Standing) : Prop
    extends p.Upholds false w where
  unread : p.Unread
  delivers : p.Delivers s recipients
  collects : p.Placed (CollectsAt s)

/-- The standings when the output of `x` has been opened: what is delivered comes from there. -/
def drained (p : Plan) (s x : NodeId) (w : NodeId → Standing) : NodeId → Standing :=
  Function.update (Function.update w s { w s with opened := true }) p.nextId
    { w x with opened := true }

namespace Draining

variable (h : p.Draining s recipients w)

include h

/-- A joint computation feeds other joint ones, or the delivery alone. -/
theorem eq_of_local (hn : p.nodes.get? x = some n) (hinner : n.op.isInner = true)
    (hseveral : (w x).parties.size ≠ 1) (hfeeds : p.Feeds x c)
    (hlocal : p.requiresMpc c = .ok false) : c = s := by
  obtain ⟨l, hl, hx⟩ := hfeeds
  have hlinked := h.coherent.toLinked
  cases hcase : l.op.isInner with
  | true =>
    have hjoint := h.requiresMpc hl hcase
    rw [hlocal, Except.ok.injEq, eq_comm, Bool.not_eq_false', decide_eq_true_iff] at hjoint
    have hsome : (w x).parties ≠ ∅ := by
      rw [← h.members_eq hn (Op.not_isClosing_of_isInner hinner)]
      exact n.rel.storage.members_ne_empty
    have hsource := Op.isSource_of_isInner hcase (h.coherent.ne_create hl hx)
    exact absurd (h.holders.size_eq_one hl hsource hx hsome hjoint) hseveral
  | false =>
    cases hborder : l.op.isBoundary with
    | true =>
      rcases h.unread c l hl hborder with hop | ⟨st, hop⟩
      · cases hlocal.symm.trans (hlinked.requiresMpc_opening hl hop)
      · cases hlocal.symm.trans (hlinked.requiresMpc_closing hl hop)
    | false =>
      obtain ⟨r, hop⟩ := Op.eq_collect hcase hborder
      exact h.collects c l hl r hop

/-- What leaves MPC is a joint computation, and it is delivered. -/
theorem of_lower (hn : p.nodes.get? x = some n) (hop : n.op.isBoundary = false)
    (hlower : p.isLowerBoundary x = .ok true) :
    n.op.isInner = true ∧ (w x).parties.size ≠ 1 ∧ ∀ c, p.Feeds x c → c = s := by
  obtain ⟨hmpc, hlocal⟩ := (isLowerBoundary_eq_true hn).mp hlower
  have hinner : n.op.isInner = true := by
    by_contra hnot
    obtain ⟨r, hcollect⟩ := Op.eq_collect (Bool.eq_false_iff.mpr hnot) hop
    cases hmpc.symm.trans (h.coherent.toLinked.requiresMpc_collect hn hcollect)
  have hseveral : (w x).parties.size ≠ 1 := by
    intro hone
    have hjoint := h.requiresMpc hn hinner
    rw [hmpc, hone] at hjoint
    cases hjoint
  exact ⟨hinner, hseveral, fun c hc =>
    h.eq_of_local hn hinner hseveral hc (hlocal c ((h.coherent.children hn).mpr hc))⟩

theorem obeys_of_opened (hs : p.Sound) (hn : p.nodes.get? x = some n) (hinner : n.op.isInner = true)
    (hseveral : (w x).parties.size ≠ 1) (hreader : ∀ c, p.Feeds x c ↔ c = s)
    (hinserted : p.Inserted x n.children .opening q) :
    q.Obeys (.standings false) (drained p s x w) (drained p s x w) := by
  obtain ⟨rel, spliced⟩ := hinserted.spliced
  obtain ⟨e, he, hcollect, -⟩ := h.delivers.sink
  have hxs : x ≠ s := by
    rintro rfl
    exact h.coherent.not_feeds_self ((hreader x).mpr rfl)
  obtain ⟨y, hin⟩ := h.coherent.inputs_of_arity he (by rw [hcollect]; rfl)
  obtain rfl : x = y := by simpa [feeds_unary_iff he hin] using (hreader s).mpr rfl
  -- before the opening comes in, the delivery alone takes its input as opened
  have hpre : p.Obeys (.standings false) (Function.update w s { w s with opened := true })
      (Function.update (Function.update w s { w s with opened := true }) x { w x with opened := true }) := by
    intro k m hm
    by_cases hk : k = s
    · subst hk
      cases he.symm.trans hm
      have hstands := h.obeys k e he
      rw [hin] at hstands ⊢
      simpa [Rule.standings] using hstands.collect_opened hcollect
    · rw [Function.update_of_ne hk, List.map_congr_left fun u hu => ?_]
      · exact h.obeys k m hm
      · rw [Function.update_of_ne, Function.update_of_ne]
        · rintro rfl
          exact h.delivers.not_feeds ⟨m, hm, hu⟩
        · rintro rfl
          exact hk ((hreader k).mp ⟨m, hm, hu⟩)
  have hsplice : (p.splice x n.children .opening rel).Obeys (.standings false) _ _ :=
    hpre.splice h.coherent hn (.inr rfl)
      (Rule.standings_opening ((h.obeys x n hn).inner hinner) hseveral)
  rw [Function.update_idem, Function.update_eq_self_iff.mpr (Function.update_of_ne hxs ..).symm,
    Function.update_self] at hsplice
  exact hsplice.of_skeleton_eq (spliced.touched hs).skeleton

/-- When the output of a joint computation is opened, it is the delivery that reads it. -/
theorem opened (hs : p.Sound) (hn : p.nodes.get? x = some n) (hop : n.op.isBoundary = false)
    (hlower : p.isLowerBoundary x = .ok true) (hinserted : p.Inserted x n.children .opening q) :
    q.Draining s recipients (drained p s x w) := by
  obtain ⟨hinner, hseveral, hreaders⟩ := h.of_lower hn hop hlower
  have hmem {c : NodeId} : c ∈ n.children ↔ c = s := by
    refine ⟨fun hc => hreaders c ((h.coherent.children hn).mp hc), ?_⟩
    rintro rfl
    obtain ⟨c, hc⟩ := hinserted.readers
    exact hreaders c ((h.coherent.children hn).mp hc) ▸ hc
  have hreader (c : NodeId) : p.Feeds x c ↔ c = s := (h.coherent.children hn).symm.trans hmem
  have hq := hinserted.coherent h.coherent
  have hreworked : Reworked (· = .opening) p q := Reworked.refl.inserted rfl hinserted
  have hdelivers := hreworked.delivers h.delivers
  have hcollects := hreworked.collectsAt h.collects
  obtain ⟨o, ho, hopening, hemits⟩ := hinserted.new h.coherent hn
  -- all other nodes are as before
  have hold {k : NodeId} {m : Node} (hm : q.nodes.get? k = some m) (hnew : k ≠ p.nextId) (hk : k ≠ s) :
      ∃ m', p.nodes.get? k = some m' ∧ m'.op = m.op ∧ m'.rel = m.rel := by
    have halike := hinserted.framed.alike k (by simp [hnew, hmem, hk])
    obtain ⟨m', hm', hshape⟩ := halike.symm.get? hm
    exact ⟨m', hm', (congrArg Node.op hshape :), (congrArg Node.rel hshape :)⟩
  have hfeeds {u v : NodeId} (hu : q.Feeds u v) (hnew : u ≠ p.nextId) : p.Feeds u v ∨ u = x := by
    by_cases hux : u = x
    · exact .inr hux
    · exact .inl ((hinserted.feeds_old h.coherent hux hnew).mp hu)
  have hstanding {k : NodeId} (hk : (drained p s x w k).opened = false) :
      k ≠ p.nextId ∧ k ≠ s ∧ (w k).opened = false := by
    simp only [drained, Function.update_apply] at hk
    split at hk
    · cases hk
    split at hk
    · cases hk
    exact ⟨‹_›, ‹_›, hk⟩
  refine ⟨⟨hq, h.conserves.inserted_open h.coherent hinserted not_isClosing_opening
    ⟨n, hn, Op.not_isClosing_of_isInner hinner⟩, h.obeys_of_opened hs hn hinner hseveral hreader hinserted,
    ?unlabelled, ?regular, ?entry⟩, ?unread, hdelivers, hcollects⟩
  case unlabelled =>
    intro k m hm hk
    obtain ⟨hnew, hks, hk⟩ := hstanding hk
    obtain ⟨m', hm', -, hrel⟩ := hold hm hnew hks
    exact hrel ▸ h.unlabelled k m' hm' hk
  case regular =>
    intro u v m huv hm
    by_cases hnew : u = p.nextId
    · subst hnew
      cases ho.symm.trans hm
      refine Op.regular_outputStorage? hemits.storage (fun _ => ⟨_, rfl⟩) (fun r hr => ?_) nofun
      obtain rfl := List.mem_singleton.mp hr
      exact h.regular x s n ((hreader s).mpr rfl) hn
    · have hus : u ≠ s := by
        rintro rfl
        exact hdelivers.not_feeds huv
      obtain ⟨m', hm', -, hrel⟩ := hold hm hnew hus
      rcases hfeeds huv hnew with hu | rfl
      · exact hrel ▸ h.regular u v m' hu hm'
      · exact hrel ▸ h.regular u s m' ((hreader s).mpr rfl) hm'
  case entry =>
    intro u v m l huv hm hl hlinner hborder hu
    obtain ⟨hnew, hus, hu⟩ := hstanding hu
    obtain ⟨m', hm', hmop, -⟩ := hold hm hnew hus
    have hvnew : v ≠ p.nextId := by
      rintro rfl
      cases ho.symm.trans hl
      rw [hopening] at hlinner
      cases hlinner
    have hvs : v ≠ s := by
      rintro rfl
      obtain ⟨e, he, hop, -⟩ := hdelivers.sink
      cases he.symm.trans hl
      rw [hop] at hlinner
      cases hlinner
    obtain ⟨l', hl', hlop, -⟩ := hold hl hvnew hvs
    rcases hfeeds huv hnew with huv | rfl
    · exact hmop ▸ h.entry u v m' l' huv hm' hl' (hlop ▸ hlinner) (hmop ▸ hborder) hu
    · cases hn.symm.trans hm'
      rw [← hmop, hop] at hborder
      cases hborder
  case unread =>
    intro k m hm hborder
    by_cases hnew : k = p.nextId
    · subst hnew
      cases ho.symm.trans hm
      exact .inl hopening
    by_cases hks : k = s
    · subst hks
      obtain ⟨e, he, hop, -⟩ := hdelivers.sink
      cases he.symm.trans hm
      rw [hop] at hborder
      cases hborder
    obtain ⟨m', hm', hmop, -⟩ := hold hm hnew hks
    exact hmop ▸ h.unread k m' hm' (hmop ▸ hborder)

/-- Once nothing is left to be revealed, only what is opened or belongs to one party is delivered. -/
theorem upholds_of_revealing (hrevealing : Revealing [] p) : p.Upholds true w := by
  refine ⟨h.coherent, h.conserves, fun k n hn => ?_, h.unlabelled, h.regular, h.entry⟩
  refine { h.obeys k n hn with delivery := fun _ r hop i hi => ?_ }
  obtain ⟨u, hu, rfl⟩ := List.mem_map.mp hi
  obtain ⟨m, hm⟩ := h.coherent.closed ⟨n, hn, hu⟩
  obtain rfl := h.collects k n hn r hop
  have huk : p.Feeds u k := ⟨n, hn, hu⟩
  by_contra hcovered
  obtain ⟨hopened, hseveral⟩ := not_or.mp hcovered
  cases hborder : m.op.isBoundary with
  | true =>
    -- what is closed is read by a computation on shares only
    rcases h.unread u m hm hborder with hop' | ⟨st, hst⟩
    · exact hopened ((h.obeys u m hm).opening hop').1
    · have hopen := (h.obeys k n hn).single (by rw [hop]; rfl) (by rw [hop]; rfl) (w u) hi
      rw [((h.obeys u m hm).closing st hst).2] at hopen
      cases hopen
  | false =>
    cases hinner : m.op.isInner with
    | true =>
      have hjoint := h.requiresMpc hm hinner
      rw [decide_eq_false hseveral] at hjoint
      obtain ⟨c, huc, hc⟩ := hrevealing.revealed u m hm hborder List.not_mem_nil hjoint k huk
      obtain rfl := h.delivers.eq_of_feeds huk huc
      cases hc.symm.trans (h.coherent.toLinked.requiresMpc_collect hn hop)
    | false =>
      obtain ⟨r', hop'⟩ := Op.eq_collect hinner hborder
      obtain rfl := h.collects u m hm r' hop'
      exact h.coherent.not_feeds_self huk

end Draining

end Plan

namespace Pass

open Plan Edit Boundary

variable {p q : Plan} {s : NodeId} {recipients : PartySet} {w : NodeId → Standing} {u : Unit}

/-- When outputs have been opened, all that is delivered has been opened or belongs to one party. -/
theorem upholds_of_insertOpen (hp : p.Sound) (hsharing : Sharing [] p)
    (h : p.Draining s recipients w) (run : insertOpen.run p = .ok u q) : ∃ w, q.Upholds true w := by
  have hrevealing := revealing_of_insertOpen hsharing run
  obtain ⟨r, ⟨w, hr⟩, -, hfinish⟩ := exists_of_run
    (motive := fun _ r => ∃ w, r.Draining s recipients w) ⟨h.coherent, hp⟩
    (fun _ _ => insertOpen_visit_reworks) (fun _ _ => ⟨w, h⟩)
    (fun {id rest n r t} ⟨w, hr⟩ horderly hn hvisit => by
      simp only [insertOpen] at hvisit
      split at hvisit
      case isTrue =>
        obtain ⟨-, rfl⟩ := run_pure.mp hvisit
        exact ⟨w, hr⟩
      case isFalse hop =>
        obtain ⟨rfl, -⟩ | ⟨hlower, hinserted⟩ := run_openOutput hr.coherent hn hvisit
        · exact ⟨w, hr⟩
        · exact ⟨_, hr.opened horderly.sound hn (Bool.eq_false_iff.mpr hop) hlower hinserted⟩) run
  obtain ⟨-, rfl⟩ := run_pure.mp hfinish
  exact ⟨w, hr.upholds_of_revealing hrevealing⟩

end Pass

namespace Plan

open Edit Boundary

variable {p q : Plan} {k u v s : NodeId} {n m : Node} {recipients : PartySet} {final : Bool}
  {w : NodeId → Standing}

-- ---------------------------------------------------------------------------
-- What is read again
-- ---------------------------------------------------------------------------

theorem Obeys.opened_of_feeds (h : p.Obeys (.standings final) w w) (huv : p.Feeds u v)
    (hu : (w u).opened = true) : (w v).opened = true := by
  obtain ⟨n, hn, hmem⟩ := huv
  exact (h v n hn).below (w u) (List.mem_map_of_mem hmem) hu

section Handed

variable (hp : p.Coherent) (hhands : p.HandsOver) (h : p.Obeys (.standings final) w w)

include hp hhands h

/-- A read hands on what has been opened. -/
theorem HandsOver.opened_of_read (hn : p.nodes.get? k = some n) (hop : n.op = .read) :
    (w k).opened = true := by
  obtain ⟨s, o, -, ho, hos, hread⟩ := hhands.read k (opAt_eq_some.mpr ⟨n, hn, hop⟩)
  obtain ⟨m, hm, hopening⟩ := opAt_eq_some.mp ho
  have hs := h.opened_of_feeds (hp.edge_iff.mp hos) ((h o m hm).opening hopening).1
  exact h.opened_of_feeds (hp.edge_iff.mp ((hread s).mpr rfl)) hs

end Handed

/-- Standings tell all there is to know of a settled plan. -/
theorem Settled.upholds (hsettled : p.Settled) (hp : p.Orderly) (hconserves : p.Conserves)
    (hhands : p.HandsOver) (h : p.Obeys (.standings final) w w) : p.Upholds final w := by
  have hlinked := hp.coherent.toLinked
  have hboth : ∀ k n, p.nodes.get? k = some n →
      ((w k).opened = false → Relation.Unlabelled [n.rel]) ∧ n.rel.storage.Regular := fun k n hn => by
    refine hlinked.input_induction (motive := fun k n =>
      ((w k).opened = false → Relation.Unlabelled [n.rel]) ∧ n.rel.storage.Regular) ?_ hn
    intro k n hn ih
    have hstands := h k n hn
    by_cases hop : n.op = .create
    · exact ⟨fun _ => (hstands.source hop).1, (hstands.source hop).2⟩
    obtain ⟨ins, _, hins, hn', hnew⟩ := steadyAt_iff.mp (hsettled k n hn hop)
    cases hn.symm.trans hn'
    obtain ⟨ins', hins', hst⟩ := (hsettled k n hn hop).outputStorage? Node.anew_derivation hn hop
    cases hins.symm.trans hins'
    constructor
    · intro hk
      have hopening : n.op ≠ .opening := fun hop =>
        Bool.false_ne_true (hk.symm.trans (hstands.opening hop).1)
      refine Node.unlabelled_of_anew (hp.sound.inputs hins) hop (hstands.quiet hopening)
        (unlabelled_inputs hn hins fun u hu m hm => (ih u hu m hm).1 ?_) hnew
      by_contra hopened
      exact Bool.false_ne_true
        (hk.symm.trans (h.opened_of_feeds ⟨n, hn, hu⟩ (Bool.not_eq_false _ |>.mp hopened)))
    · refine Op.regular_outputStorage? hst (fun hop => hp.coherent.inputRelations_of_unary hn hop hins)
        (fun r hr => ?_) fun st hst => (hstands.closing st hst).1
      obtain ⟨u, hu, m, hm, rfl⟩ := (mem_inputRelations hins hn).mp hr
      exact (ih u hu m hm).2
  refine ⟨hp.coherent, hconserves, h, fun k n hn => (hboth k n hn).1, fun u _ n _ hn => (hboth u n hn).2, ?_⟩
  intro u v n m huv hn hm hinner hborder hu
  cases hop : n.op with
  | opening => simp [((h u n hn).opening hop).1] at hu
  | read => simp [hhands.opened_of_read hp.coherent h hn hop] at hu
  | store =>
    -- a store is read by reads or by a closing
    have hguarded := hhands.guarded_of_store (hp.coherent.edge_iff.mpr huv) (opAt_eq_some.mpr ⟨n, hn, hop⟩)
    rw [Guarded, show p.opAt v = some m.op from opAt_eq_some.mpr ⟨m, hm, rfl⟩] at hguarded
    obtain ⟨-, hread | ⟨st, hclosing⟩⟩ := hguarded
    · simp [Option.some.inj hread, Op.isInner] at hinner
    · simp [Option.some.inj hclosing, Op.isInner] at hinner
  | closing st => exact ⟨st, rfl⟩
  | _ => simp [hop, Op.isBoundary] at hborder

-- ---------------------------------------------------------------------------
-- What is guarded
-- ---------------------------------------------------------------------------

theorem not_crosses_of_eq (h : p.requiresMpc u = p.requiresMpc v) : ¬ p.Crosses u v := by
  rintro ⟨b, hu, hv⟩
  rw [h, hv] at hu
  cases b <;> cases hu

/-- A computation agrees with its inputs on whether there is something to keep secret. -/
theorem Upholds.several_iff (h : p.Upholds final w) (hn : p.nodes.get? v = some n)
    (hinner : n.op.isInner = true) (hu : u ∈ n.inputs.ids) :
    ((w u).closed = true ∨ (w u).parties.size ≠ 1) ↔ (w v).parties.size ≠ 1 := by
  have hstands := h.obeys v n hn
  have hmem : w u ∈ n.inputs.ids.map w := List.mem_map_of_mem hu
  have hsource := Op.isSource_of_isInner hinner (h.coherent.ne_create hn hu)
  obtain ⟨m, hm⟩ := h.coherent.closed ⟨n, hn, hu⟩
  by_cases hunary : n.op.arity = .unary
  · obtain ⟨x, hin⟩ := h.coherent.inputs_of_arity hn hunary
    obtain rfl : u = x := by simpa [hin] using hu
    have hparties : (w v).parties = (w u).parties := by
      simpa [hin, PartySet.unionAll_singleton] using (h.holders v n hn).2.2 hsource
    simp [hparties, hstands.single (Op.isBoundary_of_isInner hinner) hunary (w u) hmem]
  have hmulti : n.op.arity = .binary ∨ n.op.arity = .nary := by
    cases hop : n.op <;> simp_all [Op.arity, Op.isSource]
  obtain ⟨hone, hseveral⟩ := hstands.several hmulti (w u) hmem
  by_cases hv : (w v).parties.size = 1
  · have hclosed := hone hv
    have hnot : ¬ IsClosing m.op := by
      rintro ⟨st, hst⟩
      rw [((h.obeys u m hm).closing st hst).2] at hclosed
      cases hclosed
    have hsome : (w u).parties ≠ ∅ := h.members_eq hm hnot ▸ m.rel.storage.members_ne_empty
    simp [hclosed, hv, h.holders.size_eq_one hn hsource hu hsome hv]
  · refine iff_of_true ((hseveral hv).imp id fun hsame => ?_) hv
    rwa [hsame]

/-- What holds before labels are widened for the last time: handoffs are complete and the plan ends in the
delivery at `s`. -/
structure Watched (p : Plan) (s : NodeId) (recipients : PartySet) (w : NodeId → Standing) : Prop
    extends p.Upholds true w where
  handsOver : p.HandsOver
  delivers : p.Delivers s recipients
  collects : p.Placed (CollectsAt s)

namespace Watched

variable (h : p.Watched s recipients w)

include h

/-- At a bare edge something opened is read, or else the standing of what is read tells whether it is joint. -/
theorem requiresMpc_of_bare (hbare : p.Bare u v) (huv : p.Feeds u v) :
    ((w u).opened = true ∧ p.requiresMpc u = .ok false) ∨
    (((w u).opened = false ∨ (w u).closed = true) ∧
      p.requiresMpc u = .ok (decide ((w u).closed = true ∨ (w u).parties.size ≠ 1))) := by
  obtain ⟨n, hn⟩ := h.coherent.closed huv
  have hlinked := h.coherent.toLinked
  have hstands := h.obeys u n hn
  have hopAt {op : Op} (hop : n.op = op) : p.opAt u = some op := opAt_eq_some.mpr ⟨n, hn, hop⟩
  cases hinner : n.op.isInner with
  | true =>
    have hclosed := hstands.plain (Op.isBoundary_of_isInner hinner)
    refine .inr ⟨.inl (hstands.inner hinner), ?_⟩
    rw [h.requiresMpc hn hinner]
    simp [hclosed]
  | false =>
    cases hop : n.op with
    | opening => exact absurd (hopAt hop) hbare.not_opening
    | store => exact absurd (hopAt hop) hbare.not_store
    | closing st =>
      have hclosed := (hstands.closing st hop).2
      exact .inr ⟨.inr hclosed, by rw [hlinked.requiresMpc_closing hn hop]; simp [hclosed]⟩
    | read =>
      exact .inl ⟨h.handsOver.opened_of_read h.coherent h.obeys hn hop, hlinked.requiresMpc_read hn hop⟩
    | collect recipients =>
      obtain rfl := h.collects u n hn recipients hop
      exact absurd huv h.delivers.not_feeds
    | _ => simp [hop, Op.isInner] at hinner

/-- Nothing crosses without a guard. -/
theorem requiresMpc_eq_of_bare (hbare : p.Bare u v) (huv : p.Feeds u v) :
    p.requiresMpc u = p.requiresMpc v := by
  have hstart := h.requiresMpc_of_bare hbare huv
  obtain ⟨m, hm, hu⟩ := id huv
  have hlinked := h.coherent.toLinked
  have hstands := h.obeys v m hm
  have hmem : w u ∈ m.inputs.ids.map w := List.mem_map_of_mem hu
  have hopAt {op : Op} (hop : m.op = op) : p.opAt v = some op := opAt_eq_some.mpr ⟨m, hm, hop⟩
  cases hinner : m.op.isInner with
  | true =>
    rcases hstart with ⟨hopened, -⟩ | ⟨-, hmpc⟩
    · cases hopened.symm.trans (h.opened_input hm (hstands.inner hinner) hu)
    · rw [hmpc, h.requiresMpc hm hinner, decide_eq_decide.mpr (h.several_iff hm hinner hu), decide_not]
  | false =>
    cases hop : m.op with
    | opening =>
      obtain ⟨hopened, hseveral⟩ := (hstands.opening hop).2 (w u) hmem
      rcases hstart with ⟨hopened', -⟩ | ⟨-, hmpc⟩
      · cases hopened'.symm.trans hopened
      · rw [hmpc, hlinked.requiresMpc_opening hm hop, decide_eq_true (.inr hseveral)]
    | collect recipients =>
      have hclosed := hstands.single (by rw [hop]; rfl) (by rw [hop]; rfl) (w u) hmem
      rw [hlinked.requiresMpc_collect hm hop]
      rcases hstart with ⟨-, hmpc⟩ | ⟨hopened, hmpc⟩
      · exact hmpc
      · have hopened : (w u).opened = false := hopened.resolve_right (by simp [hclosed])
        have hone : (w u).parties.size = 1 := by
          simpa [hopened] using hstands.delivery rfl recipients hop (w u) hmem
        simp [hmpc, hclosed, hone]
    | store => exact absurd (hopAt hop) hbare.not_stored
    | read => exact absurd (hopAt hop) hbare.not_read
    | closing st => exact absurd (hopAt hop) (hbare.not_closing st)
    | _ => simp [hop, Op.isInner] at hinner

theorem guarded (huv : p.Feeds u v) (hcross : p.Crosses u v) : p.Guarded u v := by
  have hedge := h.coherent.edge_iff.mpr huv
  refine (h.handsOver.guarded_or_bare h.coherent hedge hcross).resolve_right fun hbare => ?_
  exact not_crosses_of_eq (h.requiresMpc_eq_of_bare hbare huv) hcross

/-- What leaves MPC is a store that has been opened for, and it is fed by the opening. -/
theorem opened_of_lower (hn : p.nodes.get? k = some n) (hlower : p.isLowerBoundary k = .ok true)
    (huk : p.Feeds u k) : (w k).opened = true ∧ (w u).opened = true := by
  obtain ⟨hmpc, hlocal⟩ := (isLowerBoundary_eq_true hn).mp hlower
  have hlinked := h.coherent.toLinked
  have hchildren : n.children ≠ ∅ := by
    intro hleaf
    obtain rfl := h.delivers.only k n hn hleaf
    obtain ⟨e, he, hop, -⟩ := h.delivers.sink
    cases hmpc.symm.trans (hlinked.requiresMpc_collect he hop)
  obtain ⟨c, hc⟩ := IdSet.exists_mem_of_ne_empty hchildren
  obtain ⟨hstore, hread | ⟨st, hclosing⟩⟩ := h.guarded ((h.coherent.children hn).mp hc) ⟨true, hmpc, hlocal c hc⟩
  · rcases h.handsOver.store k hstore with ⟨o, ho, hok, -⟩ | ⟨c', st, hc', hreader⟩
    · obtain ⟨m, hm, hopening⟩ := opAt_eq_some.mp ho
      obtain ⟨n', hn', hop⟩ := opAt_eq_some.mp hstore
      obtain ⟨x, hx⟩ := h.coherent.exists_feeder hn' (by rw [hop]; rfl)
      have hok := h.coherent.edge_iff.mp hok
      obtain rfl : u = o := ((hx u).mp huk).trans ((hx o).mp hok).symm
      have hopened := ((h.obeys u m hm).opening hopening).1
      exact ⟨h.obeys.opened_of_feeds huk hopened, hopened⟩
    · rw [← (hreader c).mp ⟨n, hn, hc⟩, hread] at hc'
      cases hc'
  · obtain ⟨m, hm, hop⟩ := opAt_eq_some.mp hclosing
    cases (hlocal c hc).symm.trans (hlinked.requiresMpc_closing hm hop)

end Watched

theorem HandsOver.congr (h : p.HandsOver) (hop : q.opAt = p.opAt) (hedge : ∀ u v, q.Edge u v ↔ p.Edge u v) :
    q.HandsOver := by
  constructor <;> simp only [hop, hedge]
  exacts [h.opening, h.read, h.closing, h.store]

end Plan

namespace PushUp

open Plan Edit Boundary

variable {p q : Plan} {k s : NodeId} {recipients : PartySet} {w : NodeId → Standing} {u : Unit}

/-- Labels are widened only where something has been opened, and what is computed jointly does not depend on those. -/
theorem watched_of_visit (hs : p.Sound) (h : p.Watched s recipients w) (run : visit k p = .ok u q) :
    q.Watched s recipients w := by
  have hrenewed := renewed_of_visit h.coherent run
  have houtline := hrenewed.outline
  have hgraph := SameGraph.of_outline_eq houtline
  have hq := h.coherent.of_outline_eq houtline
  have hsame : ∀ l m, q.nodes.get? l = some m → ∃ m', p.nodes.get? l = some m' ∧ m'.op = m.op ∧
      m'.rel.storage = m.rel.storage ∧ ((w l).opened = false → m'.rel = m.rel) := by
    obtain rfl | ⟨n, parent, m, hn, hin, hm, -, -, hlower, rfl⟩ := run_visit h.coherent run
    · exact fun l m hm => ⟨m, hm, rfl, rfl, fun _ => rfl⟩
    obtain ⟨hk, hparent⟩ := h.opened_of_lower hn hlower ((feeds_unary_iff hn hin).mpr rfl)
    intro l o ho
    rw [get?_set, get?_set] at ho
    split at ho
    · rename_i hl
      cases ho
      exact ⟨m, hl ▸ hm, rfl, rfl, fun hfalse => by simp [hl, hparent] at hfalse⟩
    split at ho
    · rename_i hl
      cases ho
      exact ⟨n, hl ▸ hn, rfl, rfl, fun hfalse => by simp [hl, hk] at hfalse⟩
    · exact ⟨o, ho, rfl, rfl, fun _ => rfl⟩
  have hop : q.opAt = p.opAt := funext fun l => by
    cases hm : q.nodes.get? l with
    | none =>
      have hcontains := contains_eq_of_outline_eq (k := l) houtline
      rw [contains, IdMap.contains, hm, contains, IdMap.contains, eq_comm, Option.isSome_none,
        Option.isSome_eq_false_iff, Option.isNone_iff_eq_none] at hcontains
      simp [opAt, hm, hcontains]
    | some m =>
      obtain ⟨m', hm', hop, -⟩ := hsame l m hm
      simp [opAt, hm, hm', hop]
  refine ⟨⟨hq, ?conserves, h.obeys.of_skeleton_eq (hrenewed.touched hs).skeleton, ?unlabelled, ?regular, ?entry⟩,
    h.handsOver.congr hop fun u v => ?edge, h.delivers.of_outline_eq houtline, ?collects⟩
  case conserves => exact (keeping_of_unlabelled h.conserves houtline (visit_unlabelled.of_ok run)).conserves
  case unlabelled =>
    intro l m hm hl
    obtain ⟨m', hm', -, -, hrel⟩ := hsame l m hm
    exact hrel hl ▸ h.unlabelled l m' hm' hl
  case regular =>
    intro l v m hlv hm
    obtain ⟨m', hm', -, hst, -⟩ := hsame l m hm
    exact hst ▸ h.regular l v m' (hgraph.feeds.mp hlv) hm'
  case entry =>
    intro l v m o hlv hm ho hinner hborder hl
    obtain ⟨m', hm', hmop, -⟩ := hsame l m hm
    obtain ⟨o', ho', hoop, -⟩ := hsame v o ho
    exact hmop ▸ h.entry l v m' o' (hgraph.feeds.mp hlv) hm' ho' (hoop ▸ hinner) (hmop ▸ hborder) hl
  case edge => rw [hq.edge_iff, h.coherent.edge_iff, hgraph.feeds]
  case collects =>
    intro l m hm r hr
    obtain ⟨m', hm', hmop, -⟩ := hsame l m hm
    exact h.collects l m' hm' r (hmop.trans hr)

end PushUp

namespace Edit

open Plan Boundary

variable {p q : Plan} {optimize : Bool} {s : NodeId} {recipients : PartySet} {w : NodeId → Standing}

theorem watched_of_widen (hp : p.Sound) (h : p.Watched s recipients w) (run : widen optimize p = .ok () q) :
    q.Watched s recipients w := by
  cases optimize with
  | false =>
    obtain ⟨-, rfl⟩ := run_pure.mp run
    exact h
  | true =>
    obtain ⟨r, hr, -, hfinish⟩ := Pass.exists_of_run (motive := fun _ r => r.Watched s recipients w)
      (K := fun _ => True) ⟨h.coherent, hp⟩ (fun _ _ => Pass.pushUp_visit_reworks) (fun _ _ => h)
      (fun {id rest n r t} hr horderly _ hvisit => by
        simp only [Pass.pushUp] at hvisit
        split at hvisit
        · exact PushUp.watched_of_visit horderly.sound hr hvisit
        · obtain ⟨-, rfl⟩ := run_pure.mp hvisit
          exact hr) run
    obtain ⟨-, rfl⟩ := run_pure.mp hfinish
    exact hr

/-- What is put in at the border leaves every node its standing. -/
theorem exists_standings_of_insertBoundaries (hp : p.Orderly) (hplain : p.Plain) (hquiet : p.Quiet)
    (hconserves : p.Conserves) (hdelivers : p.Delivers s recipients) (hcollects : p.Placed (CollectsAt s))
    (run : insertBoundaries p = .ok () q) : ∃ w, q.Obeys (.standings true) w w := by
  obtain ⟨a, b, c, ha, hb, hc, hq⟩ := run_insertBoundaries.mp run
  have hclose := Pass.insertClose_reworks hp.coherent ha
  have hpa := hp.reworked hclose
  have hpb := hpa.reworked (Pass.insertOpen_reworks hpa.coherent hb)
  have hread := Pass.insertRead_reworks hpb.coherent hc
  have hpc := hpb.reworked hread
  have hstore := Pass.insertStore_reworks hpc.coherent hq
  obtain ⟨w, hclosed, hunread⟩ := Pass.upholds_of_insertClose hp hplain hquiet hconserves ha
  obtain ⟨w, hopened⟩ := Pass.upholds_of_insertOpen hpa.sound (Pass.sharing_of_insertClose hp.indexed ha)
    ⟨hclosed, hunread, hclose.delivers hdelivers, hclose.collectsAt hcollects⟩ hb
  obtain ⟨w, hw⟩ := hread.obeys hpb.coherent hpb.sound
    (fun op y hop => Rule.standings_yields (.inl hop)) hopened.obeys
  exact hstore.obeys hpc.coherent hpc.sound (fun op y hop => Rule.standings_yields (.inr hop)) hw

/-- A clear plan that ends firmly is compiled into one in which every node has its standing. -/
theorem watched_of_compile (hp : p.Built) (hclear : p.Clear) (hfirm : optimize = true → p.EndsFirmly)
    (run : compile optimize p = .ok () q) : ∃ s recipients w, q.Watched s recipients w := by
  have hsimple := hp.simple
  obtain ⟨s, recipients, n, -, -, -, hcarries⟩ := hp.exists_carries
  have hplaced : p.Placed (CollectsAt s) := by
    intro k m hm r hop
    have hleaf := (hclear (k, m) (IdMap.mem_entries_iff.mpr hm)).2.2.2 (by rw [hop]; rfl)
    simp only [hop, reduceCtorEq, false_or] at hleaf
    exact hcarries.only k m hm hleaf
  obtain ⟨a, b, c, ha, hb, hc, hq⟩ := exists_of_compile run
  obtain ⟨hpa, -, hkept⟩ := prepare_serves hsimple.toOrderly ha
  have hplain := hkept _ plain_placement hsimple.plain
  have hcollects := hkept _ collectsAt_placement hplaced
  obtain ⟨_, a', ha', hdelivers⟩ := (wp_prepare optimize hcarries).exists_of_not_exhausts (not_exhausts_of_ok ha)
  cases ha.symm.trans ha'
  have hconserves := conserves_of_prepare hsimple hp.settled ha
  obtain ⟨w, hw⟩ := exists_standings_of_insertBoundaries hpa hplain (quiet_of_prepare hp hclear hfirm ha) hconserves
    hdelivers.toDelivers hcollects hb
  have hinsert := insertBoundaries_reworks hpa.coherent hb
  have hpb := hpa.reworked hinsert
  obtain ⟨hskeleton, hsound, hsettled⟩ := settled_of_refreshAll hpb.coherent hpb.sound.sourced hc
  have hrefresh : Reworked (fun _ => True) b c := Reworks.refreshAll hpb.coherent hc
  have hpc := hpb.reworked hrefresh
  obtain ⟨post, hstoring⟩ := storing_of_insertBoundaries hpa hplain hb
  have hhands := (hstoring.of_outline_eq (Renews.refreshAll hc).outline).handsOver hpc.coherent
  have hkeeping := keeping_of_refreshAll hpb.coherent
    (conserves_of_insertBoundaries hconserves hpa hplain hb) hc
  have hupholds := hsettled.upholds hpc hkeeping.conserves hhands (hw.of_skeleton_eq hskeleton)
  exact ⟨s, recipients, w, watched_of_widen hpc.sound ⟨hupholds, hhands,
    hrefresh.delivers (hinsert.delivers hdelivers.toDelivers), hrefresh.collectsAt (hinsert.collectsAt hcollects)⟩ hq⟩

end Edit

/-- What two parties hold, once without repetitions and once filtered, delivered as it is put together. -/
def Workflow.distinctWithSmall : List Call :=
  distinctAndSmall.take 6 ++ [.collect 5 "g" (.singleton 1)]

namespace Edit

open Plan

variable {p q : Plan}

/-- In a compiled plan an opening feeds only stores, and crossings are guarded or bare. The audit
passes unless there is a bare crossing. There is none if the plan is clear and, when it is to be
optimized, ends firmly. -/
theorem compile_crossings (optimize : Bool) (hp : p.Built) (run : compile optimize p = .ok () q) :
    (∀ u v, q.Edge u v → (q.opAt u = some .opening → q.opAt v = some .store) ∧
      (q.Crosses u v → q.Guarded u v ∨ q.Bare u v)) ∧
    ((q.auditBoundaries = .ok () ∧ ∀ u v, q.Edge u v → q.Crosses u v → q.Guarded u v) ∨
      ∃ u v violation, q.Exposes u v violation ∧ q.auditBoundaries = .error violation) ∧
    (p.Clear → (optimize = true → p.EndsFirmly) →
      q.auditBoundaries = .ok () ∧ ∀ u v, q.Edge u v → q.Crosses u v → q.Guarded u v) := by
  have hsimple := hp.simple
  obtain ⟨hq, hhands⟩ := handsOver_of_compile hsimple.toOrderly hsimple.plain run
  have haudit := hhands.auditBoundaries hq
  refine ⟨fun u v huv => ⟨hhands.store_of_opening huv, hhands.guarded_or_bare hq huv⟩, haudit,
    fun hclear hfirm => haudit.resolve_right ?_⟩
  obtain ⟨s, recipients, w, hwatched⟩ := watched_of_compile hp hclear hfirm run
  rintro ⟨u, v, violation, ⟨huv, hcross, hbare, -⟩, -⟩
  exact hbare.not_store (hwatched.guarded (hq.edge_iff.mp huv) hcross).1

/-- What the parties hold is in the clear and is put together in MPC, with a guard in between. -/
theorem compile_crossings_distinctWithSmall : ∃ p, p.Built ∧ p.Clear ∧ p.EndsFirmly ∧
    ∀ optimize, ∃ q, compile optimize p = .ok () q ∧ q.requiresMpc 0 = .ok false ∧
      q.requiresMpc 5 = .ok true ∧ q.auditBoundaries = .ok () ∧
      ∀ u v, q.Edge u v → q.Crosses u v → q.Guarded u v := by
  have hwrites : Workflow.writesTo Workflow.distinctWithSmall (fun p => p.Clear ∧ p.EndsFirmly) = true := by
    cbv
  have hcompiles (optimize : Bool) : Workflow.compilesTo optimize Workflow.distinctWithSmall
      (fun q => q.requiresMpc 0 = .ok false ∧ q.requiresMpc 5 = .ok true) = true := by
    cases optimize <;> cbv
  obtain ⟨p, w, hwrite, htest⟩ := Workflow.exists_of_writesTo hwrites
  obtain ⟨_, _, hwrite', hboth⟩ := Workflow.exists_of_compilesTo_both hcompiles
  cases hwrite.symm.trans hwrite'
  obtain ⟨hclear, hfirm⟩ := of_decide_eq_true htest
  have hp : p.Built := ⟨_, w, hwrite⟩
  refine ⟨p, hp, hclear, hfirm, fun optimize => ?_⟩
  obtain ⟨q, run, htest⟩ := hboth optimize
  obtain ⟨hlocal, hmpc⟩ := of_decide_eq_true htest
  exact ⟨q, run, hlocal, hmpc, (compile_crossings optimize hp run).2.2 hclear fun _ => hfirm⟩

/-- The concatenation does not need MPC until the shared relation has been opened for it, so
nothing is closed for it. -/
theorem compile_crosses_bare : ∃ p, p.Built ∧ ∀ optimize, ∃ q u v, compile optimize p = .ok () q ∧ q.Edge u v ∧
    q.Crosses u v ∧ ¬ q.Guarded u v ∧
    q.auditBoundaries = .error (.bareCrossing "h_open_read" "Read" "a" "Concat") := by
  have hcompiles (optimize : Bool) : Workflow.compilesTo optimize Workflow.concatShared
      (fun q => q.auditBoundaries = .error (.bareCrossing "h_open_read" "Read" "a" "Concat")) = true := by
    cases optimize <;> cbv
  obtain ⟨p, w, hwrite, hboth⟩ := Workflow.exists_of_compilesTo_both hcompiles
  have hp : p.Built := ⟨_, w, hwrite⟩
  have hsimple := hp.simple
  refine ⟨p, hp, fun optimize => ?_⟩
  obtain ⟨q, run, htest⟩ := hboth optimize
  obtain ⟨hq, hhands⟩ := handsOver_of_compile hsimple.toOrderly hsimple.plain run
  have herror := of_decide_eq_true htest
  rcases hhands.auditBoundaries hq with ⟨hok, -⟩ | ⟨u, v, violation, ⟨huv, hcross, hbare, -⟩, -⟩
  · cases hok.symm.trans herror
  · exact ⟨q, u, v, run, huv, hcross, fun hguarded => hbare.not_store hguarded.1, herror⟩

end Edit

end JointPlan
