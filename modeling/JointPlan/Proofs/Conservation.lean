import JointPlan.Proofs.Provenance

/-!
# Conservation of storage

Compilation shares relations, reveals them and copies the operators that yield them. It
does not bring in a party that has no part in the sources of a relation, and it leaves none
out. Before there are borders this holds because all storage has been derived. The passes
that put the borders in keep it, each at every visit.
-/

namespace JointPlan

namespace Plan

open Boundary

variable {p q : Plan} {k parent : NodeId} {n : Node} {cs : NodeSet} {op : Op}

-- ---------------------------------------------------------------------------
-- Plans without borders
-- ---------------------------------------------------------------------------

theorem Plain.not_isClosing (hplain : p.Plain) (hn : p.nodes.get? k = some n) : ¬ IsClosing n.op := by
  rintro ⟨st, hop⟩
  have := hplain k n hn
  rw [hop] at this
  cases this

theorem Plain.conserves (hplain : p.Plain) (hp : p.Coherent) (h : p.Settled) : p.Conserves := by
  obtain ⟨rank, hrank⟩ := hp.ranked
  have hstored : ∀ d k n, rank k = d → p.nodes.get? k = some n → ∀ a, a ∈ n.rel.storage.members ↔ p.Draws k a := by
    intro d
    induction d using Nat.strong_induction_on with
    | _ d ih =>
      rintro k n rfl hn a
      cases hsource : n.op.isSource with
      | true => exact (draws_source hn hsource).symm
      | false =>
        have hop : n.op ≠ .create := by
          intro hop
          rw [hop] at hsource
          cases hsource
        obtain ⟨ins, hins, hst⟩ := (h k n hn hop).outputStorage? Node.anew_derivation hn hop
        rw [Op.mem_members_outputStorage? hst (fun hop => hp.inputRelations_of_unary hn hop hins) hsource
          (hplain.not_isClosing hn), draws_input hn hsource]
        constructor
        · rintro ⟨r, hr, ha⟩
          obtain ⟨u, hu, m, hm, rfl⟩ := (mem_inputRelations hins hn).mp hr
          exact ⟨u, hu, (ih _ (hrank ⟨n, hn, hu⟩) u m rfl hm a).mp ha⟩
        · rintro ⟨u, hu, hdraws⟩
          obtain ⟨m, hm⟩ := hp.closed ⟨n, hn, hu⟩
          exact ⟨m.rel, (mem_inputRelations hins hn).mpr ⟨u, hu, m, hm, rfl⟩,
            (ih _ (hrank ⟨n, hn, hu⟩) u m rfl hm a).mpr hdraws⟩
  refine ⟨fun k n hn _ => hstored _ k n rfl hn, fun k n recipients hn hop => ?_,
    fun k n st hn hop => absurd ⟨st, hop⟩ (hplain.not_isClosing hn),
    fun k n st _ _ hn hop => absurd ⟨st, hop⟩ (hplain.not_isClosing hn)⟩
  have hcreate : n.op ≠ .create := by simp [hop]
  obtain ⟨ins, -, hst⟩ := (h k n hn hcreate).outputStorage? Node.anew_derivation hn hcreate
  obtain ⟨recipients', hop', hmembers⟩ := Op.collect_of_outputStorage? (by rw [hop]; rfl) hst
  rw [hmembers, Op.collect.inj (hop.symm.trans hop')]

-- ---------------------------------------------------------------------------
-- Insertions
-- ---------------------------------------------------------------------------

/-- There is such a node, and it is no closing. -/
def Unclosed (p : Plan) (k : NodeId) : Prop := ∃ n, p.nodes.get? k = some n ∧ ¬ IsClosing n.op

theorem Unclosed.of_outline_eq (hk : p.Unclosed k) (h : q.outline = p.outline) : q.Unclosed k := by
  obtain ⟨n, hn, hop⟩ := hk
  obtain ⟨m, hm, hs⟩ := get?_of_outline_eq h.symm hn
  exact ⟨m, hm, by rwa [← Op.isClosing_of_blank_eq (Node.blank_eq_of_outline_eq hs)]⟩

theorem Inserted.unclosed (h : p.Inserted parent cs op q) (hp : p.Coherent) (hk : p.Unclosed k) : q.Unclosed k := by
  obtain ⟨n, hn, hop⟩ := hk
  obtain ⟨rel, spliced⟩ := h.spliced
  refine Unclosed.of_outline_eq ⟨relinked parent p.nextId cs k n, ?_, by rwa [relinked_op]⟩ spliced.outline
  rw [get?_splice, if_neg (hp.ne_nextId hn), hn, Option.map_some]

theorem Reworked.unclosed {K : Op → Prop} (h : Reworked K p q) (hp : p.Coherent) (hk : p.Unclosed k) : q.Unclosed k := by
  induction h with
  | refl => exact hk
  | derived _ hrenewed ih => exact ih.of_outline_eq hrenewed.outline
  | inserted hpq _ hinserted ih => exact hinserted.unclosed (hpq.coherent hp) ih

section Inserted

variable (h : p.Conserves) (hp : p.Coherent) (hinserted : p.Inserted parent cs op q)
  (hopen : ¬ IsClosing op → p.Unclosed parent)
  (hclose : ∀ st, op = .closing st → ∀ c ∈ cs, ∀ a, a ∈ st.members ↔ p.Draws c a)

include h hp hinserted hopen hclose

/-- After a node has been put in, its readers are stored with the same parties as before. -/
theorem Conserves.exists_keeping : ∃ rel, Keeping (p.splice parent cs op rel) q := by
  obtain ⟨o, rel, ho, ⟨hst, -⟩, hrun⟩ := hinserted.derived
  obtain ⟨rel', spliced⟩ := hinserted.spliced
  obtain ⟨o', ho', hcs⟩ := spliced.subset
  cases ho.symm.trans ho'
  have hsource := Op.isSource_of_isBoundary hinserted.boundary
  refine ⟨rel, Edit.keeping_of_forM (fun _ _ _ => Edit.keeping_of_refreshStorage)
    (hp.splice ho hcs spliced.arity spliced.room) ?_ hrun⟩
  refine h.splice hp ho hsource (fun hop => ?_) fun st hop => ?_
  · obtain ⟨o', ho', hparent⟩ := hopen hop
    cases ho.symm.trans ho'
    refine ⟨hparent, ?_⟩
    rcases Op.outputStorage?_of_unary spliced.arity hsource hop hst with heq | ⟨-, heq⟩ <;> simp [heq]
  · subst hop
    rw [Op.outputStorage?, Except.ok.injEq, Option.some.injEq] at hst
    exact ⟨by rw [hst], hclose st rfl⟩

theorem Conserves.inserted : q.Conserves :=
  have ⟨_, hkeeping⟩ := h.exists_keeping hp hinserted hopen hclose
  hkeeping.conserves

theorem Conserves.draws_inserted {a : PartyId} (hk : k ≠ p.nextId) : q.Draws k a ↔ p.Draws k a := by
  obtain ⟨rel, hkeeping⟩ := h.exists_keeping hp hinserted hopen hclose
  obtain ⟨o, -, ho, -⟩ := hinserted.derived
  have hsource := Op.isSource_of_isBoundary hinserted.boundary
  rw [hkeeping.draws, draws_splice hp ho hsource hk]

end Inserted

/-- Nodes that are no closings may come in behind all but closings. -/
theorem Conserves.inserted_open (h : p.Conserves) (hp : p.Coherent) (inserted : p.Inserted parent cs op q)
    (hop : ¬ IsClosing op) (hparent : p.Unclosed parent) : q.Conserves :=
  h.inserted hp inserted (fun _ => hparent) fun st hst => absurd ⟨st, hst⟩ hop

end Plan

namespace Boundary

open Plan Edit

variable {p q : Plan} {id parent child : NodeId} {n : Node} {u : Unit}

theorem not_isClosing_opening : ¬ IsClosing .opening := nofun

theorem not_isClosing_read : ¬ IsClosing .read := nofun

theorem not_isClosing_store : ¬ IsClosing .store := nofun

-- ---------------------------------------------------------------------------
-- Closing
-- ---------------------------------------------------------------------------

theorem conserves_of_closeInput {shared : Storage} (h : p.Conserves) (hp : p.Coherent)
    (hshared : ∀ a, a ∈ shared.members ↔ p.Draws id a) (run : closeInput id shared parent p = .ok u q) : q.Conserves ∧ ∀ a, a ∈ shared.members ↔ q.Draws id a := by
  obtain ⟨rfl, -⟩ | inserted := run_closeInput hp run
  · exact ⟨h, hshared⟩
  have hopen : ¬ IsClosing (.closing shared) → p.Unclosed parent := fun hop => absurd ⟨shared, rfl⟩ hop
  have hclose : ∀ st, Op.closing shared = .closing st → ∀ c ∈ IdSet.singleton id, ∀ a, a ∈ st.members ↔ p.Draws c a := by
    rintro st ⟨⟩ c hc a
    rw [IdSet.mem_singleton.mp hc]
    exact hshared a
  have hid : id ≠ p.nextId := by
    rintro rfl
    exact hp.not_feeds_nextId (inserted.feeds_of_mem hp (IdSet.mem_singleton.mpr rfl))
  exact ⟨h.inserted hp inserted hopen hclose, fun a => by
    rw [hshared, h.draws_inserted hp inserted hopen hclose hid]⟩

theorem closeInput_reworks {shared : Storage} : Reworks IsClosing (closeInput id shared parent) :=
  .of_inserted fun _ _ _ hp run =>
    (run_closeInput hp run).imp And.left fun inserted => ⟨_, _, _, ⟨_, rfl⟩, inserted⟩

/-- All parties that store the output of a joint computation store its inputs. -/
theorem conserves_of_closeInputs (h : p.Conserves) (hp : p.Coherent) (hid : p.Unclosed id)
    (run : closeInputs id p = .ok u q) : q.Conserves := by
  obtain ⟨r, hstorage, ⟨-, rfl⟩ | ⟨-, n, hn, run⟩⟩ := run_closeInputs.mp run
  · exact (keeping_of_refreshStorage hp h hstorage).conserves
  have hr := keeping_of_refreshStorage hp h hstorage
  have hshared : ∀ a, a ∈ n.rel.storage.shared.members ↔ r.Draws id a := by
    intro a
    obtain ⟨n', hn', hop⟩ := hid.of_outline_eq hr.outline
    cases hn.symm.trans hn'
    rw [Storage.members_shared]
    exact hr.conserves.stored id n hn hop a
  have hloop := Reworks.loop
    (motive := fun _ s => s.Conserves ∧ ∀ a, a ∈ n.rel.storage.shared.members ↔ s.Draws id a)
    (fun _ => closeInput_reworks) (fun _ _ _ _ hs h run => conserves_of_closeInput h.1 hs h.2 run)
    (hp.of_outline_eq hr.outline) ⟨hr.conserves, hshared⟩ run
  exact hloop.1

theorem conserves_of_visitClose (h : p.Conserves) (hp : p.Coherent) (hn : p.nodes.get? id = some n)
    (run : visitClose id n.op p = .ok u q) : q.Conserves := by
  have hunclosed (hop : n.op.arity ≠ .unary) : p.Unclosed id := by
    refine ⟨n, hn, ?_⟩
    rintro ⟨st, hst⟩
    rw [hst] at hop
    exact hop rfl
  rw [visitClose] at run
  cases hop : n.op.arity <;> simp only [hop] at run
  case nullary =>
    obtain ⟨-, rfl⟩ := run_pure.mp run
    exact h
  case unary => exact (keeping_of_refreshStorage hp h run).conserves
  all_goals exact conserves_of_closeInputs h hp (hunclosed (by simp [hop])) run

-- ---------------------------------------------------------------------------
-- Reading
-- ---------------------------------------------------------------------------

theorem conserves_of_insertRead {position : Nat} (h : p.Conserves) (hp : p.Coherent) (hparent : p.Unclosed parent)
    (run : insertRead parent child position p = .ok u q) : q.Conserves :=
  h.inserted_open hp (inserted_of_insertRead hp run) not_isClosing_read hparent

/-- A loop of edits that put nodes in behind one that is no closing. -/
theorem conserves_of_loop {ι : Type} {l : List ι} {x : ι → Edit Unit} {K : Op → Prop} (hx : ∀ i, Reworks K (x i))
    (step : ∀ i p q, p.Conserves → p.Coherent → p.Unclosed parent → x i p = .ok () q → q.Conserves)
    (h : p.Conserves) (hp : p.Coherent) (hparent : p.Unclosed parent) (run : l.forM x p = .ok u q) : q.Conserves :=
  have hloop := Reworks.loop (motive := fun _ r => r.Conserves ∧ r.Unclosed parent) hx
    (fun i _ r s hr hstart run => ⟨step i r s hstart.1 hr hstart.2 run,
      (hx i hr run).unclosed hr hstart.2⟩) hp ⟨h, hparent⟩ run
  hloop.1

theorem conserves_of_readChildren (h : p.Conserves) (hp : p.Coherent) (hparent : p.Unclosed parent)
    (run : readChildren parent p = .ok u q) : q.Conserves := by
  rw [readChildren_eq] at run
  obtain ⟨children, _, asked, run⟩ := run_bind.mp run
  obtain ⟨-, rfl⟩ := run_ask.mp asked
  refine conserves_of_loop (fun _ => readOne_reworks) (fun child p q h hp hparent run => ?_) h hp hparent run
  obtain ⟨n, -, ⟨-, rfl⟩ | ⟨-, run⟩⟩ := run_readOne.mp run
  · exact h
  · exact conserves_of_insertRead h hp hparent run

theorem conserves_of_readAfterOpening (h : p.Conserves) (hp : p.Coherent) (hid : p.Unclosed id)
    (run : readAfterOpening id p = .ok u q) : q.Conserves := by
  rw [readAfterOpening_eq] at run
  obtain ⟨children, _, asked, run⟩ := run_bind.mp run
  obtain ⟨-, rfl⟩ := run_ask.mp asked
  refine conserves_of_loop (fun _ => readBehind_reworks) (fun child p q h hp hid run => ?_) h hp hid run
  obtain ⟨n, hn, ⟨-, rfl⟩ | ⟨hop, run⟩ | ⟨-, -, run⟩⟩ := run_readBehind.mp run
  · exact h
  · exact conserves_of_readChildren h hp ⟨n, hn, hop ▸ not_isClosing_store⟩ run
  · exact conserves_of_insertRead h hp hid run

-- ---------------------------------------------------------------------------
-- Storing
-- ---------------------------------------------------------------------------

theorem conserves_of_storeAfterOpening (h : p.Conserves) (hp : p.Coherent) (hn : p.nodes.get? id = some n)
    (hop : n.op = .opening) (run : storeAfterOpening id p = .ok u q) : q.Conserves := by
  obtain ⟨rfl, -⟩ | inserted := run_storeAfterOpening hp hn run
  · exact h
  · exact h.inserted_open hp inserted not_isClosing_store ⟨n, hn, hop ▸ not_isClosing_opening⟩

/-- No closing feeds a closing, so what is stored in front of one is stored as before. -/
theorem conserves_of_storeBeforeClosing {rest : List NodeId} {post : NodeId → Station} (hb : Storing (id :: rest) p post)
    (h : p.Conserves) (hp : p.Coherent) (hid : post id = .closing) (run : storeBeforeClosing id p = .ok u q) : q.Conserves := by
  obtain ⟨n, parent, m, hn, hin, hm, ⟨-, rfl⟩ | ⟨-, inserted⟩⟩ := run_storeBeforeClosing hp run
  · exact h
  refine h.inserted_open hp inserted not_isClosing_store ⟨m, hm, ?_⟩
  rintro ⟨st, hop⟩
  have hedge := hb.edge parent id ⟨n, hn, by simp [hin]⟩
  have hparent := Station.of_holds_closing (hop ▸ hb.holds parent m hm)
  rw [hid, hparent] at hedge
  cases hedge

end Boundary

namespace Pass

open Plan Edit Boundary

variable {p q : Plan} {u : Unit}

-- ---------------------------------------------------------------------------
-- Whole passes
-- ---------------------------------------------------------------------------

theorem conserves_of_insertClose (h : p.Conserves) (hp : p.Orderly) (run : insertClose.run p = .ok u q) : q.Conserves := by
  obtain ⟨r, h, hr, hfinish⟩ := exists_of_run (motive := fun _ r => r.Conserves) hp
    (fun _ _ => insertClose_visit_reworks) (fun _ _ => h)
    (fun h hr hn hvisit => conserves_of_visitClose h hr.coherent hn hvisit) run
  exact (keeping_of_propagateStorage hr.coherent h hfinish).conserves

theorem conserves_of_insertOpen (h : p.Conserves) (hp : p.Orderly) (run : insertOpen.run p = .ok u q) : q.Conserves := by
  obtain ⟨r, h, -, hfinish⟩ := exists_of_run (motive := fun _ r => r.Conserves) hp
    (fun _ _ => insertOpen_visit_reworks) (fun _ _ => h)
    (fun {id rest n r s} h hr hn hvisit => by
      simp only [insertOpen] at hvisit
      split at hvisit
      · obtain ⟨-, rfl⟩ := run_pure.mp hvisit
        exact h
      rename_i hop
      obtain ⟨rfl, -⟩ | ⟨-, inserted⟩ := run_openOutput hr.coherent hn hvisit
      · exact h
      refine h.inserted_open hr.coherent inserted not_isClosing_opening ⟨n, hn, ?_⟩
      rintro ⟨st, hst⟩
      exact hop (by rw [hst]; rfl)) run
  obtain ⟨-, rfl⟩ := run_pure.mp hfinish
  exact h

theorem conserves_of_insertRead (h : p.Conserves) (hp : p.Orderly) (run : insertRead.run p = .ok u q) : q.Conserves := by
  obtain ⟨r, h, -, hfinish⟩ := exists_of_run (motive := fun _ r => r.Conserves) hp
    (fun _ _ => insertRead_visit_reworks) (fun _ _ => h)
    (fun {id rest n r s} h hr hn hvisit => by
      by_cases hop : n.op = .opening
      · rw [hop] at hvisit
        exact conserves_of_readAfterOpening h hr.coherent ⟨n, hn, hop ▸ not_isClosing_opening⟩ hvisit
      rw [insertRead_visit_of_ne hop] at hvisit
      obtain ⟨-, rfl⟩ := run_pure.mp hvisit
      exact h) run
  obtain ⟨-, rfl⟩ := run_pure.mp hfinish
  exact h

theorem conserves_of_insertStore (h : p.Conserves) (hp : p.Orderly) {post : NodeId → Station} (hb : Reading [] p post)
    (run : insertStore.run p = .ok u q) : q.Conserves := by
  refine (exists_of_insertStore hp hb h (fun {id rest n r s post} hb hr hn hvisit h => ?_) run).1
  by_cases hopening : n.op = .opening
  · rw [hopening] at hvisit
    exact conserves_of_storeAfterOpening h hr.coherent hn hopening hvisit
  by_cases hclosing : ∃ storage, n.op = .closing storage
  · obtain ⟨storage, hop⟩ := hclosing
    rw [hop] at hvisit
    exact conserves_of_storeBeforeClosing hb h hr.coherent (Station.of_holds_closing (hop ▸ hb.holds id n hn)) hvisit
  rw [insertStore_visit_of_ne hopening hclosing] at hvisit
  obtain ⟨-, rfl⟩ := run_pure.mp hvisit
  exact h

end Pass

namespace Edit

open Plan Boundary

variable {p q : Plan} {optimize : Bool} {u : Unit}

theorem conserves_of_insertBoundaries (h : p.Conserves) (hp : p.Orderly) (hplain : p.Plain)
    (run : insertBoundaries p = .ok u q) : q.Conserves := by
  obtain ⟨a, b, c, ha, hb, hc, hq⟩ := run_insertBoundaries.mp run
  have hpa := hp.reworked (Pass.insertClose_reworks hp.coherent ha)
  have hab := hpa.reworked (Pass.insertOpen_reworks hpa.coherent hb)
  have hbc := hab.reworked (Pass.insertRead_reworks hab.coherent hc)
  obtain ⟨_, hborder, honly⟩ := Pass.bordered_of_insertClose hp hplain ha
  obtain ⟨_, hborder, honly⟩ := Pass.bordered_of_insertOpen hpa hborder honly hb
  obtain ⟨_, hreading⟩ := Pass.reading_of_insertRead hab hborder honly hc
  have hcloses := Pass.conserves_of_insertClose h hp ha
  have hopens := Pass.conserves_of_insertOpen hcloses hpa hb
  have hreads := Pass.conserves_of_insertRead hopens hab hc
  exact Pass.conserves_of_insertStore hreads hbc hreading hq

theorem keeping_of_unlabelled (h : p.Conserves) (houtline : q.outline = p.outline)
    (hsame : q.unlabelledAt = p.unlabelledAt) : Keeping p q := by
  have hmembers : SameMembers p q := by
    intro k n m hn hm
    have hk := congrFun hsame k
    rw [unlabelledAt, unlabelledAt, hn, hm, Option.map_some, Option.map_some, Option.some.injEq] at hk
    rw [show m.rel.storage = n.rel.storage from (congrArg Relation.storage hk :)]
  exact ⟨h.of_outline_eq houtline hmembers, houtline, hmembers⟩

/-- What is optimized is settled in the end, but for labels. -/
theorem conserves_of_prepare (hp : p.Simple) (hsettled : p.Settled) (run : prepare optimize p = .ok () q) : q.Conserves := by
  cases optimize with
  | false =>
    obtain ⟨-, rfl⟩ := run_pure.mp run
    exact hp.plain.conserves hp.coherent hsettled
  | true =>
    obtain ⟨_, a, hdown, hup⟩ := run_bind.mp run
    have hreworks := Pass.pushUp_reworks (K := fun _ => False)
    obtain ⟨ha, -, hplaced⟩ := Pass.pushDown_serves hp.toOrderly hdown
    obtain ⟨r, -, hr, hrefresh, -⟩ := Pass.exists_of_pushDown (motive := fun _ => True) hp.toOrderly trivial
      (fun _ _ _ _ => trivial) hdown
    have hsettled := (settled_of_refreshAll hr.coherent hr.sound.sourced hrefresh).2.2
    have hplain : a.Plain := hplaced _ plain_placement hp.plain
    exact (keeping_of_unlabelled (hplain.conserves ha.coherent hsettled)
      (hreworks ha.coherent hup).renewed.outline (Pass.pushUp_unlabelled.of_ok hup)).conserves

theorem conserves_of_compile (hp : p.Simple) (hsettled : p.Settled) (run : compile optimize p = .ok u q) : q.Conserves := by
  obtain ⟨a, b, c, ha, hb, hc, hq⟩ := exists_of_compile run
  have hprepared := conserves_of_prepare hp hsettled ha
  obtain ⟨hpa, -, hplaced⟩ := prepare_serves hp.toOrderly ha
  have hinserted := conserves_of_insertBoundaries hprepared hpa (hplaced _ plain_placement hp.plain) hb
  have hpb := (insertBoundaries_reworks hpa.coherent hb).coherent hpa.coherent
  have hrefreshed := keeping_of_refreshAll hpb hinserted hc
  have hpc := hpb.of_outline_eq hrefreshed.outline
  exact (keeping_of_unlabelled hrefreshed.conserves (widen_reworks hpc hq).renewed.outline
    (widen_unlabelled.of_ok hq)).conserves

end Edit

namespace Plan

variable {p q : Plan} {k s : NodeId} {n : Node} {a : PartyId} {K : Op → Prop}

-- ---------------------------------------------------------------------------
-- Sources
-- ---------------------------------------------------------------------------

/-- Only the node `s` may collect. -/
def CollectsAt (s : NodeId) (k : NodeId) (op : Op) : Prop := ∀ recipients, op = .collect recipients → k = s

theorem collectsAt_placement : Placement (CollectsAt s) where
  bare h hk recipients hop := hk recipients (Op.eq_of_bare_eq (hop ▸ h.symm) rfl)
  inner h recipients hop := by
    rw [hop] at h
    cases h

/-- What is put in does not collect. -/
theorem Reworked.collectsAt (h : Reworked K p q) (hp : p.Placed (CollectsAt s)) : q.Placed (CollectsAt s) := by
  induction h with
  | refl => exact hp
  | derived _ hrenewed ih =>
    intro k n hn recipients hop
    obtain ⟨m, hm, hs⟩ := get?_of_outline_eq hrenewed.outline hn
    exact ih k m hm recipients (Op.eq_of_blank_eq (hop ▸ (Node.blank_eq_of_outline_eq hs).symm) rfl)
  | inserted _ _ hinserted ih =>
    intro k n hn recipients hop
    obtain ⟨-, hblank⟩ | ⟨-, m, hm, hblank⟩ := hinserted.op_of hn
    · have hcollect := Op.eq_of_blank_eq (hop ▸ hblank.symm) rfl
      have hboundary := hinserted.boundary
      rw [hcollect] at hboundary
      cases hboundary
    · exact ih k m hm recipients (Op.eq_of_blank_eq (hop ▸ hblank.symm) rfl)

/-- Where nothing is computed from what is collected, all that a node yields comes from the relations that parties
put in. -/
theorem Coherent.draws_iff (hp : p.Coherent) (hcollect : ∀ k n recipients, p.nodes.get? k = some n →
    n.op = .collect recipients → ∀ v, ¬ p.Feeds k v) (hn : p.nodes.get? k = some n)
    (hop : ∀ recipients, n.op ≠ .collect recipients) : p.Draws k a ↔
      ∃ c m, p.nodes.get? c = some m ∧ m.op = .create ∧ p.Reaches c k ∧ a ∈ m.rel.storage.members := by
  constructor
  · intro h
    induction h generalizing n with
    | @source k n' a hn' hsource ha =>
      obtain rfl := Option.some.inj (hn'.symm.trans hn)
      exact ⟨k, n', hn, (Op.isSource_iff.mp hsource).resolve_right fun ⟨_, h⟩ => hop _ h, .refl, ha⟩
    | @input k u n' a hn' hsource hu _ ih =>
      obtain ⟨m, hm⟩ := hp.closed ⟨n', hn', hu⟩
      obtain ⟨c, l, hl, hcreate, hreaches, ha⟩ := ih hm fun recipients hop =>
        hcollect u m recipients hm hop k ⟨n', hn', hu⟩
      exact ⟨c, l, hl, hcreate, hreaches.tail (hp.edge_iff.mpr ⟨n', hn', hu⟩), ha⟩
  · rintro ⟨c, m, hm, hcreate, hreaches, ha⟩
    induction hreaches generalizing n with
    | refl => exact .source hm (by rw [hcreate]; rfl) ha
    | @tail b k hreaches hedge ih =>
      have hfeeds := hp.edge_iff.mp hedge
      obtain ⟨l, hl⟩ := hp.closed hfeeds
      have ⟨n', hn', hb⟩ := hfeeds
      cases hn.symm.trans hn'
      refine .input hn (Bool.eq_false_iff.mpr fun hsource => ?_) hb
        (ih hl fun recipients hop => hcollect b l recipients hl hop k hfeeds)
      rcases Op.isSource_iff.mp hsource with h | ⟨_, h⟩
      · exact hp.ne_create hn hb h
      · exact hop _ h

end Plan

namespace Edit

open Plan Boundary

variable {p : Plan}

/-- In a plan that has been built with one delivery and compiled, relations are stored with the parties that have put
in what they are computed from. What is closed is stored with those that take part in the computation it is closed for. -/
theorem compile_conserves (optimize : Bool) (hp : p.Built) (hfree : ¬ Exhausts (compile optimize) p)
    (hone : ∃! k, ∃ recipients, p.opAt k = some (.collect recipients)) :
    ∃ q, compile optimize p = .ok () q ∧ ∀ k n, q.nodes.get? k = some n →
      ((∀ storage, n.op ≠ .closing storage) → (∀ recipients, n.op ≠ .collect recipients) → ∀ a,
        a ∈ n.rel.storage.members ↔
          ∃ c m, q.nodes.get? c = some m ∧ m.op = .create ∧ q.Reaches c k ∧ a ∈ m.rel.storage.members) ∧
      (∀ storage, n.op = .closing storage → ∃ c m, q.nodes.get? c = some m ∧ (∀ v, q.Edge k v ↔ v = c) ∧
        n.rel.storage.members = m.rel.storage.members) ∧
      n.rel.storage.loci ≠ [] ∧ (∀ s ∈ n.rel.storage.loci, s ≠ ∅) ∧
      ∀ s ∈ n.rel.storage.loci, ∀ t ∈ n.rel.storage.loci, s.size = t.size := by
  have hsimple := hp.simple
  obtain ⟨s, recipients, n, hn, -, hop, hcarries⟩ := hp.exists_carries
  obtain ⟨_, q, run, hq⟩ := (wp_compile optimize hcarries).exists_of_not_exhausts hfree
  have hplaced : p.Placed (CollectsAt s) := fun k m hm recipients' hop' =>
    hone.unique ⟨recipients', opAt_eq_some.mpr ⟨m, hm, hop'⟩⟩ ⟨recipients, opAt_eq_some.mpr ⟨n, hn, hop⟩⟩
  obtain ⟨a, ha, haq⟩ := reworked_of_compile hsimple.toOrderly run
  have hcollects := haq.collectsAt ((prepare_serves hsimple.toOrderly ha).2.2 _ collectsAt_placement hplaced)
  have hlast : ∀ k n recipients, q.nodes.get? k = some n → n.op = .collect recipients → ∀ v, ¬ q.Feeds k v := by
    intro k n recipients hn hop v hv
    have hk := hcollects k n hn recipients hop
    exact hq.toEndsIn.ne_of_reader hn ((hq.coherent.children hn).mpr hv) hk
  have hconserves := conserves_of_compile hsimple hp.settled run
  obtain ⟨hcoherent, hhands⟩ := handsOver_of_compile hsimple.toOrderly hsimple.plain run
  refine ⟨q, run, fun k n hn => ⟨fun hclosing hcollect a => ?_, fun storage hop => ?_, n.rel.storage.nonempty,
    n.rel.storage.inhabited, n.rel.storage.even⟩⟩
  · rw [← hcoherent.draws_iff hlast hn hcollect]
    exact hconserves.stored k n hn (fun ⟨storage, h⟩ => hclosing storage h) a
  · obtain ⟨-, c, op, hc, harity, hedge⟩ := hhands.closing k storage (opAt_eq_some.mpr ⟨n, hn, hop⟩)
    obtain ⟨m, hm, rfl⟩ := opAt_eq_some.mp hc
    refine ⟨c, m, hm, hedge, ?_⟩
    have hreader : ¬ IsClosing m.op := by
      rintro ⟨st, hst⟩
      rw [hst] at harity
      simp [Op.arity] at harity
    obtain ⟨m', hm', hfed⟩ := hcoherent.edge_iff.mp ((hedge c).mpr rfl)
    cases hm.symm.trans hm'
    ext a
    rw [hconserves.closed k n storage hn hop, hconserves.stored c m hm hreader,
      hconserves.shared k n storage c m hn hop hm hfed hreader]

/-- The two parties that hold the sources store all that is computed, up to the delivery. -/
theorem compile_conserves_concatHeld : ∃ p q, p.Built ∧ ¬ Exhausts (compile true) p ∧
    (∃! k, ∃ recipients, p.opAt k = some (.collect recipients)) ∧ compile true p = .ok () q ∧
    ∀ k n, q.nodes.get? k = some n →
      (∀ storage, n.op ≠ .closing storage) → (∀ recipients, n.op ≠ .collect recipients) → ∀ a,
        a ∈ n.rel.storage.members ↔
          ∃ c m, q.nodes.get? c = some m ∧ m.op = .create ∧ q.Reaches c k ∧ a ∈ m.rel.storage.members := by
  have hwrites : Workflow.writesTo Workflow.concatHeld (fun p => runsTo (compile true) p fun _ =>
      p.opAt 3 = some (.collect (.singleton 1)) ∧
      ∀ k ∈ p.nodes.keys, k = 3 ∨ ∀ n ∈ p.nodes.get? k, n.op = .create ∨ n.op = .concat) = true := by cbv
  obtain ⟨p, w, hwrite, hruns⟩ := Workflow.exists_of_writesTo hwrites
  obtain ⟨_, run, htest⟩ := exists_of_runsTo hruns
  obtain ⟨hcollect, hothers⟩ := of_decide_eq_true htest
  have hfree := not_exhausts_of_ok run
  have hone : ∃! k, ∃ recipients, p.opAt k = some (.collect recipients) := by
    refine ⟨3, ⟨_, hcollect⟩, ?_⟩
    rintro k ⟨recipients, hk⟩
    obtain ⟨n, hn, hop⟩ := opAt_eq_some.mp hk
    refine (hothers k (IdMap.mem_keys_of_get? hn)).resolve_right fun h => ?_
    simpa [hop] using h n hn
  obtain ⟨q, run, hq⟩ := compile_conserves true ⟨_, w, hwrite⟩ hfree hone
  exact ⟨p, q, ⟨_, w, hwrite⟩, hfree, hone, run, fun k n hn => (hq k n hn).1⟩

end Edit

end JointPlan
