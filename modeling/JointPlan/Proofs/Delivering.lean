import JointPlan.Proofs.Settling
import JointPlan.Proofs.Totality

/-!
# Compilation finishes

Both pipelines finish on every plan that has been built. They end with a derivation of the
whole plan, so the relation that is delivered in the end can be compared with the one that
the plan was built with: the two are the same but for the labels of their columns.
-/

namespace JointPlan

-- ---------------------------------------------------------------------------
-- Relations but for their labels
-- ---------------------------------------------------------------------------

namespace Relation

variable {r r' : Relation}

/-- The relation without the labels of its columns. -/
def unlabelled (r : Relation) : Relation := { r with columns := r.columns.map (·.labeled ∅ ∅) }

/-- The columns belong to the relation. -/
def Owned (r : Relation) : Prop := ∀ c ∈ r.columns, c.owner = r.name

theorem owned_renumber : r.renumber.Owned := by
  intro c hc
  obtain ⟨i, hi⟩ := List.getElem?_of_mem hc
  rw [renumber, getElem?_number, Option.map_eq_some_iff] at hi
  obtain ⟨d, -, rfl⟩ := hi
  rfl

/-- But for labels a relation is its name, its schema and its place. -/
theorem unlabelled_eq (hname : r.name = r'.name) (hstorage : r.storage = r'.storage) (hschema : r.schema = r'.schema)
    (hr : r.Numbered ∧ r.Owned) (hr' : r'.Numbered ∧ r'.Owned) : r.unlabelled = r'.unlabelled := by
  have hcolumns : r.columns.map (·.labeled ∅ ∅) = r'.columns.map (·.labeled ∅ ∅) := by
    have hlength : r.columns.length = r'.columns.length := by simpa using congrArg List.length hschema
    refine List.ext_getElem (by simpa using hlength) fun i hi hi' => ?_
    rw [List.length_map] at hi hi'
    have hheader : r.columns[i].header = r'.columns[i].header := by
      simpa [schema, hi, hi'] using congrArg (·[i]?) hschema
    have hindex := (hr.1 i _ (List.getElem?_eq_getElem hi)).trans (hr'.1 i _ (List.getElem?_eq_getElem hi')).symm
    have howner : r.columns[i].owner = r'.columns[i].owner := by
      rw [hr.2 _ (List.getElem_mem hi), hr'.2 _ (List.getElem_mem hi'), hname]
    simp only [Column.header, Prod.mk.injEq] at hheader
    simp [Column.labeled, hheader, hindex, howner]
  simp [unlabelled, hname, hstorage, hcolumns]

end Relation

/-- The relations of a plan but for their labels. -/
def Plan.unlabelledAt (p : Plan) (k : NodeId) : Option Relation :=
  (p.nodes.get? k).map fun n => n.rel.unlabelled

namespace PushUp

open Edit

theorem unlabelled_loosenColumns {members : PartySet} {n : Node} :
    (loosenColumns members n).rel.unlabelled = n.rel.unlabelled := by
  simp [loosenColumns, Relation.unlabelled, Function.comp_def, Column.loosen, Column.labeled]

/-- Whatever the outcome, nothing but labels has been changed. -/
theorem visit_unlabelled {id : NodeId} : Leads (Same Plan.unlabelledAt) (visit id) := by
  have hloosen {id : NodeId} {members : PartySet} :
      Leads (Same Plan.unlabelledAt) (modifyNode id (loosenColumns members)) := by
    refine onNode_leads fun p n hn => funext fun k => ?_
    rw [Plan.unlabelledAt, Plan.get?_set, Plan.unlabelledAt]
    split
    · rename_i hk
      rw [hk, hn]
      exact congrArg some unlabelled_loosenColumns
    · rfl
  refine node_leads.bind fun n => ?_
  cases n.inputs with
  | unary parent =>
    exact ask_leads.bind fun _ => .ite (ask_leads.bind fun _ => .ite (ask_leads.bind fun _ =>
      .ite (hloosen.bind fun _ => hloosen) .pure) .pure) .pure
  | _ => exact .pure

end PushUp

theorem Pass.pushUp_unlabelled : Leads (Same Plan.unlabelledAt) pushUp.run :=
  run_leads (fun _ _ => .ite PushUp.visit_unlabelled .pure) .pure

/-- A node that collects and is up to date stores what it collects with the recipients. -/
theorem Plan.Settled.collects {p : Plan} {k : NodeId} {n : Node} {recipients : PartySet} (hp : p.Settled)
    (hn : p.nodes.get? k = some n) (hop : n.op = .collect recipients) :
    Storage.ofMembers recipients = .ok n.rel.storage ∧ n.rel.Owned := by
  obtain ⟨ins, _, hins, hn', hnew⟩ := steadyAt_iff.mp (hp k n hn (by simp [hop]))
  cases hn.symm.trans hn'
  obtain ⟨-, st?, cols?, hst, hcols, hsame⟩ := Node.run_refresh.mp hnew
  have hrel := congrArg Node.rel hsame
  rw [hop] at hst hcols
  obtain ⟨st, hst', rfl⟩ := map_eq_ok.mp hst
  obtain ⟨cols, -, rfl⟩ := map_eq_ok.mp hcols
  rw [← hrel]
  exact ⟨hst', Relation.owned_renumber⟩

-- ---------------------------------------------------------------------------
-- Both pipelines
-- ---------------------------------------------------------------------------

namespace Edit

open Plan

variable {p q : Plan} {s : NodeId} {d : Delivery} {optimize : Bool}

theorem wp_boundary {pass : Pass} (hpass : pass ∈ Pass.boundaries) (hp : p.Carries s d) :
    wp pass.run (fun _ q => q.Carries s d) p := by
  simp only [Pass.boundaries, List.mem_cons, List.not_mem_nil, or_false] at hpass
  rcases hpass with rfl | rfl | rfl | rfl
  · exact Pass.wp_insertClose hp
  · exact Pass.wp_insertOpen hp
  · exact Pass.wp_insertRead hp
  · exact Pass.wp_insertStore hp

theorem wp_boundaries {passes : List Pass} (hpasses : ∀ pass ∈ passes, pass ∈ Pass.boundaries) (hp : p.Carries s d) :
    wp (passes.forM Pass.run) (fun _ q => q.Carries s d) p := by
  refine (wp.forM (motive := fun l r => (∀ pass ∈ l, pass ∈ Pass.boundaries) ∧ r.Carries s d)
    ?_ ⟨hpasses, hp⟩).mono fun _ _ _ h => h.2
  rintro pass l r ⟨hl, hr⟩
  exact (wp_boundary (hl pass List.mem_cons_self) hr).mono fun _ _ _ hq =>
    ⟨fun pass hpass => hl pass (List.mem_cons_of_mem _ hpass), hq⟩

theorem wp_insertBoundaries (hp : p.Carries s d) : wp insertBoundaries (fun _ q => q.Carries s d) p :=
  wp_boundaries (fun _ h => h) hp

theorem wp_prepare (optimize : Bool) (hp : p.Carries s d) : wp (prepare optimize) (fun _ q => q.Carries s d) p := by
  cases optimize with
  | false => exact .pure hp
  | true =>
    exact .bind ((Pass.wp_pushDown hp).mono fun _ _ _ hr => Pass.wp_pushUp hr)

theorem exists_validate (hp : p.Carries s d) : validate p = .ok () p :=
  run_validate.mpr ⟨hp.toEndsIn.validate hp.coherent, rfl⟩

theorem wp_compile (optimize : Bool) (h : p.Carries s d) : wp (compile optimize) (fun _ q => q.Carries s d) p := by
  have hrefresh {r : Plan} (hr : r.Carries s d) : ∃ q, refreshAll r = .ok () q ∧ q.Carries s d := by
    obtain ⟨q, hrun, hq⟩ := refreshAll_records hr.coherent hr.sound hr.typed
    exact ⟨q, hrun, hr.records hq⟩
  cases optimize with
  | false =>
    refine .step (exists_validate h) (.bind ((wp_insertBoundaries h).mono fun _ r _ hr => ?_))
    obtain ⟨q, hrun, hq⟩ := hrefresh hr
    exact .step hrun (.of_ok (exists_validate hq) hq)
  | true =>
    refine .step (exists_validate h) (.bind ((Pass.wp_pushDown h).mono fun _ a _ ha => ?_))
    refine .bind ((Pass.wp_pushUp ha).mono fun _ b _ hb => ?_)
    refine .bind ((wp_insertBoundaries hb).mono fun _ c _ hc => ?_)
    obtain ⟨r, hrun, hr⟩ := hrefresh hc
    refine .step hrun (.bind ((Pass.wp_pushUp hr).mono fun _ q _ hq => ?_))
    exact .of_ok (exists_validate hq) hq

/-- Before labels are widened for the last time, everything has been derived. -/
theorem exists_settled_of_compile (hp : p.Orderly) (run : compile optimize p = .ok () q) :
    ∃ r, r.Orderly ∧ r.Settled ∧ widen optimize r = .ok () q := by
  obtain ⟨a, b, c, ha, hb, hc, hq⟩ := exists_of_compile run
  have ha := (prepare_serves hp ha).1
  have hab := insertBoundaries_reworks ha.coherent hb
  have hb := hab.coherent ha.coherent
  obtain ⟨hskeleton, hsound, hsettled⟩ := settled_of_refreshAll hb (hab.sound ha.sound).sourced hc
  exact ⟨c, ⟨hb.of_skeleton_eq hskeleton, hsound⟩, hsettled, hq⟩

theorem widen_unlabelled : Leads (Same Plan.unlabelledAt) (widen optimize) :=
  .ite Pass.pushUp_unlabelled .pure

end Edit

namespace Plan

variable {p q r : Plan} {s : NodeId} {n m : Node} {d : Delivery}

theorem EndsIn.exists_sink {recipients : PartySet} (h : p.EndsIn s recipients) (hp : p.Coherent) :
    ∃ n, p.nodes.get? s = some n ∧ p.sinks = [n] ∧ n.op = .collect recipients := by
  obtain ⟨n, hsinks, rfl, hop⟩ := h.sinks_eq hp
  obtain ⟨⟨k, hn⟩, -⟩ := hp.mem_sinks.mp (show n ∈ p.sinks by simp [hsinks])
  exact ⟨n, hp.keyed hn ▸ hn, hsinks, hop⟩

theorem schemaAt_of_unlabelledAt {k : NodeId} : p.schemaAt k = ((p.unlabelledAt k).map Relation.schema).getD [] := by
  rw [schemaAt, unlabelledAt, Option.map_map]
  cases p.nodes.get? k with
  | none => rfl
  | some n => simp [Relation.unlabelled, Relation.schema, Function.comp_def]

/-- The delivery does not depend on labels. -/
theorem Carries.of_unlabelled (hq : q.Carries s d) (houtline : q.outline = p.outline)
    (h : q.unlabelledAt = p.unlabelledAt) (hs : p.Sound) (ht : p.WellTyped) : p.Carries s d where
  toDelivers := hq.toDelivers.of_outline_eq houtline.symm
  sound := hs
  typed := ht
  schema := by rw [← hq.schema, schemaAt_of_unlabelledAt, schemaAt_of_unlabelledAt, h]
  name := (nameAt_of_outline_eq houtline.symm).trans hq.name

/-- What is delivered when everything has been derived is the same but for labels. -/
theorem Carries.unlabelled_eq (hp : p.Carries s d) (hr : r.Carries s d) (hsp : p.Settled) (hsr : r.Settled)
    (hn : p.nodes.get? s = some n) (hm : r.nodes.get? s = some m) : m.rel.unlabelled = n.rel.unlabelled := by
  have hop {p : Plan} {n : Node} (hp : p.Carries s d) (hn : p.nodes.get? s = some n) :
      n.op = .collect d.recipients ∧ n.rel.name = d.name ∧ n.rel.schema = d.schema := by
    obtain ⟨n', hn', hop, -⟩ := hp.sink
    cases hn.symm.trans hn'
    have hname := hp.name
    rw [nameAt, hn] at hname
    exact ⟨hop, Option.some.inj hname, (schemaAt_of_get? hn).symm.trans hp.schema⟩
  obtain ⟨hcollect, hname, hschema⟩ := hop hp hn
  obtain ⟨hcollect', hname', hschema'⟩ := hop hr hm
  obtain ⟨hstorage, howned⟩ := hsp.collects hn hcollect
  obtain ⟨hstorage', howned'⟩ := hsr.collects hm hcollect'
  exact Relation.unlabelled_eq (hname'.trans hname.symm) (Except.ok.inj (hstorage'.symm.trans hstorage))
    (hschema'.trans hschema.symm) ⟨(hr.sound s m hm).numbered, howned'⟩ ⟨(hp.sound s n hn).numbered, howned⟩

/-- A plan that has been built is well typed and makes a delivery. -/
theorem Built.exists_carries (hp : p.Built) : ∃ s recipients n,
    p.nodes.get? s = some n ∧ p.sinks = [n] ∧ n.op = .collect recipients ∧
      p.Carries s ⟨recipients, n.rel.name, n.rel.schema⟩ := by
  have hsimple := hp.simple
  obtain ⟨s, recipients, hends⟩ := hsimple.coherent.endsIn_of_validate hp.validate
  obtain ⟨n, hn, hsink, hop⟩ := hends.exists_sink hsimple.coherent
  exact ⟨s, recipients, n, hn, hsink, hop, ⟨hends, hsimple.coherent⟩, hsimple.sound,
    hp.settled.wellTyped hsimple.sound, schemaAt_of_get? hn, by rw [nameAt, hn]; rfl⟩

end Plan

namespace Edit

open Plan

variable {p q : Plan} {optimize : Bool}

end Edit

end JointPlan
