import JointPlan.Proofs.Borders
import JointPlan.Proofs.Contributing
import JointPlan.Proofs.Idling

namespace JointPlan

namespace Plan

open Edit Boundary

variable {p q : Plan} {id k c s u v : NodeId} {n m : Node} {rest : List NodeId} {st : Storage}

-- ---------------------------------------------------------------------------
-- What is closed
-- ---------------------------------------------------------------------------

/-- Closings have the labels of what they close. -/
theorem Enclosed.unlabelled (h : p.Enclosed q) (hq : q.Linked)
    (hp : ∀ k n, p.nodes.get? k = some n → Relation.Unlabelled [n.rel]) (hn : q.nodes.get? k = some n) :
    Relation.Unlabelled [n.rel] := by
  refine hq.input_induction (motive := fun _ n => Relation.Unlabelled [n.rel]) ?_ hn
  intro k n hn ih
  simp only [Relation.Unlabelled, List.forall_mem_singleton] at hp ih ⊢
  cases hm : p.nodes.get? k with
  | some m =>
    obtain ⟨n', hn', hpersists⟩ := h.persists k m hm
    cases hn.symm.trans hn'
    rw [hpersists.columns]
    exact hp k m hm
  | none =>
    obtain ⟨u, o, hin, ho, hcloses⟩ := h.closes k n hn hm
    rw [hcloses.columns, List.forall_mem_map]
    exact ih u (by simp [hin]) o ho

/-- While the nodes in `rest` have not been visited, nothing has been closed for them, and the nodes that something has been
closed for need MPC. -/
def Fed (rest : List NodeId) (p : Plan) : Prop := ∀ c k n st, p.opAt c = some (.closing st) → p.Feeds c k →
  p.nodes.get? k = some n → (n.op.arity = .binary ∨ n.op.arity = .nary) → k ∉ rest ∧ p.requiresMpc k = .ok true

/-- A visit leaves alone what has had its turn before. -/
theorem Fed.step (h : Fed (id :: rest) p) (hp : Sharing (id :: rest) p) (hq : q.Coherent) (hframe : At id p q)
    (henclosed : p.Enclosed q)
    (hnew : ∀ k n, q.nodes.get? k = some n → p.nextId ≤ k → ∃ st, n.op = .closing st ∧ n.rel.storage = st)
    (hid : ∀ c n st, q.opAt c = some (.closing st) → q.Feeds c id → q.nodes.get? id = some n →
      (n.op.arity = .binary ∨ n.op.arity = .nary) → q.requiresMpc id = .ok true) : Fed rest q := by
  intro c k n st hc hck hn hmulti
  by_cases hk : k = id
  · subst hk
    exact ⟨hp.ordered.1, hid c n st hc hck hn hmulti⟩
  have hlt : ¬ p.nextId ≤ k := by
    intro hle
    obtain ⟨st', hop, -⟩ := hnew k n hn hle
    simp [hop, Op.arity] at hmulti
  have halike : Alike p q k := hframe.alike k (by simp [hk, hlt])
  obtain ⟨m, hm, hshape⟩ := halike.symm.get? hn
  have hop : m.op = n.op := (congrArg Node.op hshape :)
  have hck' : p.Feeds c k := halike.feeds.mp hck
  obtain ⟨o, ho⟩ := hp.coherent.closed hck'
  have hclosing : p.opAt c = some (.closing st) := by
    obtain ⟨o', ho', hpersists⟩ := henclosed.persists c o ho
    obtain ⟨o'', ho'', hst⟩ := opAt_eq_some.mp hc
    cases ho'.symm.trans ho''
    exact opAt_eq_some.mpr ⟨o, ho, Op.closing_of_blank_eq hpersists.op.symm hst⟩
  obtain ⟨hnot, hmpc⟩ := h c k m st hclosing hck' hm (hop ▸ hmulti)
  refine ⟨fun hmem => hnot (List.mem_cons_of_mem _ hmem), ?_⟩
  rw [hp.coherent.toLinked.requiresMpc_alike hq.toLinked (hp.coherent.above_closed hp.ordered) (hp.alike_of_at hframe) k
    (mem_above hm hnot), hmpc]

end Plan

namespace Boundary

open Plan Edit

variable {p q : Plan} {id : NodeId} {n : Node} {rest : List NodeId} {shared : Storage} {u : Unit}

/-- Shares of several parties are computed on jointly, if they have no labels. -/
theorem Gathering.requiresMpc (h : Gathering p id shared [] q) (hn : q.nodes.get? id = some n)
    (hmulti : n.op.arity = .binary ∨ n.op.arity = .nary)
    (hunlabelled : ∀ k n, q.nodes.get? k = some n → Relation.Unlabelled [n.rel]) (hregular : shared.Regular)
    (hsize : shared.members.size ≠ 1) : q.requiresMpc id = .ok true := by
  obtain ⟨hinner, hcreate, hsource⟩ : n.op.isInner = true ∧ n.op ≠ .create ∧ n.op.isSource = false := by
    refine ⟨?_, ?_, ?_⟩ <;> cases hop : n.op <;> simp_all [Op.arity, Op.isInner, Op.isSource]
  obtain ⟨ins, hins, hst⟩ := h.steady.outputStorage? Node.restored_derivation hn hcreate
  have hne : Relation.holders ins ≠ [] := by
    obtain ⟨r, rest, rfl, -⟩ := Op.outputStorage?_of_multi (by rintro hop; simp [hop] at hmulti) hsource hst
    simp [Relation.holders]
  have hall : ∀ r ∈ ins, r.storage = shared := by
    intro r hr
    obtain ⟨w, hw, m, hm, rfl⟩ := (mem_inputRelations hins hn).mp hr
    obtain ⟨⟨m', hm', hst⟩, -⟩ := h.joint_all ⟨n, hn, hw⟩
    cases hm.symm.trans hm'
    exact hst
  have hholders : ∀ t ∈ Relation.holders ins, t = shared.members :=
    List.forall_mem_map.mpr fun r hr => congrArg Storage.members (hall r hr)
  rw [h.coherent.toLinked.requiresMpc_of_balanced hn hinner hcreate hins
    (unlabelled_inputs hn hins fun u _ m hm => hunlabelled u m hm) (fun r hr => hall r hr ▸ hregular)
    (PartySet.balanced_of_forall_eq hne hholders) (PartySet.unionAll_of_forall_eq hne hholders) shared.members_ne_empty]
  simp [hsize]

/-- Several parties store what has to be computed jointly. -/
theorem size_ne_one_of_requiresMpc (hp : p.Coherent) (hsteady : p.SteadyAt Node.restored id) (hn : p.nodes.get? id = some n)
    (hmulti : n.op.arity = .binary ∨ n.op.arity = .nary) (hmpc : p.requiresMpc id = .ok true) :
    n.rel.storage.members.size ≠ 1 := by
  obtain ⟨hcreate, hsource⟩ : n.op ≠ .create ∧ n.op.isSource = false := by
    refine ⟨?_, ?_⟩ <;> cases hop : n.op <;> simp_all [Op.arity, Op.isSource]
  obtain ⟨ins, hins, hst⟩ := hsteady.outputStorage? Node.restored_derivation hn hcreate
  rw [hp.toLinked.requiresMpc_of_multi hn hmulti hins, Except.ok.injEq] at hmpc
  obtain ⟨a, ha, b, hb, hab⟩ := Relation.exists_ne_of_requireMpc hmpc fun r hr a ha =>
    (Op.mem_members_outputStorage? hst (fun hop => by simp [hop] at hmulti) hsource
      (by rintro ⟨st, hop⟩; simp [hop, Op.arity] at hmulti)).mpr ⟨r, hr, ha⟩
  exact fun hone => hab (IdSet.eq_of_size_le_one hone.le ha hb)

theorem fed_of_closeInputs (h : Sharing (id :: rest) p) (hfed : Fed (id :: rest) p) (hn : p.nodes.get? id = some n)
    (hmulti : n.op.arity = .binary ∨ n.op.arity = .nary)
    (hunlabelled : ∀ k n, p.nodes.get? k = some n → Relation.Unlabelled [n.rel])
    (run : closeInputs id p = .ok u q) : Fed rest q := by
  obtain ⟨hq, henclosed⟩ := enclosed_of_closeInputs h.toIndexed hn (by rintro hop; simp [hop] at hmulti) run
  obtain ⟨r, hstorage, ⟨-, rfl⟩ | ⟨hmpc, m, hm, hend⟩⟩ := gathering_of_closeInputs h run
  all_goals obtain ⟨hr, hframe, hnext, hsteady⟩ := at_of_refreshStorage h.toIndexed hstorage
  · refine hfed.step h hq.coherent hframe henclosed
      (fun k n hn hk => absurd (hr.coherent.below hn) (Nat.not_lt.mpr (hnext ▸ hk))) fun c n' st hc hfeeds hn' _ => ?_
    -- nothing has been closed for the node before
    have houtline := (Renews.refreshStorage hstorage).outline
    obtain ⟨o, ho, hclosing⟩ := opAt_eq_some.mp hc
    obtain ⟨o', ho', hs⟩ := get?_of_outline_eq houtline ho
    have hclosing' := Op.closing_of_blank_eq (Node.blank_eq_of_outline_eq hs.symm) hclosing
    have hfeeds' := (SameGraph.of_outline_eq houtline).feeds.mp hfeeds
    exact absurd List.mem_cons_self (hfed c id n st (opAt_eq_some.mpr ⟨o', ho', hclosing'⟩) hfeeds' hn hmulti).1
  · refine hfed.step h hq.coherent hend.frame henclosed hend.new fun c n' st hc hfeeds hn' hmulti' => ?_
    have hmulti'' : m.op.arity = .binary ∨ m.op.arity = .nary := by
      obtain ⟨n'', hn'', hs⟩ := get?_of_outline_eq (Renews.refreshStorage hstorage).outline hm
      cases hn.symm.trans hn''
      rwa [Op.arity_eq_of_blank_eq (Node.blank_eq_of_outline_eq hs)]
    refine hend.requiresMpc hn' hmulti' (fun k n hn => henclosed.unlabelled hq.coherent.toLinked hunlabelled hn)
      Storage.regular_single ?_
    rw [Storage.members_shared]
    exact size_ne_one_of_requiresMpc hr.coherent hsteady hm hmulti'' hmpc

theorem fed_of_visitClose (h : Sharing (id :: rest) p) (hfed : Fed (id :: rest) p) (hn : p.nodes.get? id = some n)
    (hunlabelled : ∀ k n, p.nodes.get? k = some n → Relation.Unlabelled [n.rel])
    (run : visitClose id n.op p = .ok u q) : Fed rest q := by
  have hsingle (harity : n.op.arity ≠ .binary ∧ n.op.arity ≠ .nary) (hq : q.Indexed) (hframe : At id p q)
      (henclosed : p.Enclosed q) (hnext : q.nextId = p.nextId) : Fed rest q := by
    refine hfed.step h hq.coherent hframe henclosed
      (fun k m hm hk => absurd (hq.coherent.below hm) (Nat.not_lt.mpr (hnext ▸ hk))) fun c m st _ _ hm hmulti => ?_
    obtain ⟨m', hm', hpersists⟩ := henclosed.persists id n hn
    cases hm.symm.trans hm'
    rw [Op.arity_eq_of_blank_eq hpersists.op] at hmulti
    exact absurd hmulti (not_or.mpr harity)
  have henclosed := (enclosed_of_visitClose h.toIndexed hn run).2
  rw [visitClose] at run
  cases hop : n.op.arity <;> simp only [hop] at run
  case nullary =>
    obtain ⟨-, rfl⟩ := run_pure.mp run
    exact hsingle (by simp [hop]) h.toIndexed .refl henclosed rfl
  case unary =>
    obtain ⟨hq, hframe, hnext, -⟩ := at_of_refreshStorage h.toIndexed run
    exact hsingle (by simp [hop]) hq hframe henclosed hnext
  case binary => exact fed_of_closeInputs h hfed hn (.inl hop) hunlabelled run
  case nary => exact fed_of_closeInputs h hfed hn (.inr hop) hunlabelled run

end Boundary

namespace Pass

open Plan Edit Boundary

variable {p q : Plan} {u : Unit}

/-- Only for computations that need MPC, and still do in the end, something is closed. -/
theorem fed_of_insertClose (hp : p.Orderly) (hplain : p.Plain)
    (hunlabelled : ∀ k n, p.nodes.get? k = some n → Relation.Unlabelled [n.rel]) (run : insertClose.run p = .ok u q) :
    Fed [] q := by
  have hnone (order : List NodeId) : Fed order p := by
    intro c k n st hc
    obtain ⟨o, ho, hclosing⟩ := opAt_eq_some.mp hc
    exact absurd ⟨st, hclosing⟩ (hplain.not_isClosing ho)
  obtain ⟨r, ⟨hsharing, -, hfed⟩, -, hfinish⟩ := exists_of_visits
    (motive := fun rest s => Sharing rest s ∧ p.Enclosed s ∧ Fed rest s) hp.coherent (fun _ _ => insertClose_visit_reworks)
    (fun order horder => ⟨hp.indexed.sharing horder, .refl, hnone _⟩)
    (fun ⟨hsharing, henclosed, hfed⟩ hr hn hvisit =>
      ⟨sharing_of_visitClose hsharing hn hvisit,
        henclosed.trans (enclosed_of_visitClose hsharing.toIndexed hn hvisit).2,
        fed_of_visitClose hsharing hfed hn (fun _ _ hm => henclosed.unlabelled hr.toLinked hunlabelled hm) hvisit⟩) run
  have hstowed : r.Stowed := fun k n hn hop => hsharing.steady k n hn hop List.not_mem_nil
  cases hfinish.symm.trans (propagateStorage_of_stowed hsharing.coherent hstowed)
  exact hfed

end Pass

-- ---------------------------------------------------------------------------
-- Standings
-- ---------------------------------------------------------------------------

/-- What is known of a node: the parties that have a part in what it yields, whether it has been closed, and whether it
comes from something that has been opened. -/
structure Standing where
  parties : PartySet
  closed : Bool
  opened : Bool

/-- A node yields something of standing `y` if its inputs have the standings `ins`. If `final` is set, all that is
delivered has been opened or belongs to one party. -/
structure Node.Stands (final : Bool) (n : Node) (ins : List Standing) (y : Standing) : Prop where
  holders : Rule.holders.allows n (ins.map Standing.parties) y.parties
  quiet : n.op ≠ .opening → n.op.publishes = false
  source : n.op = .create → Relation.Unlabelled [n.rel] ∧ n.rel.storage.Regular
  closing : ∀ st, n.op = .closing st → st.Regular ∧ y.closed = true
  opening : n.op = .opening → y.opened = true ∧ ∀ i ∈ ins, i.opened = false ∧ i.parties.size ≠ 1
  below : ∀ i ∈ ins, i.opened = true → y.opened = true
  inner : n.op.isInner = true → y.opened = false
  plain : n.op.isBoundary = false → y.closed = false
  single : n.op.isBoundary = false → n.op.arity = .unary → ∀ i ∈ ins, i.closed = false
  several : n.op.arity = .binary ∨ n.op.arity = .nary → ∀ i ∈ ins,
    (y.parties.size = 1 → i.closed = false) ∧ (y.parties.size ≠ 1 → i.closed = true ∨ i.parties = y.parties)
  delivery : final = true → ∀ recipients, n.op = .collect recipients → ∀ i ∈ ins, i.opened = true ∨ i.parties.size = 1

def Rule.standings (final : Bool) : Rule Standing where
  allows n ins y := n.Stands final ins y
  congr {n m ins y} hop hrel h := by
    have hback {op : Op} (hb : op.bound = []) (hm : m.op = op) : n.op = op :=
      Op.eq_of_bare_eq (hop.symm.trans (congrArg _ hm)) hb
    have harity := Op.arity_eq_of_blank_eq (Op.blank_eq_of_bare_eq hop)
    have hborder := Op.isBoundary_eq_of_bare_eq hop
    have hinner : m.op.isInner = n.op.isInner := by rw [← Op.isInner_bare, hop, Op.isInner_bare]
    refine ⟨Rule.holders.congr hop hrel h.holders, fun hm => ?_, fun hm => ?_, fun st hm => h.closing st (hback rfl hm),
      fun hm => h.opening (hback rfl hm), h.below, hinner ▸ h.inner, hborder ▸ h.plain,
      hborder ▸ harity ▸ h.single, harity ▸ h.several, fun hfinal recipients hm => h.delivery hfinal recipients (hback rfl hm)⟩
    · rw [Op.publishes_eq_of_bare_eq hop]
      exact h.quiet fun hn => hm (Op.eq_of_bare_eq (hop.trans (congrArg _ hn)) rfl)
    · rw [hrel (hback rfl hm)]
      exact h.source (hback rfl hm)

/-- Reads and stores hand on what they get. -/
theorem Rule.standings_yields {final : Bool} {op : Op} {y : Standing} (hop : op = .read ∨ op = .store) :
    (Rule.standings final).Yields [y] op y := by
  rintro n rfl
  refine ⟨?_, ?_, ?_, ?_, ?_, ?_, ?_, ?_, ?_, ?_, ?_⟩
  all_goals rcases hop with hop | hop <;> simp [hop, Rule.holders, Op.publishes, Op.grouping?, Op.isInner, Op.isBoundary, Op.arity]

namespace Plan

open Edit Boundary

variable {p q : Plan} {k s u v : NodeId} {n m : Node} {st : Storage} {final : Bool}

section Holders

variable {w : NodeId → PartySet} (h : p.Conserves) (hp : p.Linked) (hw : p.Obeys .holders w w)

include h hp hw

theorem Conserves.mem_iff_draws (hn : p.nodes.get? k = some n) {a : PartyId} : a ∈ w k ↔ p.Draws k a := by
  refine hp.input_induction (motive := fun k _ => a ∈ w k ↔ p.Draws k a) ?_ hn
  intro k n hn ih
  obtain ⟨hcreate, hcollect, hothers⟩ := hw k n hn
  cases hsource : n.op.isSource with
  | true =>
    rw [draws_source hn hsource]
    obtain hop | ⟨recipients, hop⟩ := Op.isSource_iff.mp hsource
    · rw [hcreate hop]
    · rw [hcollect recipients hop, h.collected k n recipients hn hop]
  | false =>
    rw [draws_input hn hsource, hothers hsource, PartySet.mem_unionAll]
    simp only [List.mem_map, exists_exists_and_eq_and]
    refine exists_congr fun u => and_congr_right fun hu => ?_
    obtain ⟨m, hm⟩ := hp.closed ⟨n, hn, hu⟩
    exact ih u hu m hm

/-- What is not closed is stored with those that have a part in it. -/
theorem Conserves.members_eq (hn : p.nodes.get? k = some n) (hop : ¬ IsClosing n.op) : n.rel.storage.members = w k :=
  IdSet.ext fun a => (h.stored k n hn hop a).trans (h.mem_iff_draws hp hw hn).symm

/-- What is closed is stored with those that have a part in what it is closed for. -/
theorem Conserves.members_closing (hn : p.nodes.get? u = some n) (hop : n.op = .closing st) (hm : p.nodes.get? k = some m)
    (hu : u ∈ m.inputs.ids) (hreader : ¬ IsClosing m.op) : n.rel.storage.members = w k :=
  IdSet.ext fun a => by
    rw [h.closed u n st hn hop, h.shared u n st k m hn hop hm hu hreader, h.mem_iff_draws hp hw hm]

end Holders

/-- The plan has the standings `w`. Relations that do not come from opened ones have no labels, and such a relation
is read by a computation as it has been computed, or closed. -/
structure Upholds (p : Plan) (final : Bool) (w : NodeId → Standing) : Prop where
  coherent : p.Coherent
  conserves : p.Conserves
  obeys : p.Obeys (.standings final) w w
  unlabelled : ∀ k n, p.nodes.get? k = some n → (w k).opened = false → Relation.Unlabelled [n.rel]
  regular : ∀ u v n, p.Feeds u v → p.nodes.get? u = some n → n.rel.storage.Regular
  entry : ∀ u v n m, p.Feeds u v → p.nodes.get? u = some n → p.nodes.get? v = some m → m.op.isInner = true →
    n.op.isBoundary = true → (w u).opened = false → IsClosing n.op

/-- The border has openings and closings only. -/
def Unread (p : Plan) : Prop :=
  ∀ k n, p.nodes.get? k = some n → n.op.isBoundary = true → n.op = .opening ∨ IsClosing n.op

namespace Upholds

variable {w : NodeId → Standing} (h : p.Upholds final w)

include h

theorem holders : p.Obeys .holders (fun k => (w k).parties) fun k => (w k).parties := by
  intro k n hn
  simpa [Function.comp_def] using (h.obeys k n hn).holders

theorem members_eq (hn : p.nodes.get? k = some n) (hop : ¬ IsClosing n.op) : n.rel.storage.members = (w k).parties :=
  h.conserves.members_eq h.coherent.toLinked h.holders hn hop

theorem opened_input (hn : p.nodes.get? k = some n) (hk : (w k).opened = false) (hu : u ∈ n.inputs.ids) :
    (w u).opened = false :=
  Bool.eq_false_iff.mpr fun ho =>
    Bool.false_ne_true (hk.symm.trans ((h.obeys k n hn).below (w u) (List.mem_map_of_mem hu) ho))

/-- An input of a computation is stored with those that have a part in it, or with all that have a part in the computation. -/
theorem members_input (hn : p.nodes.get? k = some n) (hinner : n.op.isInner = true) (hu : u ∈ n.inputs.ids)
    (hm : p.nodes.get? u = some m) :
    m.rel.storage.members = if (w u).closed then (w k).parties else (w u).parties := by
  cases hclosed : (w u).closed with
  | true =>
    have hopened := h.opened_input hn ((h.obeys k n hn).inner hinner) hu
    have hboundary : m.op.isBoundary = true := by
      by_contra hnot
      rw [(h.obeys u m hm).plain (Bool.eq_false_iff.mpr hnot)] at hclosed
      cases hclosed
    obtain ⟨st, hst⟩ := h.entry u k m n ⟨n, hn, hu⟩ hm hn hinner hboundary hopened
    exact h.conserves.members_closing h.coherent.toLinked h.holders hm hst hn hu
      (Op.not_isClosing_of_isInner hinner)
  | false =>
    refine h.members_eq hm ?_
    rintro ⟨st, hst⟩
    rw [((h.obeys u m hm).closing st hst).2] at hclosed
    cases hclosed

/-- Those that have a part in a computation, seen from its inputs. -/
theorem holders_inputs {ins : List Relation} (hn : p.nodes.get? k = some n) (hinner : n.op.isInner = true)
    (hop : n.op ≠ .create) (hins : p.inputRelations k = .ok ins) :
    PartySet.unionAll (Relation.holders ins) = (w k).parties ∧ PartySet.Balanced (Relation.holders ins) := by
  have hstands := h.obeys k n hn
  have hborder := Op.isBoundary_of_isInner hinner
  have hsource := Op.isSource_of_isInner hinner hop
  have hparties : (w k).parties = PartySet.unionAll (n.inputs.ids.map fun u => (w u).parties) :=
    (h.holders k n hn).2.2 hsource
  have hmap : Relation.holders ins = n.inputs.ids.map fun u => if (w u).closed then (w k).parties else (w u).parties := by
    rw [map_holdersAt hn hins]
    refine List.map_congr_left fun u hu => ?_
    obtain ⟨m, hm⟩ := h.coherent.closed ⟨n, hn, hu⟩
    rw [holdersAt_of_get? hm, h.members_input hn hinner hu hm]
  have hopen (hclosed : ∀ u ∈ n.inputs.ids, (w u).closed = false) :
      PartySet.unionAll (Relation.holders ins) = (w k).parties := by
    rw [hmap, List.map_congr_left fun u hu => if_neg (by simp [hclosed u hu]), hparties]
  by_cases hunary : n.op.arity = .unary
  · obtain ⟨r, rfl⟩ := h.coherent.inputRelations_of_unary hn hunary hins
    exact ⟨hopen fun u hu => hstands.single hborder hunary (w u) (List.mem_map_of_mem hu), PartySet.balanced_singleton⟩
  have hmulti : n.op.arity = .binary ∨ n.op.arity = .nary := by cases hcase : n.op <;> simp_all [Op.arity]
  have hseveral (u : NodeId) (hu : u ∈ n.inputs.ids) := hstands.several hmulti (w u) (List.mem_map_of_mem hu)
  by_cases hone : (w k).parties.size = 1
  · have hunion := hopen fun u hu => (hseveral u hu).1 hone
    exact ⟨hunion, fun _ => hunion ▸ hone⟩
  · have hall : ∀ t ∈ Relation.holders ins, t = (w k).parties := by
      rw [hmap, List.forall_mem_map]
      intro u hu
      rcases (hseveral u hu).2 hone with hclosed | hsame
      · rw [if_pos hclosed]
      · rw [hsame, ite_self]
    have hne : Relation.holders ins ≠ [] := by
      rw [hmap, ne_eq, List.map_eq_nil_iff]
      intro hnil
      rw [hnil] at hparties
      exact n.rel.storage.members_ne_empty
        ((h.members_eq hn (Op.not_isClosing_of_isInner hinner)).trans hparties)
    exact ⟨PartySet.unionAll_of_forall_eq hne hall, PartySet.balanced_of_forall_eq hne hall⟩

/-- A computation is joint exactly if several parties have a part in it. -/
theorem requiresMpc (hn : p.nodes.get? k = some n) (hinner : n.op.isInner = true) :
    p.requiresMpc k = .ok !decide ((w k).parties.size = 1) := by
  have hnot := Op.not_isClosing_of_isInner hinner
  by_cases hop : n.op = .create
  · obtain ⟨hunlabelled, hregular⟩ := (h.obeys k n hn).source hop
    rw [← h.members_eq hn hnot]
    exact h.coherent.toLinked.requiresMpc_of_source hn hop hunlabelled hregular
  obtain ⟨ins, hins⟩ := exists_inputRelations hn (h.coherent.toLinked.exists_input hn)
  obtain ⟨hunion, hbalanced⟩ := h.holders_inputs hn hinner hop hins
  refine h.coherent.toLinked.requiresMpc_of_balanced hn hinner hop hins (unlabelled_inputs hn hins fun u hu m hm => ?_)
    (fun r hr => ?_) hbalanced hunion ?_
  · exact h.unlabelled u m hm (h.opened_input hn ((h.obeys k n hn).inner hinner) hu)
  · obtain ⟨u, hu, m, hm, rfl⟩ := (mem_inputRelations hins hn).mp hr
    exact h.regular u k m ⟨n, hn, hu⟩ hm
  · rw [← h.members_eq hn hnot]
    exact n.rel.storage.members_ne_empty

end Upholds

end Plan

namespace Plan

open Edit Boundary

variable {p q : Plan} {k u : NodeId} {n m : Node} {st : Storage} {v : NodeId → PartySet} {post : NodeId → Station}

section Closed

variable (hs : Sharing [] p) (hfed : Fed [] p) (hb : p.Bordered post) (honly : p.Only post [.step, .meet, .closing])

theorem Bordered.closing_of_isBoundary (hb : p.Bordered post) (honly : p.Only post [.step, .meet, .closing])
    (hn : p.nodes.get? k = some n) (hop : n.op.isBoundary = true) : ∃ st, n.op = .closing st := by
  have hholds := hb.holds k n hn
  have hpost := honly k n hn
  simp only [List.mem_cons, List.not_mem_nil, or_false] at hpost
  rcases hpost with hk | hk | hk <;> rw [hk] at hholds
  · simp [Station.holds, hop] at hholds
  · cases hcase : n.op <;> simp_all [Station.holds, Op.arity, Op.isBoundary]
  · exact Station.eq_closing_of_holds hholds

theorem Bordered.multi_of_closing (hb : p.Bordered post) (hn : p.nodes.get? u = some n) (hop : n.op = .closing st)
    (hm : p.nodes.get? k = some m) (hu : u ∈ m.inputs.ids) : m.op.arity = .binary ∨ m.op.arity = .nary := by
  have hedge := hb.edge u k ⟨m, hm, hu⟩
  have hpost : post u = .closing := Station.of_holds_closing (hop ▸ hb.holds u n hn)
  rw [hpost] at hedge
  have hholds := hb.holds k m hm
  rw [show post k = .meet from of_decide_eq_true hedge] at hholds
  simpa [Station.holds] using hholds

include hs hfed hb

/-- What reads something closed gets all its inputs in one place. -/
theorem Fed.storage_eq (hn : p.nodes.get? u = some n) (hop : n.op = .closing st) (hm : p.nodes.get? k = some m)
    (hu : u ∈ m.inputs.ids) : p.requiresMpc k = .ok true ∧ n.rel.storage = m.rel.storage.shared := by
  have hmulti := hb.multi_of_closing hn hop hm hu
  have hmpc := (hfed u k m st (opAt_eq_some.mpr ⟨n, hn, hop⟩) ⟨m, hm, hu⟩ hm hmulti).2
  obtain ⟨⟨n', hn', hst⟩, -⟩ := hs.joint k m hm hmulti List.not_mem_nil hmpc u ⟨m, hm, hu⟩
  cases hn.symm.trans hn'
  exact ⟨hmpc, hst⟩

theorem Fed.regular_closing (hn : p.nodes.get? u = some n) (hop : n.op = .closing st) : st.Regular ∧ n.rel.storage = st := by
  obtain ⟨k, hk⟩ := hb.single u n hn (.inl (Station.of_holds_closing (hop ▸ hb.holds u n hn)))
  obtain ⟨m, hm, hu⟩ := (hk k).mpr rfl
  have hst := (hs.steady u n hn (by simp [hop]) List.not_mem_nil).storage_of_closing hn hop
  rw [← hst, (hfed.storage_eq hs hb hn hop hm hu).2]
  exact ⟨Storage.regular_single, rfl⟩

theorem Fed.regular (hv : p.Obeys .quiet v v) (hn : p.nodes.get? k = some n) : n.rel.storage.Regular := by
  refine hs.coherent.toLinked.input_induction (motive := fun _ n => n.rel.storage.Regular) ?_ hn
  intro k n hn ih
  by_cases hop : n.op = .create
  · exact ((hv k n hn).2.2.1 hop).2
  obtain ⟨ins, hins, hst⟩ := (hs.steady k n hn hop List.not_mem_nil).outputStorage? Node.restored_derivation hn hop
  refine Op.regular_outputStorage? hst (fun hop => hs.coherent.inputRelations_of_unary hn hop hins) (fun r hr => ?_)
    fun st hop => (hfed.regular_closing hs hb hn hop).1
  obtain ⟨u, hu, m, hm, rfl⟩ := (mem_inputRelations hins hn).mp hr
  exact ih u hu m hm

/-- A node with several inputs works on shares if several parties take part in it. -/
theorem Fed.several (hconserves : p.Conserves) (hv : p.Obeys .quiet v v)
    (hunlabelled : ∀ k n, p.nodes.get? k = some n → Relation.Unlabelled [n.rel]) (hm : p.nodes.get? k = some m)
    (hmulti : m.op.arity = .binary ∨ m.op.arity = .nary) (hn : p.nodes.get? u = some n) (hu : u ∈ m.inputs.ids) :
    ((v k).size = 1 → ¬ IsClosing n.op) ∧ ((v k).size ≠ 1 → IsClosing n.op ∨ v u = v k) := by
  obtain ⟨hinner, hcreate, hnot⟩ : m.op.isInner = true ∧ m.op ≠ .create ∧ ¬ IsClosing m.op := by
    refine ⟨?_, ?_, ?_⟩
    · cases hop : m.op <;> simp_all [Op.arity, Op.isInner]
    · intro hop
      simp [hop, Op.arity] at hmulti
    · rintro ⟨st, hop⟩
      simp [hop, Op.arity] at hmulti
  have hlinked := hs.coherent.toLinked
  have hholders : p.Obeys .holders v v := fun k n hn => (hv k n hn).1
  have hsteady := hs.steady k m hm hcreate List.not_mem_nil
  have hstored := hconserves.members_eq hlinked hholders hm hnot
  constructor
  · rintro hone ⟨st, hop⟩
    refine size_ne_one_of_requiresMpc hs.coherent hsteady hm hmulti (hfed.storage_eq hs hb hn hop hm hu).1 ?_
    rwa [hstored]
  intro hseveral
  by_cases hclosing : IsClosing n.op
  · exact .inl hclosing
  have hmpc : p.requiresMpc k = .ok true := by
    by_cases hany : ∃ c ∈ m.inputs.ids, ∃ o, p.nodes.get? c = some o ∧ IsClosing o.op
    · obtain ⟨c, hc, o, ho, st, hop⟩ := hany
      exact (hfed.storage_eq hs hb ho hop hm hc).1
    obtain ⟨ins, hins⟩ := exists_inputRelations hm (hlinked.exists_input hm)
    have hmap : Relation.holders ins = m.inputs.ids.map v := by
      rw [map_holdersAt hm hins]
      refine List.map_congr_left fun c hc => ?_
      obtain ⟨o, ho⟩ := hlinked.closed ⟨m, hm, hc⟩
      rw [holdersAt_of_get? ho]
      exact hconserves.members_eq hlinked hholders ho fun hop => hany ⟨c, hc, o, ho, hop⟩
    have hregular : ∀ r ∈ ins, r.storage.Regular := by
      intro r hr
      obtain ⟨c, -, o, ho, rfl⟩ := (mem_inputRelations hins hm).mp hr
      exact hfed.regular hs hb hv ho
    obtain ⟨⟨-, -, hunion⟩, -, -, hbalanced⟩ := hv k m hm
    have hsource : m.op.isSource = false := by cases hop : m.op <;> simp_all [Op.arity, Op.isSource]
    rw [hlinked.requiresMpc_of_balanced hm hinner hcreate hins (unlabelled_inputs hm hins fun c _ o ho => hunlabelled c o ho)
      hregular (hmap ▸ hbalanced hmulti) (hmap ▸ (hunion hsource).symm) (hstored ▸ m.rel.storage.members_ne_empty)]
    simp [hseveral]
  obtain ⟨⟨n', hn', hst⟩, -⟩ := hs.joint k m hm hmulti List.not_mem_nil hmpc u ⟨m, hm, hu⟩
  cases hn.symm.trans hn'
  right
  rw [← hstored, ← hconserves.members_eq hlinked hholders hn hclosing, hst, Storage.members_shared]

end Closed

end Plan

namespace Pass

open Plan Edit Boundary

variable {p q : Plan} {u : Unit}

/-- When the inputs of joint computations have been closed, every node has its standing. -/
theorem upholds_of_insertClose (hp : p.Orderly) (hplain : p.Plain) (hquiet : p.Quiet) (hconserves : p.Conserves)
    (run : insertClose.run p = .ok u q) : ∃ w, q.Upholds false w ∧ q.Unread := by
  have hreworked := insertClose_reworks hp.coherent run
  have hsharing := sharing_of_insertClose hp.indexed run
  have hfed := fed_of_insertClose hp hplain hquiet.unlabelled run
  obtain ⟨post, hb, honly⟩ := bordered_of_insertClose hp hplain run
  have hq := hsharing.coherent
  have hconserves' := conserves_of_insertClose hconserves hp run
  have hunlabelled : ∀ k n, q.nodes.get? k = some n → Relation.Unlabelled [n.rel] := fun k n hn =>
    (enclosed_of_insertClose hp.indexed run).unlabelled hq.toLinked hquiet.unlabelled hn
  obtain ⟨v, hv⟩ := hreworked.obeys (R := .quiet) hp.coherent hp.sound
    (fun op a ⟨st, hst⟩ => hst ▸ Rule.quiet_yields rfl rfl rfl) hquiet.obeys
  have hclosing {k : NodeId} {n : Node} (hn : q.nodes.get? k = some n) : n.op.isBoundary = true ↔ IsClosing n.op := by
    refine ⟨hb.closing_of_isBoundary honly hn, ?_⟩
    rintro ⟨st, hst⟩
    rw [hst]
    rfl
  refine ⟨fun k => ⟨v k, (q.nodes.get? k).any fun n => n.op.isBoundary, false⟩, ?_, fun k n hn hop => .inr ((hclosing hn).mp hop)⟩
  refine ⟨hq, hconserves', fun k n hn => ?_, fun k n hn _ => hunlabelled k n hn,
    fun u _ n _ hn => hfed.regular hsharing hb hv hn, fun u _ n _ _ hn _ _ hop _ => (hclosing hn).mp hop⟩
  obtain ⟨hholders, hpublishes, hsource, -⟩ := hv k n hn
  have hinput {i : Standing} (hi : i ∈ n.inputs.ids.map fun k => ⟨v k, (q.nodes.get? k).any fun n => n.op.isBoundary, false⟩) :
      ∃ u ∈ n.inputs.ids, ∃ m, q.nodes.get? u = some m ∧ i = ⟨v u, m.op.isBoundary, false⟩ := by
    obtain ⟨u, hu, rfl⟩ := List.mem_map.mp hi
    obtain ⟨m, hm⟩ := hq.closed ⟨n, hn, hu⟩
    exact ⟨u, hu, m, hm, by simp [hm]⟩
  refine ⟨by simpa [Function.comp_def] using hholders, fun _ => hpublishes, hsource, fun st hop => ?_, fun hop => ?_,
    fun i hi ho => ?_, fun _ => rfl, fun hop => by simp [hn, hop], fun hop harity i hi => ?_, fun hmulti i hi => ?_, by simp⟩
  · exact ⟨(hfed.regular_closing hsharing hb hn hop).1, by simp [hn, hop, Op.isBoundary]⟩
  · obtain ⟨st, hst⟩ := (hclosing hn).mp (by rw [hop]; rfl)
    cases hop.symm.trans hst
  · obtain ⟨u, -, m, -, rfl⟩ := hinput hi
    cases ho
  · obtain ⟨u, hu, m, hm, rfl⟩ := hinput hi
    refine Bool.eq_false_iff.mpr fun hboundary => ?_
    obtain ⟨st, hst⟩ := (hclosing hm).mp hboundary
    simpa [harity] using hb.multi_of_closing hm hst hn hu
  · obtain ⟨u, hu, m, hm, rfl⟩ := hinput hi
    obtain ⟨hone, hseveral⟩ := hfed.several hsharing hb hconserves' hv hunlabelled hn hmulti hm hu
    refine ⟨fun h => Bool.eq_false_iff.mpr fun hboundary => hone h ((hclosing hm).mp hboundary), fun h => ?_⟩
    exact (hseveral h).imp (hclosing hm).mpr id

end Pass

end JointPlan
