import JointPlan.Proofs.Handoffs
import JointPlan.Proofs.Provenance

/-!
# Sharing the inputs of joint computations

The first boundary pass derives every node when its turn comes and shares the inputs of those
that need MPC. What it has done at a node is not touched again when nodes further down are
visited. So in the end all storage is up to date, and every joint computation gets its inputs
as shares among all parties that take part in it. A second run finds nothing to do.
-/

namespace JointPlan

theorem Storage.shared_shared {st : Storage} : st.shared.shared = st.shared :=
  Storage.ext (congrArg (fun s => [s]) members_shared)

namespace Plan

open Boundary

variable {p q : Plan} {id k u : NodeId} {n : Node} {rest : List NodeId} {st : Storage} {parent : NodeId} {cs : NodeSet}
  {op : Op}

-- ---------------------------------------------------------------------------
-- Nodes that have had their turn
-- ---------------------------------------------------------------------------

/-- The nodes that are not in the list. -/
def above (p : Plan) (rest : List NodeId) : Set NodeId := {k | p.contains k = true ∧ k ∉ rest}

theorem mem_above (hn : p.nodes.get? k = some n) (hk : k ∉ rest) : k ∈ p.above rest :=
  ⟨contains_of_get? hn, hk⟩

theorem Coherent.above_closed (hp : p.Coherent) (h : p.Ordered rest) :
    ∀ u v, p.Feeds u v → v ∈ p.above rest → u ∈ p.above rest := by
  intro u v huv hv
  obtain ⟨m, hm⟩ := hp.closed huv
  exact mem_above hm fun hu => hv.2 (hp.mem_of_feeds h hu huv)

/-- The node needs MPC, and its output is in the given place. -/
def Joint (p : Plan) (st : Storage) (u : NodeId) : Prop :=
  (∃ m, p.nodes.get? u = some m ∧ m.rel.storage = st) ∧ p.requiresMpc u = .ok true

theorem Joint.arrives (h : p.Joint st u) : Arrives p st u :=
  have ⟨⟨m, hm, hst⟩, hmpc⟩ := h
  ⟨m, hm, .inr ⟨hst, hmpc⟩⟩

theorem Joint.of_alike {above : Set NodeId} (h : p.Joint st u) (hp : p.Linked) (hq : q.Linked)
    (habove : ∀ u v, p.Feeds u v → v ∈ above → u ∈ above) (halike : ∀ k ∈ above, Alike p q k) (hu : u ∈ above) :
    q.Joint st u := by
  obtain ⟨⟨m, hm, hst⟩, hmpc⟩ := h
  obtain ⟨m', hm', hshape⟩ := (halike u hu).get? hm
  have hrel : m'.rel = m.rel := (congrArg Node.rel hshape :)
  exact ⟨⟨m', hm', hrel ▸ hst⟩, (hp.requiresMpc_alike hq habove halike u hu).trans hmpc⟩

-- ---------------------------------------------------------------------------
-- Storage that is up to date
-- ---------------------------------------------------------------------------

theorem SteadyAt.storage_of_closing (h : p.SteadyAt Node.restored k) (hn : p.nodes.get? k = some n)
    (hop : n.op = .closing st) : n.rel.storage = st := by
  obtain ⟨ins, -, hst⟩ := h.outputStorage? Node.restored_derivation hn (by simp [hop])
  rw [hop, Op.outputStorage?, Except.ok.injEq, Option.some.injEq] at hst
  exact hst.symm

/-- A closing is up to date when it is stored where it says. -/
theorem Coherent.steadyAt_closing (hp : p.Coherent) (hn : p.nodes.get? k = some n) (hop : n.op = .closing st)
    (hst : n.rel.storage = st) : p.SteadyAt Node.restored k := by
  obtain ⟨ins, hins⟩ := exists_inputRelations hn (hp.toLinked.exists_input hn)
  refine steadyAt_iff.mpr ⟨ins, n, hins, hn, Node.run_refreshStorage.mpr ⟨?_, some st, ?_, ?_⟩⟩
  · simp [hop, Op.Binds, Op.sides, Op.bound]
  · rw [hop]
    rfl
  · rw [Option.getD_some, ← hst]
    exact congrArg (fun op => { n with op }) (show n.op.fill ins = n.op by rw [hop]; rfl)

/-- The output of a computation on shares is a share in the same place. -/
theorem SteadyAt.storage_of_multi (h : p.SteadyAt Node.restored k) (hn : p.nodes.get? k = some n)
    (hop : n.op.arity = .binary ∨ n.op.arity = .nary)
    (hin : ∀ u, p.Feeds u k → ∃ m, p.nodes.get? u = some m ∧ m.rel.storage = st) : n.rel.storage = st := by
  have hsource : n.op.isSource = false := by
    cases hcase : n.op <;> first | rfl | simp [hcase, Op.arity] at hop
  have hcreate : n.op ≠ .create := by
    intro h
    simp [h, Op.arity] at hop
  obtain ⟨ins, hins, hst⟩ := h.outputStorage? Node.restored_derivation hn hcreate
  have hall : ∀ r ∈ ins, r.storage = st := by
    intro r hr
    obtain ⟨u, hu, m, hm, rfl⟩ := (mem_inputRelations hins hn).mp hr
    obtain ⟨m', hm', hst⟩ := hin u ⟨n, hn, hu⟩
    rwa [Option.some.inj (hm.symm.trans hm')]
  obtain ⟨r, rest, rfl, hcombine⟩ := Op.outputStorage?_of_multi (by rintro h; simp [h] at hop) hsource hst
  rw [hcombine, Storage.combineAll, if_pos]
  · exact hall r List.mem_cons_self
  · intro st' hst'
    obtain ⟨r', hr', rfl⟩ := List.mem_map.mp hst'
    rw [hall r' (List.mem_cons_of_mem _ hr'), hall r List.mem_cons_self]

-- ---------------------------------------------------------------------------
-- The invariant of the sweep
-- ---------------------------------------------------------------------------

/-- What holds when the nodes in `rest` are still to be visited: all others are up to date, and those of them
that need MPC get all inputs as shares. -/
structure Sharing (rest : List NodeId) (p : Plan) : Prop extends p.Indexed where
  ordered : p.Ordered rest
  pending : ∀ u ∈ rest, p.contains u = true
  steady : ∀ k n, p.nodes.get? k = some n → n.op ≠ .create → k ∉ rest → p.SteadyAt Node.restored k
  joint : ∀ k n, p.nodes.get? k = some n → (n.op.arity = .binary ∨ n.op.arity = .nary) → k ∉ rest →
    p.requiresMpc k = .ok true → ∀ u, p.Feeds u k → p.Joint n.rel.storage.shared u

theorem Indexed.sharing {order : List NodeId} (hp : p.Indexed) (horder : p.topSort = .ok order) : Sharing order p where
  toIndexed := hp
  ordered := ordered_of_topSortFrom horder
  pending _ hu := (hp.coherent.mem_topSort horder).mp hu
  steady _ _ hn _ hk := absurd ((hp.coherent.mem_topSort horder).mpr (contains_of_get? hn)) hk
  joint _ _ hn _ hk := absurd ((hp.coherent.mem_topSort horder).mpr (contains_of_get? hn)) hk

/-- A change at the node `id`, at what its inputs feed, and at nodes that come in. -/
abbrev At (id : NodeId) (p q : Plan) : Prop :=
  Framed ({id} ∪ {k | p.nextId ≤ k}) ({u | p.Feeds u id} ∪ {k | p.nextId ≤ k}) p q

namespace Sharing

theorem below_of_mem (h : Sharing rest p) (hk : k ∈ rest) : k < p.nextId := by
  obtain ⟨n, hn⟩ := Option.isSome_iff_exists.mp (h.pending k hk)
  exact h.coherent.below hn

theorem ordered_of_at (h : Sharing (id :: rest) p) (hframe : At id p q) : q.Ordered (id :: rest) := by
  refine h.ordered.congr (fun u hu => hframe.children u ?_) fun u hu w huw _ => ?_
  · rintro (hfeeds | hnew)
    · exact h.coherent.not_feeds_head h.ordered hu hfeeds
    · exact absurd (h.below_of_mem hu) (Nat.not_lt.mpr hnew)
  · have ⟨m, hm, _⟩ := h.coherent.edge_iff.mp huw
    simp [contains, IdMap.contains, hm]

theorem alike_of_at (h : Sharing (id :: rest) p) (hframe : At id p q) : ∀ k ∈ p.above (id :: rest), Alike p q k := by
  intro k hk
  obtain ⟨n, hn⟩ := Option.isSome_iff_exists.mp hk.1
  refine hframe.alike k ?_
  rintro (rfl | hnew)
  · exact hk.2 List.mem_cons_self
  · exact absurd (h.coherent.below hn) (Nat.not_lt.mpr hnew)

/-- A visit leaves alone what has had its turn before. -/
theorem step (h : Sharing (id :: rest) p) (hq : q.Indexed) (hframe : At id p q)
    (hnew : ∀ k n, q.nodes.get? k = some n → p.nextId ≤ k → ∃ st, n.op = .closing st ∧ n.rel.storage = st)
    (hsteady : ∀ n, q.nodes.get? id = some n → n.op ≠ .create → q.SteadyAt Node.restored id)
    (hjoint : ∀ n, q.nodes.get? id = some n → (n.op.arity = .binary ∨ n.op.arity = .nary) →
      q.requiresMpc id = .ok true → ∀ u, q.Feeds u id → q.Joint n.rel.storage.shared u) : Sharing rest q := by
  have hclosed := h.coherent.above_closed h.ordered
  have halike := h.alike_of_at hframe
  have hold {k : NodeId} {n : Node} (hn : q.nodes.get? k = some n) (hk : k ∉ rest) (hid : k ≠ id) (hlt : ¬ p.nextId ≤ k) :
      k ∈ p.above (id :: rest) ∧ ∃ m, p.nodes.get? k = some m ∧ n.op = m.op ∧ n.rel = m.rel := by
    have halike : Alike p q k := hframe.alike k (by simp [hid, hlt])
    obtain ⟨m, hm, hshape⟩ := halike.symm.get? hn
    exact ⟨mem_above hm (by simp [hid, hk]), m, hm, (congrArg Node.op hshape :).symm, (congrArg Node.rel hshape :).symm⟩
  constructor
  case toIndexed => exact hq
  case ordered => exact (h.ordered_of_at hframe).2.2
  case pending =>
    intro u hu
    have hfeeds : ¬ p.Feeds u id := h.coherent.not_feeds_head h.ordered (List.mem_cons_of_mem _ hu)
    have hlt : ¬ p.nextId ≤ u := Nat.not_le.mpr (h.below_of_mem (List.mem_cons_of_mem _ hu))
    have hsome := congrArg Option.isSome (hframe.children u (by simp [hfeeds, hlt]))
    rw [Option.isSome_map, Option.isSome_map] at hsome
    exact hsome.trans (h.pending u (List.mem_cons_of_mem _ hu))
  case steady =>
    intro k n hn hop hk
    by_cases hid : k = id
    · exact hid ▸ hsteady n (hid ▸ hn) hop
    by_cases hlt : p.nextId ≤ k
    · obtain ⟨st, hclosing, hst⟩ := hnew k n hn hlt
      exact hq.coherent.steadyAt_closing hn hclosing hst
    · obtain ⟨hk', m, hm, hopm, -⟩ := hold hn hk hid hlt
      exact (h.steady k m hm (hopm ▸ hop) (by simp [hid, hk])).of_alike Node.restored_derivation (halike k hk')
        fun u hu => halike u (hclosed u k hu hk')
  case joint =>
    intro k n hn hop hk hmpc u hu
    by_cases hid : k = id
    · subst hid
      exact hjoint n hn hop hmpc u hu
    by_cases hlt : p.nextId ≤ k
    · obtain ⟨st, hclosing, -⟩ := hnew k n hn hlt
      rw [hclosing] at hop
      simp [Op.arity] at hop
    · obtain ⟨hk', m, hm, hopm, hrel⟩ := hold hn hk hid hlt
      rw [h.coherent.toLinked.requiresMpc_alike hq.coherent.toLinked hclosed halike k hk'] at hmpc
      rw [(halike k hk').feeds] at hu
      have hjoint := h.joint k m hm (hopm ▸ hop) (by simp [hid, hk]) hmpc u hu
      exact hrel ▸ hjoint.of_alike h.coherent.toLinked hq.coherent.toLinked hclosed halike (hclosed u k hu hk')

end Sharing

-- ---------------------------------------------------------------------------
-- Closing what feeds a node
-- ---------------------------------------------------------------------------

namespace Inserted

theorem framed (h : p.Inserted parent cs op q) : Framed ({p.nextId} ∪ {c | c ∈ cs}) {p.nextId, parent} p q := by
  obtain ⟨o, rel, -, -, run⟩ := h.derived
  exact .of_splice (fun k _ hk => Edit.get?_of_refreshStorages hk run)
    ((Edit.Renews.forM fun c _ => Edit.Renews.refreshStorage.mono (Set.subset_univ {c})) run).outline

theorem numbered (h : p.Inserted parent cs op q) (hp : p.Numbered) : q.Numbered := by
  obtain ⟨o, rel, -, hemits, run⟩ := h.derived
  exact (hp.splice hemits.numbered).of_columnsAt_eq ((Leads.forM fun _ _ => Edit.refreshStorage_columns).of_ok run)

/-- The storage of the one reader is derived last. -/
theorem steadyAt (h : p.Inserted parent (.singleton id) op q) (hp : p.Indexed) : q.SteadyAt Node.restored id := by
  obtain ⟨o, rel, ho, hemits, run⟩ := h.derived
  obtain ⟨rel', spliced⟩ := h.spliced
  obtain ⟨o', ho', hcs⟩ := spliced.subset
  cases ho.symm.trans ho'
  obtain ⟨r, hrefresh, hdone⟩ := run_forM_cons.mp run
  obtain ⟨-, rfl⟩ := run_pure.mp hdone
  exact steadyAt_of_derive Node.restored_derivation (hp.coherent.splice ho hcs spliced.arity spliced.room).toLinked
    (fun _ => (hp.numbered.splice hemits.numbered).inputs) hrefresh

/-- The new node stays as it has been put in. -/
theorem new {o : Node} (h : p.Inserted parent cs op q) (hp : p.Coherent) (ho : p.nodes.get? parent = some o) :
    ∃ n, q.nodes.get? p.nextId = some n ∧ n.op = op ∧ op.Emits o.rel n.rel := by
  obtain ⟨o', rel, ho', hemits, run⟩ := h.derived
  cases ho.symm.trans ho'
  have hnew : p.nextId ∉ cs.toList := fun hmem =>
    hp.not_feeds_nextId (h.feeds_of_mem hp (IdSet.mem_toList.mp hmem))
  exact ⟨_, by rw [Edit.get?_of_refreshStorages hnew run, get?_splice, if_pos rfl], rfl, hemits⟩

theorem closing_new (h : p.Inserted parent cs (.closing st) q) (hp : p.Coherent) :
    ∃ n, q.nodes.get? p.nextId = some n ∧ n.op = .closing st ∧ n.rel.storage = st := by
  obtain ⟨o, -, ho, -⟩ := h.derived
  obtain ⟨n, hn, hop, hst, -⟩ := h.new hp ho
  rw [Op.outputStorage?, Except.ok.injEq, Option.some.injEq] at hst
  exact ⟨n, hn, hop, hst.symm⟩

end Inserted

end Plan

namespace Boundary

open Plan Edit

variable {p q r : Plan} {id a : NodeId} {n : Node} {rest left : List NodeId} {shared : Storage} {u : Unit}

/-- What holds while the inputs in `left` have not been looked at. -/
structure Gathering (p : Plan) (id : NodeId) (shared : Storage) (left : List NodeId) (q : Plan) : Prop
    extends q.Indexed where
  frame : At id p q
  next : p.nextId ≤ q.nextId
  new : ∀ k n, q.nodes.get? k = some n → p.nextId ≤ k → ∃ st, n.op = .closing st ∧ n.rel.storage = st
  steady : q.SteadyAt Node.restored id
  inputs : ∀ a ∈ left, p.Feeds a id
  joint : ∀ u, q.Feeds u id → u ∈ left ∨ q.Joint shared u

/-- What arrives as it is comes from a node that has had its turn. -/
theorem Gathering.joint_of_arrives (h : Gathering p id shared left q) (hp : Sharing (id :: rest) p) (ha : p.Feeds a id)
    (harrives : Arrives q shared a) : q.Joint shared a := by
  obtain ⟨m, hm, hop | ⟨hst, hmpc⟩⟩ := harrives
  · obtain ⟨n, hn⟩ := hp.coherent.closed ha
    have habove : a ∈ p.above (id :: rest) :=
      mem_above hn fun hmem => hp.coherent.not_feeds_head hp.ordered hmem ha
    obtain ⟨m', hm', hshape⟩ := (hp.alike_of_at h.frame a habove).get? hn
    cases hm.symm.trans hm'
    have hopn : n.op = .closing shared := (congrArg Node.op hshape :).symm.trans hop
    have hsteady := hp.steady a n hn (by simp [hopn]) habove.2
    have hrel : m.rel = n.rel := (congrArg Node.rel hshape :)
    exact ⟨⟨m, hm, hrel ▸ hsteady.storage_of_closing hn hopn⟩, h.coherent.toLinked.requiresMpc_closing hm hop⟩
  · exact ⟨⟨m, hm, hst⟩, hmpc⟩

theorem Gathering.insert (h : Gathering p id shared (a :: left) q) (hp : Sharing (id :: rest) p)
    (hinserted : q.Inserted a (.singleton id) (.closing shared) r) : Gathering p id shared left r := by
  have hframed := hinserted.framed
  have hid := hp.below_of_mem List.mem_cons_self
  have hidq : id < q.nextId := Nat.lt_of_lt_of_le hid h.next
  have hr : r.Indexed := ⟨hinserted.coherent h.coherent, hinserted.numbered h.numbered⟩
  obtain ⟨c, hc, hclosing, hstorage⟩ := hinserted.closing_new h.coherent
  constructor
  case toIndexed => exact hr
  case frame =>
    refine h.frame.trans (hframed.mono ?_ ?_)
    · rintro k (rfl | hk)
      · exact .inr h.next
      · exact .inl (IdSet.mem_singleton.mp hk)
    · rintro k (rfl | rfl)
      · exact .inr h.next
      · exact .inl (h.inputs k List.mem_cons_self)
  case next => exact hinserted.nextId_eq ▸ Nat.le_succ_of_le h.next
  case new =>
    intro k n hn hk
    by_cases hnew : k = q.nextId
    · subst hnew
      cases hn.symm.trans hc
      exact ⟨shared, hclosing, hstorage⟩
    · have hne : k ≠ id := fun h => absurd hid (Nat.not_lt.mpr (h ▸ hk))
      have halike : Alike q r k := hframed.alike k (by simp [hnew, hne])
      obtain ⟨m, hm, hshape⟩ := halike.symm.get? hn
      obtain ⟨st, hop, hst⟩ := h.new k m hm hk
      have hopn : m.op = n.op := (congrArg Node.op hshape :)
      have hrel : m.rel = n.rel := (congrArg Node.rel hshape :)
      exact ⟨st, hopn ▸ hop, hrel ▸ hst⟩
  case steady => exact hinserted.steadyAt h.toIndexed
  case inputs => exact fun b hb => h.inputs b (List.mem_cons_of_mem _ hb)
  case joint =>
    intro w hw
    rw [hinserted.feeds, if_neg hidq.ne, if_pos (IdSet.mem_singleton.mpr rfl)] at hw
    rcases hw with ⟨rfl, -⟩ | ⟨hwa, hw⟩
    · exact .inr ⟨⟨c, hc, hstorage⟩, hr.coherent.toLinked.requiresMpc_closing hc hclosing⟩
    rcases h.joint w hw with hmem | hjoint
    · exact .inl ((List.mem_cons.mp hmem).resolve_left hwa)
    -- the other inputs have had their turn, so the closing does not concern them
    have hordered := hp.ordered_of_at h.frame
    have hclosed := h.coherent.above_closed hordered
    have halike : ∀ k ∈ q.above (id :: rest), Alike q r k := by
      intro k hk
      obtain ⟨m, hm⟩ := Option.isSome_iff_exists.mp hk.1
      refine hframed.alike k ?_
      rintro (rfl | hk')
      · exact h.coherent.ne_nextId hm rfl
      · exact hk.2 (IdSet.mem_singleton.mp hk' ▸ List.mem_cons_self)
    obtain ⟨m, hm⟩ := h.coherent.closed hw
    have habove : w ∈ q.above (id :: rest) :=
      mem_above hm fun hmem => h.coherent.not_feeds_head hordered hmem hw
    exact .inr (hjoint.of_alike h.coherent.toLinked hr.coherent.toLinked hclosed halike habove)

theorem Gathering.closeInput (h : Gathering p id shared (a :: left) q) (hp : Sharing (id :: rest) p)
    (run : closeInput id shared a q = .ok u r) : Gathering p id shared left r := by
  obtain ⟨rfl, harrives⟩ | hinserted := run_closeInput h.coherent run
  · refine { h with inputs := fun b hb => h.inputs b (List.mem_cons_of_mem _ hb), joint := fun w hw => ?_ }
    rcases h.joint w hw with hmem | hjoint
    · rcases List.mem_cons.mp hmem with rfl | hmem
      · exact .inr (h.joint_of_arrives hp (h.inputs w List.mem_cons_self) harrives)
      · exact .inl hmem
    · exact .inr hjoint
  · exact h.insert hp hinserted

theorem at_of_refreshStorage (hp : p.Indexed) (run : refreshStorage id p = .ok u q) :
    q.Indexed ∧ At id p q ∧ q.nextId = p.nextId ∧ q.SteadyAt Node.restored id := by
  have houtline := (Renews.refreshStorage run).outline
  refine ⟨⟨hp.coherent.of_outline_eq houtline, hp.numbered.of_columnsAt_eq (refreshStorage_columns.of_ok run)⟩, ?_,
    nextId_eq_of_outline_eq houtline, ?_⟩
  · have hframed : Framed {id} ∅ p q := .of_map (f := fun _ n => n)
      (fun k hk => (refreshStorage_elsewhere fun h => hk h.symm).of_ok run) houtline (by simp) (fun _ _ _ => rfl)
      fun _ _ _ => rfl
    exact hframed.mono Set.subset_union_left (Set.empty_subset _)
  · exact steadyAt_of_derive Node.restored_derivation hp.coherent.toLinked (fun _ => hp.numbered.inputs) run

/-- The node is brought up to date. If it needs MPC then, all its inputs are shared in the end. -/
theorem gathering_of_closeInputs (h : Sharing (id :: rest) p) (run : closeInputs id p = .ok u q) :
    ∃ r, refreshStorage id p = .ok () r ∧ ((r.requiresMpc id = .ok false ∧ q = r) ∨
      (r.requiresMpc id = .ok true ∧ ∃ m, r.nodes.get? id = some m ∧ Gathering p id m.rel.storage.shared [] q)) := by
  obtain ⟨r, hstorage, hrun⟩ := run_closeInputs.mp run
  obtain ⟨hr, hframe, hnext, hsteady⟩ := at_of_refreshStorage h.toIndexed hstorage
  refine ⟨r, hstorage, hrun.imp (fun ⟨hmpc, heq⟩ => ⟨hmpc, heq.symm⟩) fun ⟨hmpc, m, hm, hloop⟩ => ⟨hmpc, m, hm, ?_⟩⟩
  have hfeeds {a : NodeId} : a ∈ firsts m.inputs.ids ↔ p.Feeds a id := by
    rw [mem_firsts, ← (SameGraph.of_outline_eq (Renews.refreshStorage hstorage).outline).feeds, Feeds]
    simp [hm]
  have hstart : Gathering p id m.rel.storage.shared (firsts m.inputs.ids) r :=
    { hr with
      frame := hframe, next := hnext.ge, steady := hsteady
      new := fun k n hn hk => absurd (hr.coherent.below hn) (Nat.not_lt.mpr (hnext ▸ hk))
      inputs := fun a ha => hfeeds.mp ha
      joint := by
        rintro w ⟨m', hm', hw⟩
        exact .inl (mem_firsts.mpr (Option.some.inj (hm'.symm.trans hm) ▸ hw)) }
  exact forM_loop (motive := Gathering p id m.rel.storage.shared)
    (fun a left s t hs hstep => hs.closeInput h hstep) hstart hloop

/-- In the end all inputs have been looked at. -/
theorem Gathering.joint_all (h : Gathering p id shared [] q) {w : NodeId} (hw : q.Feeds w id) : q.Joint shared w :=
  (h.joint w hw).resolve_left List.not_mem_nil

theorem sharing_of_closeInputs (h : Sharing (id :: rest) p) (run : closeInputs id p = .ok u q) :
    Sharing rest q := by
  obtain ⟨r, hstorage, ⟨hmpc, rfl⟩ | ⟨-, m, -, hend⟩⟩ := gathering_of_closeInputs h run
  · obtain ⟨hr, hframe, hnext, hsteady⟩ := at_of_refreshStorage h.toIndexed hstorage
    refine h.step hr hframe (fun k n hn hk => absurd (hr.coherent.below hn) (Nat.not_lt.mpr (hnext ▸ hk)))
      (fun _ _ _ => hsteady) fun n hn _ hmpc' => ?_
    rw [hmpc] at hmpc'
    cases hmpc'
  · refine h.step hend.toIndexed hend.frame hend.new (fun _ _ _ => hend.steady) fun n' hn' hop _ w hw => ?_
    have hstored := hend.steady.storage_of_multi hn' hop fun w hw => (hend.joint_all hw).1
    rw [hstored, show m.rel.storage.shared.shared = m.rel.storage.shared from Storage.shared_shared]
    exact hend.joint_all hw

theorem sharing_of_visitClose (h : Sharing (id :: rest) p) (hn : p.nodes.get? id = some n)
    (run : visitClose id n.op p = .ok u q) : Sharing rest q := by
  rw [visitClose] at run
  cases hop : n.op.arity <;> simp only [hop] at run
  case nullary =>
    obtain ⟨-, rfl⟩ := run_pure.mp run
    have hcreate := Op.arity_eq_nullary.mp hop
    refine h.step h.toIndexed .refl (fun k m hm hk => absurd (h.coherent.below hm) (Nat.not_lt.mpr hk))
      (fun m hm hne => ?_) fun m hm hmulti => ?_ <;> cases hn.symm.trans hm
    · exact absurd hcreate hne
    · simp [hop] at hmulti
  case unary =>
    obtain ⟨hq, hframe, hnext, hsteady⟩ := at_of_refreshStorage h.toIndexed run
    refine h.step hq hframe (fun k m hm hk => absurd (hq.coherent.below hm) (Nat.not_lt.mpr (hnext ▸ hk)))
      (fun _ _ _ => hsteady) fun m hm hmulti => ?_
    obtain ⟨n', hn', hs⟩ := get?_of_outline_eq (Renews.refreshStorage run).outline hm
    cases hn.symm.trans hn'
    rw [Op.arity_eq_of_blank_eq (Node.blank_eq_of_outline_eq hs), hop] at hmulti
    simp at hmulti
  all_goals exact sharing_of_closeInputs h run

end Boundary

namespace Pass

open Plan Edit Boundary

variable {p q : Plan} {u : Unit}

/-- A pass that finds nothing to do leaves the plan as it is. -/
theorem run_of_stays {pass : Pass} (hp : p.Coherent)
    (visit : ∀ k n, p.nodes.get? k = some n → pass.visit k n.op p = .ok () p) (finish : pass.finish p = .ok () p) :
    pass.run p = .ok () p := by
  obtain ⟨order, horder⟩ := hp.toLinked.exists_topSort
  refine run_run.mpr ⟨order, p, horder, forM_stays fun k hk => ?_, finish⟩
  have hcontains : p.contains k = true := by
    refine (hp.mem_topSort horder).mp ?_
    cases hd : pass.direction <;> simpa [hd, Direction.arrange] using hk
  obtain ⟨n, hn⟩ := Option.isSome_iff_exists.mp hcontains
  exact run_step.mpr (.inr ⟨n, hn, visit k n hn⟩)

/-- The first boundary pass shares all inputs of joint computations, and it leaves nothing to be derived. -/
theorem sharing_of_insertClose (hp : p.Indexed) (run : insertClose.run p = .ok u q) : Sharing [] q := by
  obtain ⟨r, hr, -, hfinish⟩ := exists_of_visits (motive := Sharing) hp.coherent (fun _ _ => insertClose_visit_reworks) (fun order horder => hp.sharing horder)
    (fun h _ hn hvisit => sharing_of_visitClose h hn hvisit) run
  have hstowed : r.Stowed := fun k n hn hop => hr.steady k n hn hop List.not_mem_nil
  have hstays := propagateStorage_of_stowed hr.coherent hstowed
  cases hfinish.symm.trans hstays
  exact hr

theorem insertClose_of_sharing (hp : Sharing [] p) : insertClose.run p = .ok () p := by
  have hstowed : p.Stowed := fun k n hn hop => hp.steady k n hn hop List.not_mem_nil
  refine run_of_stays hp.coherent (fun k n hn => ?_) (propagateStorage_of_stowed hp.coherent hstowed)
  show visitClose k n.op p = .ok () p
  rw [visitClose]
  have hsteady (hop : n.op.arity ≠ .nullary) : refreshStorage k p = .ok () p :=
    hstowed k n hn fun h => hop (Op.arity_eq_nullary.mpr h)
  have hclose (hop : n.op.arity = .binary ∨ n.op.arity = .nary) : closeInputs k p = .ok () p := by
    refine run_closeInputs.mpr ⟨p, hsteady (by rintro h; simp [h] at hop), ?_⟩
    obtain ⟨flag, hflag⟩ := hp.coherent.toLinked.exists_requiresMpc hn
    cases flag with
    | false => exact .inl ⟨hflag, rfl⟩
    | true =>
      refine .inr ⟨hflag, n, hn, forM_stays fun a ha => ?_⟩
      have harrives := (hp.joint k n hn hop List.not_mem_nil hflag a ⟨n, hn, mem_firsts.mp ha⟩).arrives
      exact run_bind.mpr ⟨true, p, arrivesShared_of_arrives harrives, rfl⟩
  cases hop : n.op.arity
  case nullary => rfl
  case unary => exact hsteady (by simp [hop])
  case binary => exact hclose (.inl hop)
  case nary => exact hclose (.inr hop)

end Pass

end JointPlan
