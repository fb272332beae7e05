import JointPlan.Proofs.Building
import JointPlan.Proofs.Frames
import JointPlan.Proofs.Typing

/-!
# Settled plans

A plan is settled when deriving a node anew changes nothing, at whichever node it is done.
Deriving all nodes in topological order settles a plan, whatever was on record before, and
a settled plan can be told from its skeleton: all else in it is derived. Plans that are
written as workflows are settled at every moment.

The same is said of parameters and storage alone, since this much is derived anew in the
middle of a compilation.
-/

namespace JointPlan

-- ---------------------------------------------------------------------------
-- Nodes
-- ---------------------------------------------------------------------------

namespace Node

variable {ins : List Relation} {n m : Node}

/-- Derive everything anew. -/
def anew (ins : List Relation) : NodeEdit Unit := do
  rebind ins
  restore ins
  recolumn ins

/-- Derive parameters and storage anew. -/
def restored (ins : List Relation) : NodeEdit Unit := do
  rebind ins
  restore ins

/-- What the two ways of deriving a node have in common. -/
structure Derivation (change : List Relation → NodeEdit Unit) : Prop where
  /-- A second time changes nothing. -/
  again : ∀ {ins n m}, (∀ r ∈ ins, r.Numbered) → change ins n = .ok () m → change ins m = .ok () m
  /-- Only the operator and the relation matter. -/
  congr : ∀ {ins n m}, m.op = n.op → m.rel = n.rel → change ins n = .ok () n → change ins m = .ok () m
  skeleton : ∀ {ins n m}, (∀ r ∈ ins, r.Numbered) → change ins n = .ok () m → m.skeleton = n.skeleton
  storage : ∀ {ins n m}, change ins n = .ok () m → m.op = n.op.fill ins ∧
    ∃ st?, n.op.outputStorage? ins = .ok st? ∧ m.rel.storage = st?.getD n.rel.storage

theorem outputStorage?_fill {op : Op} : (op.fill ins).outputStorage? ins = op.outputStorage? ins := by
  cases op
  case arithmetic fn _ _ _ => cases fn <;> rfl
  all_goals rfl

theorem storage_recolumned {r : Relation} {cols? : Option (List Column)} :
    (r.recolumned cols?).storage = r.storage := by
  cases cols? <;> rfl

theorem getD_getD {α : Type} {o : Option α} {a : α} : o.getD (o.getD a) = o.getD a := by
  cases o <;> rfl

theorem anew_derivation : Derivation anew where
  again {ins n m} hins run := by
    obtain ⟨hbinds, st?, cols?, hst, hcols, rfl⟩ := run_refresh.mp run
    have hfill : (n.op.fill ins).fill ins = n.op.fill ins := Op.fill_eq_of_bare_eq (Op.bare_fill hins)
    refine run_refresh.mpr ⟨hbinds.of_bare_eq (Op.bare_fill hins).symm, st?, cols?, by rwa [hfill], ?_, ?_⟩
    · rwa [hfill, storage_recolumned, getD_getD]
    · simp only [hfill, storage_recolumned, getD_getD]
      cases cols? <;> rfl
  congr {ins n m} hop hrel run := by
    obtain ⟨hbinds, st?, cols?, hst, hcols, hn⟩ := run_refresh.mp run
    refine run_refresh.mpr ⟨by rwa [hop], st?, cols?, by rwa [hop], by rwa [hop, hrel], ?_⟩
    rw [hop, hrel, show n.op.fill ins = n.op from congrArg Node.op hn, ← hop]
    have : _ = n.rel := congrArg Node.rel hn
    simp only at this
    rw [this, ← hrel]
  skeleton := skeleton_of_refresh
  storage run := by
    obtain ⟨-, st?, cols?, hst, -, rfl⟩ := run_refresh.mp run
    exact ⟨rfl, st?, outputStorage?_fill ▸ hst, storage_recolumned⟩

theorem restored_derivation : Derivation restored where
  again {ins n m} hins run := by
    obtain ⟨hbinds, st?, hst, rfl⟩ := run_refreshStorage.mp run
    have hfill : (n.op.fill ins).fill ins = n.op.fill ins := Op.fill_eq_of_bare_eq (Op.bare_fill hins)
    refine run_refreshStorage.mpr ⟨hbinds.of_bare_eq (Op.bare_fill hins).symm, st?, by rwa [hfill], ?_⟩
    simp only [hfill, getD_getD]
  congr {ins n m} hop hrel run := by
    obtain ⟨hbinds, st?, hst, hn⟩ := run_refreshStorage.mp run
    refine run_refreshStorage.mpr ⟨by rwa [hop], st?, by rwa [hop], ?_⟩
    rw [hop, hrel, show n.op.fill ins = n.op from congrArg Node.op hn, ← hop]
    have : _ = n.rel := congrArg Node.rel hn
    simp only at this
    rw [this, ← hrel]
  skeleton := skeleton_of_refreshStorage
  storage run := by
    obtain ⟨-, st?, hst, rfl⟩ := run_refreshStorage.mp run
    exact ⟨rfl, st?, outputStorage?_fill ▸ hst, rfl⟩

/-- What a node has to be to become sound when it is derived. A root is not derived, so it has to
be sound already. -/
structure Prepares (start : Node → Prop) (change : List Relation → NodeEdit Unit) : Prop where
  derived : ∀ {ins n m}, start n → change ins n = .ok () m → m.Sound
  created : ∀ {n}, start n → n.op = .create → n.Sound

/-- Where everything is derived, only the columns of the roots have to be numbered. -/
theorem anew_prepares : Prepares (fun n => n.op = .create → n.rel.Numbered) anew where
  derived := sound_of_refresh
  created {n} h hop := by
    refine ⟨h hop, fun cs hcs => ?_⟩
    rw [hop] at hcs
    cases hcs

end Node

-- ---------------------------------------------------------------------------
-- Plans
-- ---------------------------------------------------------------------------

namespace Edit

/-- Derive a node in a given way. -/
def derive (change : List Relation → NodeEdit Unit) (id : NodeId) : Edit Unit := do
  let ins ← ask fun p => p.inputRelations id
  onNode id (change ins)

theorem refresh_eq : refresh = derive Node.anew := rfl

theorem refreshStorage_eq : refreshStorage = derive Node.restored := rfl

theorem run_derive {change : List Relation → NodeEdit Unit} {id : NodeId} {p q : Plan} {u : Unit} :
    derive change id p = .ok u q ↔ ∃ ins n m, p.inputRelations id = .ok ins ∧
      p.nodes.get? id = some n ∧ change ins n = .ok () m ∧ q = p.set id m := by
  simp only [derive, run_bind, run_ask, run_onNode]
  constructor
  · rintro ⟨ins, _, ⟨hins, rfl⟩, n, m, hn, hm, rfl⟩
    exact ⟨ins, n, m, hins, hn, hm, rfl⟩
  · rintro ⟨ins, n, m, hins, hn, hm, rfl⟩
    exact ⟨ins, p, ⟨hins, rfl⟩, n, m, hn, hm, rfl⟩

end Edit

namespace Plan

variable {p q : Plan} {k a : NodeId} {n m : Node} {change : List Relation → NodeEdit Unit}

/-- Deriving the node changes nothing. -/
def SteadyAt (change : List Relation → NodeEdit Unit) (p : Plan) (k : NodeId) : Prop :=
  Edit.derive change k p = .ok () p

theorem steadyAt_iff : p.SteadyAt change k ↔ ∃ ins n, p.inputRelations k = .ok ins ∧
    p.nodes.get? k = some n ∧ change ins n = .ok () n := by
  rw [SteadyAt, Edit.run_derive]
  constructor
  · rintro ⟨ins, n, m, hins, hn, hm, hp⟩
    have hget : (p.set k m).nodes.get? k = _ := get?_set k
    rw [← hp, hn, if_pos rfl] at hget
    cases hget
    exact ⟨ins, n, hins, hn, hm⟩
  · rintro ⟨ins, n, hins, hn, hm⟩
    exact ⟨ins, n, n, hins, hn, hm, (set_self hn).symm⟩

/-- Deriving any node changes nothing. -/
def Steady (change : List Relation → NodeEdit Unit) (p : Plan) : Prop :=
  ∀ k n, p.nodes.get? k = some n → n.op ≠ .create → p.SteadyAt change k

/-- Everything that can be derived is up to date. -/
abbrev Settled (p : Plan) : Prop := p.Steady Node.anew

/-- Parameters and storage are up to date. -/
abbrev Stowed (p : Plan) : Prop := p.Steady Node.restored

theorem SteadyAt.of_alike (h : p.SteadyAt change k) (hc : Node.Derivation change) (hk : Alike p q k)
    (hin : ∀ u, p.Feeds u k → Alike p q u) : q.SteadyAt change k := by
  obtain ⟨ins, n, hins, hn, hsteady⟩ := steadyAt_iff.mp h
  obtain ⟨m, hm, hshape⟩ := hk.get? hn
  refine steadyAt_iff.mpr ⟨ins, m, (hk.inputRelations hin).trans hins, hm, hc.congr ?_ ?_ hsteady⟩
  · exact (congrArg Node.op hshape :)
  · exact (congrArg Node.rel hshape :)

theorem alike_set (hk : k ≠ a) : Alike p (p.set a m) k := .of_eq (by rw [get?_set, if_neg hk])

theorem steadyAt_of_derive (hc : Node.Derivation change) (hp : p.Linked)
    (hs : ∀ ins, p.inputRelations k = .ok ins → ∀ r ∈ ins, r.Numbered)
    (run : Edit.derive change k p = .ok () q) : q.SteadyAt change k := by
  obtain ⟨ins, n, m, hins, hn, hm, rfl⟩ := Edit.run_derive.mp run
  have hnumbered := hs ins hins
  refine steadyAt_iff.mpr ⟨ins, m, ?_, by rw [get?_set, if_pos rfl], hc.again hnumbered hm⟩
  refine (Alike.inputRelations_congr hn (by rw [get?_set, if_pos rfl])
    (Node.inputs_eq_of_skeleton_eq (hc.skeleton hnumbered hm)) fun u hu => alike_set ?_).trans hins
  rintro rfl
  exact hp.not_feeds_self ⟨n, hn, hu⟩

end Plan

namespace Edit

open Plan

variable {p q : Plan} {change : List Relation → NodeEdit Unit} {u : Unit}

/-- What holds while the nodes in `rest` are still to be derived. -/
structure Settling (start : Node → Prop) (change : List Relation → NodeEdit Unit) (p : Plan) (rest : List NodeId)
    (q : Plan) : Prop where
  skeleton : q.skeleton = p.skeleton
  ordered : p.Ordered rest
  pending : ∀ k ∈ rest, p.contains k = true
  start : ∀ k n, q.nodes.get? k = some n → k ∈ rest → start n
  sound : ∀ k n, q.nodes.get? k = some n → k ∉ rest → n.Sound
  done : ∀ k n, q.nodes.get? k = some n → n.op ≠ .create → k ∉ rest → q.SteadyAt change k

variable {start : Node → Prop}

/-- What feeds the next node has had its turn. -/
theorem Settling.numbered {k : NodeId} {rest : List NodeId} (h : Settling start change p (k :: rest) q)
    (hp : p.Coherent) {ins : List Relation} (hins : q.inputRelations k = .ok ins) : ∀ r ∈ ins, r.Numbered := by
  obtain ⟨n, hn, -⟩ := inputRelations_eq_ok.mp hins
  intro r hr
  obtain ⟨w, hw, m, hm, rfl⟩ := (mem_inputRelations hins hn).mp hr
  refine (h.sound w m hm fun hmem => ?_).numbered
  exact hp.not_feeds_head h.ordered hmem ((feeds_iff_of_skeleton_eq h.skeleton).mp ⟨n, hn, hw⟩)

theorem Settling.step {k : NodeId} {rest : List NodeId} {r : Plan} (hc : Node.Derivation change)
    (hstart : Node.Prepares start change) (hp : p.Coherent) (h : Settling start change p (k :: rest) q)
    (run : (do if (← node k).op ≠ .create then derive change k : Edit Unit) q = .ok u r) :
    Settling start change p rest r := by
  have hq := hp.of_skeleton_eq h.skeleton
  obtain ⟨n, _, hrun, run⟩ := run_bind.mp run
  obtain ⟨hn, rfl⟩ := run_node.mp hrun
  have hpending : ∀ k ∈ rest, p.contains k = true := fun k hk => h.pending k (List.mem_cons_of_mem _ hk)
  by_cases hop : n.op = .create
  · rw [if_neg (not_not.mpr hop)] at run
    obtain ⟨-, rfl⟩ := run_pure.mp run
    have hk : ∀ {j m}, q.nodes.get? j = some m → j ∉ rest → j ∈ k :: rest → m = n := fun hm hj hmem => by
      obtain rfl := (List.mem_cons.mp hmem).resolve_right hj
      exact Option.some.inj (hm.symm.trans hn)
    refine ⟨h.skeleton, h.ordered.2.2, hpending, fun j m hm hj => h.start j m hm (List.mem_cons_of_mem _ hj),
      fun j m hm hj => ?_, fun j m hm hm' hj => h.done j m hm hm' fun hmem => hm' (hk hm hj hmem ▸ hop)⟩
    by_cases hmem : j ∈ k :: rest
    · rw [hk hm hj hmem]
      exact hstart.created (h.start k n hn List.mem_cons_self) hop
    · exact h.sound j m hm hmem
  · rw [if_pos hop] at run
    obtain ⟨ins, n', m', hins, hn', hm', rfl⟩ := run_derive.mp run
    cases hn.symm.trans hn'
    have htouched : Touched {k} q (q.set k m') := .set hn (hc.skeleton (h.numbered hp hins) hm')
    refine ⟨htouched.skeleton.trans h.skeleton, h.ordered.2.2, hpending, fun j m hm hj => ?_, fun j m hm hj => ?_,
      fun j m hm hop' hj => ?_⟩
    · have hjk : j ≠ k := fun hjk => h.ordered.1 (hjk ▸ hj)
      exact h.start j m (htouched.elsewhere j hjk ▸ hm) (List.mem_cons_of_mem _ hj)
    · by_cases hjk : j = k
      · rw [hjk, get?_set, if_pos rfl] at hm
        cases hm
        exact hstart.derived (h.start k n hn List.mem_cons_self) hm'
      · exact h.sound j m (htouched.elsewhere j hjk ▸ hm) (by simp [hjk, hj])
    · by_cases hjk : j = k
      · subst hjk
        exact steadyAt_of_derive hc hq.toLinked (fun _ => h.numbered hp) run
      · -- The node that has been derived does not feed one that had its turn before.
        have hnot : ¬ q.Feeds k j := fun hfeeds => by
          have hfeeds := (feeds_iff_of_skeleton_eq h.skeleton).mp hfeeds
          obtain ⟨m, hm, -⟩ := id hfeeds
          exact hj (h.ordered.2.1 j (hp.edge_iff.mpr hfeeds) (Option.isSome_iff_exists.mpr ⟨m, hm⟩))
        have hget := htouched.elsewhere j hjk
        refine (h.done j m (hget ▸ hm) hop' (by simp [hjk, hj])).of_alike hc (.of_eq hget) fun w hw => ?_
        exact .of_eq (htouched.elsewhere w fun hwk => hnot (Set.mem_singleton_iff.mp hwk ▸ hw))

/-- Deriving all nodes in order brings the plan up to date. -/
theorem steady_of_forEachDerived (hc : Node.Derivation change) (hstart : Node.Prepares start change)
    (hp : p.Coherent) (hs : ∀ k n, p.nodes.get? k = some n → start n)
    (run : forEachDerived (derive change) p = .ok u q) : q.skeleton = p.skeleton ∧ q.Sound ∧ q.Steady change := by
  obtain ⟨order, _, hrun, run⟩ := run_bind.mp run
  obtain ⟨horder, rfl⟩ := run_ask.mp hrun
  have hall {k : NodeId} {n : Node} (hn : p.nodes.get? k = some n) : k ∈ order :=
    (hp.mem_topSort horder).mpr (Option.isSome_iff_exists.mpr ⟨n, hn⟩)
  have hbegin : Settling start change p order p :=
    ⟨rfl, ordered_of_topSortFrom horder, fun k hk => (hp.mem_topSort horder).mp hk, fun k n hn _ => hs k n hn,
      fun k n hn hk => absurd (hall hn) hk, fun k n hn _ hk => absurd (hall hn) hk⟩
  have hend := forM_loop (motive := Settling start change p) (fun _ _ _ _ h run => h.step hc hstart hp run) hbegin run
  exact ⟨hend.skeleton, fun k n hn => hend.sound k n hn (by simp), fun k n hn hop => hend.done k n hn hop (by simp)⟩

theorem settled_of_refreshAll (hp : p.Coherent) (hs : p.Sourced) (run : refreshAll p = .ok u q) :
    q.skeleton = p.skeleton ∧ q.Sound ∧ q.Settled :=
  steady_of_forEachDerived Node.anew_derivation Node.anew_prepares hp hs run

/-- Where deriving nodes changes nothing, deriving all of them does not either. -/
theorem forEachDerived_of_steady (hp : p.Coherent) (h : p.Steady change) : forEachDerived (derive change) p = .ok () p := by
  obtain ⟨order, horder⟩ := hp.toLinked.exists_topSort
  refine run_bind.mpr ⟨order, p, run_ask.mpr ⟨horder, rfl⟩, forM_stays fun k hk => ?_⟩
  obtain ⟨n, hn⟩ := Option.isSome_iff_exists.mp ((hp.mem_topSort horder).mp hk)
  refine run_bind.mpr ⟨n, p, run_node.mpr ⟨hn, rfl⟩, ?_⟩
  split
  · exact h k n hn ‹_›
  · rfl

theorem refreshAll_of_settled (hp : p.Coherent) (h : p.Settled) : refreshAll p = .ok () p :=
  forEachDerived_of_steady hp h

theorem propagateStorage_of_stowed (hp : p.Coherent) (h : p.Stowed) : propagateStorage p = .ok () p :=
  forEachDerived_of_steady hp h

end Edit

-- ---------------------------------------------------------------------------
-- What a settled plan is like
-- ---------------------------------------------------------------------------

namespace Node

variable {ins : List Relation} {n m : Node}

theorem eq_of_skeleton_eq (h : n.skeleton = m.skeleton) (hop : n.op = m.op) (hrel : n.rel = m.rel) : n = m := by
  have hid := id_eq_of_skeleton_eq h
  have hinputs := inputs_eq_of_skeleton_eq h
  have hparents := parents_eq_of_skeleton_eq h
  have hchildren := children_eq_of_skeleton_eq h
  cases n
  cases m
  simp_all

theorem name_eq_of_skeleton_eq (h : n.skeleton = m.skeleton) : n.rel.name = m.rel.name := by
  have hname := congrArg (fun n => n.outline.rel.name) h
  rwa [outline_skeleton, outline_skeleton] at hname

/-- A root can be told from its skeleton. -/
theorem eq_of_skeleton_eq_of_create (h : n.skeleton = m.skeleton) (hop : n.op = .create) : n = m :=
  eq_of_skeleton_eq h (hop.trans (op_eq_of_skeleton_eq h hop rfl).symm) (rel_eq_of_skeleton_eq h hop)

/-- What comes of deriving any other node. -/
theorem run_anew (hop : n.op ≠ .create) : anew ins n = .ok () m ↔ n.op.Binds ins ∧ ∃ st cols,
    (n.op.fill ins).outputStorage? ins = .ok (some st) ∧ (n.op.fill ins).outputColumns? ins st.members = .ok (some cols) ∧
      { n with op := n.op.fill ins, rel := .renumber ⟨n.rel.name, cols, st⟩ } = m := by
  have hcreate : n.op.fill ins ≠ .create := fun hc => hop (Op.eq_create_of_mapBound hc)
  refine run_refresh.trans (and_congr_right fun _ => ⟨?_, ?_⟩)
  · rintro ⟨st?, cols?, hst, hcols, rfl⟩
    cases st? with
    | none => exact absurd (Op.eq_create_of_outputStorage? hst) hcreate
    | some st =>
      cases cols? with
      | none => exact absurd (Op.eq_create_of_outputColumns? hcols) hcreate
      | some cols => exact ⟨st, cols, hst, hcols, rfl⟩
  · rintro ⟨st, cols, hst, hcols, rfl⟩
    exact ⟨some st, some cols, hst, hcols, rfl⟩

/-- It depends on the skeleton and the inputs. -/
theorem anew_of_skeleton_eq {m' : Node} (h : n.skeleton = m.skeleton) (hop : m.op ≠ .create) (run : anew ins m = .ok () m') :
    anew ins n = .ok () m' := by
  obtain ⟨hbinds, st, cols, hst, hcols, rfl⟩ := (run_anew hop).mp run
  have hop' : n.op ≠ .create := fun hc => hop (op_eq_of_skeleton_eq h hc rfl)
  have hbare := bare_eq_of_skeleton_eq h
  have hfill : n.op.fill ins = m.op.fill ins := Op.fill_eq_of_bare_eq hbare
  refine (run_anew hop').mpr ⟨hbinds.of_bare_eq hbare.symm, st, cols, by rwa [hfill], by rwa [hfill], ?_⟩
  simp [hfill, name_eq_of_skeleton_eq h, id_eq_of_skeleton_eq h, inputs_eq_of_skeleton_eq h, parents_eq_of_skeleton_eq h,
    children_eq_of_skeleton_eq h]

end Node

namespace Plan

variable {p q : Plan} {k : NodeId} {n : Node} {change : List Relation → NodeEdit Unit}

/-- Settled plans of one skeleton agree at a node if they do at what feeds it. -/
theorem Settled.get?_eq (hp : p.Settled) (hq : q.Settled) (h : q.skeleton = p.skeleton)
    (hn : p.nodes.get? k = some n) (hin : ∀ u ∈ n.inputs.ids, q.nodes.get? u = p.nodes.get? u) :
    q.nodes.get? k = some n := by
  obtain ⟨m, hm, hnm⟩ := get?_of_skeleton_eq h.symm hn
  rw [hm, Option.some.injEq]
  by_cases hop : n.op = .create
  · exact (Node.eq_of_skeleton_eq_of_create hnm hop).symm
  · have hop' : m.op ≠ .create := fun hc => hop (Node.op_eq_of_skeleton_eq hnm.symm hc rfl)
    obtain ⟨ins, _, hins, hn', hnew⟩ := steadyAt_iff.mp (hp k n hn hop)
    obtain ⟨ins', _, hins', hm', hnew'⟩ := steadyAt_iff.mp (hq k m hm hop')
    cases hn.symm.trans hn'
    cases hm.symm.trans hm'
    have hsame := Alike.inputRelations_congr hn hm (Node.inputs_eq_of_skeleton_eq hnm).symm fun u hu => .of_eq (hin u hu)
    cases hins.symm.trans (hsame.symm.trans hins')
    cases hnew.symm.trans (Node.anew_of_skeleton_eq hnm hop' hnew')
    rfl

/-- A settled plan can be told from its skeleton. -/
theorem Settled.eq_of_skeleton_eq (hp : p.Settled) (hq : q.Settled) (hlinked : p.Linked)
    (h : q.skeleton = p.skeleton) : q = p := by
  obtain ⟨rank, hrank⟩ := hlinked.ranked
  have hget : ∀ d k, rank k = d → q.nodes.get? k = p.nodes.get? k := by
    intro d
    induction d using Nat.strong_induction_on with
    | _ d ih =>
      rintro k rfl
      cases hn : p.nodes.get? k with
      | none =>
        refine Option.eq_none_iff_forall_ne_some.mpr fun m hm => ?_
        obtain ⟨n, hn', -⟩ := get?_of_skeleton_eq h hm
        exact absurd (hn.symm.trans hn') (by simp)
      | some n => exact hp.get?_eq hq h hn fun u hu => ih _ (hrank ⟨n, hn, hu⟩) u rfl
  exact ext_get? (fun k => hget _ k rfl) (roots_eq_of_skeleton_eq h) (nextId_eq_of_skeleton_eq h)

theorem Settled.wellTyped (hp : p.Settled) (hs : p.Sound) : p.WellTyped := by
  intro k n hn hop
  obtain ⟨ins, _, hins, hn', hnew⟩ := steadyAt_iff.mp (hp k n hn hop)
  cases hn.symm.trans hn'
  rw [← schemas_of_inputRelations hn hins, schemaAt_of_get? hn]
  exact Node.derives_of_refresh (hs.inputs hins) hop hnew

-- ---------------------------------------------------------------------------
-- Workflows
-- ---------------------------------------------------------------------------

theorem alike_extended {op : Op} {rel : Relation} {inputs : Inputs} (hk : k ≠ p.nextId) :
    Alike p (p.extended op rel inputs) k := by
  rw [Alike, extended, get?_joined, if_neg hk, Option.map_map]
  congr 1
  funext n
  rw [Function.comp, fedNode]
  split <;> rfl

/-- The nodes that were there before have been left alone. -/
theorem SteadyAt.of_grown (h : p.SteadyAt change k) (hc : Node.Derivation change) (hp : p.Linked)
    (hn : p.nodes.get? k = some n) (halike : ∀ u, u ≠ p.nextId → Alike p q u) : q.SteadyAt change k := by
  refine h.of_alike hc (halike k (hp.ne_nextId hn)) fun u hu => ?_
  obtain ⟨m, hm⟩ := hp.closed hu
  exact halike u (hp.ne_nextId hm)

theorem Grown.settled (h : Grown p q) (hp : p.Simple) (hsettled : p.Settled) :
    q.Settled := by
  have hold (halike : ∀ u, u ≠ p.nextId → Alike p q u) {k : NodeId} {m : Node}
      (hm : q.nodes.get? k = some m) (hk : k ≠ p.nextId) (hop : m.op ≠ .create) : q.SteadyAt Node.anew k := by
    obtain ⟨n, hn, hshape⟩ := (halike k hk).symm.get? hm
    have hop' : n.op ≠ .create := fun h => hop ((congrArg Node.op hshape).symm.trans h)
    exact (hsettled k n hn hop').of_grown Node.anew_derivation hp.coherent.toLinked hn halike
  cases h with
  | @create id rel numbered run =>
    obtain ⟨-, -, rfl⟩ := Edit.run_addCreate run
    intro k m hm hop
    refine hold (fun u hu => alike_extended hu) hm (fun hk => ?_) hop
    rcases get?_extended_eq_some hm with ⟨-, rfl⟩ | ⟨hne, -⟩
    · exact hop rfl
    · exact hne hk
  | @insert id op name inputs plain run =>
    obtain ⟨room, hop, hfits, hne, hin, storage, hrefresh⟩ := Edit.run_insertNode hp.coherent.toLinked run
    have hlinked : (p.extended op (.owning name [] storage) inputs).Linked :=
      (hp.coherent.extended hfits hin (fun _ => hne) room).toLinked
    have hnumbered : (p.extended op (.owning name [] storage) inputs).Numbered := fun _ _ =>
      numbered_extended hp.sound (Relation.numbered_renumber _)
    intro k m hm hop'
    by_cases hk : k = p.nextId
    · exact hk ▸ steadyAt_of_derive Node.anew_derivation hlinked (fun _ => hnumbered.inputs) hrefresh
    · refine hold (fun u hu => ?_) hm hk hop'
      obtain ⟨ins, n, m', -, -, -, rfl⟩ := Edit.run_derive.mp (Edit.refresh_eq ▸ hrefresh)
      exact (alike_extended hu).trans (alike_set hu)

theorem Built.settled (h : p.Built) : p.Settled :=
  (h.induct (motive := fun p => p.Simple ∧ p.Settled) ⟨simple_empty, fun _ _ hn => nomatch hn⟩
    fun _ _ hp hgrown => ⟨hgrown.simple hp.1, hgrown.settled hp.1 hp.2⟩).2

end Plan

end JointPlan
