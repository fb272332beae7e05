import JointPlan.Proofs.Deciding

/-!
# Widening labels

Pulling labels up adds parties to the labels of columns, and that is all it does. `Plan.Widened p q` says so
for whole plans: the nodes, their edges, operators, names and storage are the same, sources are as they were,
and a label of another node may have gained parties that store the node or a node with no other input. The relation is
a preorder, so it is enough to look at a single visit.

Nobody loses a column by a wider label. So a node that one party could compute alone can be computed by that
party after any such change, and no sweep that widens labels brings new work for MPC.
-/

namespace JointPlan

-- ---------------------------------------------------------------------------
-- Columns and relations
-- ---------------------------------------------------------------------------

/-- But for their labels the columns are the same. The labels keep their parties and gain none but those in `gain`. -/
structure Column.Widened (gain : Set PartyId) (c c' : Column) : Prop where
  same : c'.labeled ∅ ∅ = c.labeled ∅ ∅
  trust : ∀ a ∈ c.trust, a ∈ c'.trust
  plain : ∀ a ∈ c.plain, a ∈ c'.plain
  gained : ∀ a, a ∈ c'.trust ∧ a ∉ c.trust ∨ a ∈ c'.plain ∧ a ∉ c.plain → a ∈ gain

namespace Column.Widened

variable {gain gain' : Set PartyId} {c c' c'' : Column}

theorem refl : Widened gain c c := ⟨rfl, fun _ h => h, fun _ h => h, fun a h => by tauto⟩

theorem trans (h₁ : Widened gain c c') (h₂ : Widened gain c' c'') : Widened gain c c'' where
  same := h₂.same.trans h₁.same
  trust a ha := h₂.trust a (h₁.trust a ha)
  plain a ha := h₂.plain a (h₁.plain a ha)
  gained a ha := by
    by_cases hfirst : a ∈ c'.trust ∧ a ∉ c.trust ∨ a ∈ c'.plain ∧ a ∉ c.plain
    · exact h₁.gained a hfirst
    · exact h₂.gained a (by tauto)

theorem mono (h : Widened gain c c') (hgain : gain ⊆ gain') : Widened gain' c c' :=
  { h with gained := fun a ha => hgain (h.gained a ha) }

theorem loosen {members : PartySet} (hgain : ∀ a ∈ members, a ∈ gain) : Widened gain c (c.loosen members) where
  same := rfl
  trust a ha := IdSet.mem_union.mpr (.inl ha)
  plain a ha := IdSet.mem_union.mpr (.inl ha)
  gained a ha := by
    simp only [Column.loosen, IdSet.mem_union] at ha
    apply hgain
    tauto

end Column.Widened

namespace Relation

variable {gain gain' : Set PartyId} {r r' r'' : Relation} {rels rels' : List Relation}

structure Widened (gain : Set PartyId) (r r' : Relation) : Prop where
  name : r'.name = r.name
  storage : r'.storage = r.storage
  columns : List.Forall₂ (Column.Widened gain) r.columns r'.columns

namespace Widened

theorem refl : Widened gain r r := ⟨rfl, rfl, List.forall₂_same.mpr fun _ _ => .refl⟩

theorem trans (h₁ : Widened gain r r') (h₂ : Widened gain r' r'') : Widened gain r r'' where
  name := h₂.name.trans h₁.name
  storage := h₂.storage.trans h₁.storage
  columns := forall₂_trans .trans h₁.columns h₂.columns

theorem mono (h : Widened gain r r') (hgain : gain ⊆ gain') : Widened gain' r r' :=
  { h with columns := h.columns.imp fun _ _ hc => hc.mono hgain }

end Widened

/-- A party in that set of every column is still in all of them when the sets have grown. -/
theorem Covers.widened {label : Column → PartySet} {a : PartyId} (h : Covers label a rels)
    (hlabel : ∀ c c', Column.Widened gain c c' → ∀ b ∈ label c, b ∈ label c')
    (hrels : List.Forall₂ (Widened gain) rels rels') : Covers label a rels' := by
  intro r' hr'
  obtain ⟨r, hr, hwidened⟩ := exists_of_forall₂ hrels hr'
  obtain ⟨hne, hall⟩ := h r hr
  constructor
  · intro hnil
    have hlength := hwidened.columns.length_eq
    rw [hnil] at hlength
    exact hne (List.eq_nil_of_length_eq_zero hlength)
  · intro c' hc'
    obtain ⟨c, hc, hcc'⟩ := exists_of_forall₂ hwidened.columns hc'
    exact hlabel c c' hcc' a (hall c hc)

/-- Relations that need no MPC need none under wider labels. -/
theorem requireMpc_antitone (hrels : List.Forall₂ (Widened gain) rels rels') (h : requireMpc rels = false) :
    requireMpc rels' = false := by
  rcases eq_or_ne rels [] with rfl | hne
  · cases hrels
    exact h
  have hne' : rels' ≠ [] := by
    rintro rfl
    exact hne (List.forall₂_nil_right_iff.mp hrels)
  have hloci (a : PartyId) : (∀ r ∈ rels', ∀ s ∈ r.storage.loci, a ∈ s) ↔ ∀ r ∈ rels, ∀ s ∈ r.storage.loci, a ∈ s := by
    constructor
    · intro hall r hr
      obtain ⟨r', hr', hwidened⟩ := exists_of_forall₂ hrels.flip hr
      exact hwidened.storage ▸ hall r' hr'
    · intro hall r' hr'
      obtain ⟨r, hr, hwidened⟩ := exists_of_forall₂ hrels hr'
      exact hwidened.storage ▸ hall r hr
  rw [requireMpc_eq_false hne] at h
  rw [requireMpc_eq_false hne']
  simp only [hloci]
  rcases h with ⟨a, hplain⟩ | ⟨a, htrust⟩ | hsingle
  · exact .inl ⟨a, hplain.widened (fun _ _ hc => hc.plain) hrels⟩
  · exact .inr (.inl ⟨a, htrust.widened (fun _ _ hc => hc.trust) hrels⟩)
  · exact .inr (.inr hsingle)

end Relation

-- ---------------------------------------------------------------------------
-- Plans
-- ---------------------------------------------------------------------------

/-- The node with wider labels. A source keeps the labels that it was given. -/
structure Node.Widened (gain : Set PartyId) (n m : Node) : Prop where
  same : { m with rel := n.rel } = n
  rel : n.rel.Widened gain m.rel
  source : n.parents = ∅ → m.rel = n.rel

namespace Node.Widened

variable {gain : Set PartyId} {n m o : Node}

theorem refl : Widened gain n n := ⟨rfl, .refl, fun _ => rfl⟩

theorem op (h : Widened gain n m) : m.op = n.op := (congrArg Node.op h.same :)

theorem inputs (h : Widened gain n m) : m.inputs = n.inputs := (congrArg Node.inputs h.same :)

theorem parents (h : Widened gain n m) : m.parents = n.parents := (congrArg Node.parents h.same :)

theorem children (h : Widened gain n m) : m.children = n.children := (congrArg Node.children h.same :)

theorem samePlace (h : Widened gain n m) : Plan.SamePlace m n where
  id := (congrArg Node.id h.same :)
  inputs := h.inputs
  parents := h.parents
  children := h.children
  arity := by rw [h.op]

theorem trans (h₁ : Widened gain n m) (h₂ : Widened gain m o) : Widened gain n o where
  same := by
    have hsame := congrArg (fun m : Node => { m with rel := n.rel }) h₂.same
    exact hsame.trans h₁.same
  rel := h₁.rel.trans h₂.rel
  source hn := (h₂.source (h₁.parents.trans hn)).trans (h₁.source hn)

end Node.Widened

namespace Plan

variable {p q r : Plan} {k u : NodeId} {n m : Node} {ins : List Relation}

/-- The parties that store the node or a node that has no other input. -/
def storers (p : Plan) (k : NodeId) : Set PartyId :=
  {a | ∃ c m, p.nodes.get? c = some m ∧ (c = k ∨ m.inputs = .unary k) ∧ a ∈ m.rel.storage.members}

/-- The same plan but for labels, which may have gained parties that store what they are on or what is made of
it alone. -/
structure Widened (p q : Plan) : Prop where
  roots : q.roots = p.roots
  nextId : q.nextId = p.nextId
  nodes : ∀ k, Option.Rel (Node.Widened (p.storers k)) (p.nodes.get? k) (q.nodes.get? k)

namespace Widened

theorem get? (h : Widened p q) (hn : p.nodes.get? k = some n) :
    ∃ m, q.nodes.get? k = some m ∧ n.Widened (p.storers k) m := by
  have hk := h.nodes k
  rw [hn] at hk
  cases hm : q.nodes.get? k with
  | none => rw [hm] at hk; cases hk
  | some m => rw [hm] at hk; cases hk with | some hk => exact ⟨m, rfl, hk⟩

theorem get?_old (h : Widened p q) (hm : q.nodes.get? k = some m) :
    ∃ n, p.nodes.get? k = some n ∧ n.Widened (p.storers k) m := by
  have hk := h.nodes k
  rw [hm] at hk
  cases hn : p.nodes.get? k with
  | none => rw [hn] at hk; cases hk
  | some n => rw [hn] at hk; cases hk with | some hk => exact ⟨n, rfl, hk⟩

theorem sameGraph (h : Widened p q) : SameGraph p q where
  old hn := by
    obtain ⟨m, hm, hmn⟩ := h.get?_old hn
    exact ⟨m, hm, hmn.samePlace⟩
  new hm := by
    obtain ⟨n, hn, hmn⟩ := h.get? hm
    exact ⟨n, hn, hmn.samePlace⟩
  roots := h.roots
  nextId := h.nextId

theorem coherent (h : Widened p q) (hp : p.Coherent) : q.Coherent := h.sameGraph.coherent hp

theorem storers_eq (h : Widened p q) : q.storers k = p.storers k := by
  ext a
  constructor
  · rintro ⟨c, m, hm, hk, ha⟩
    obtain ⟨n, hn, hnm⟩ := h.get?_old hm
    exact ⟨c, n, hn, hnm.inputs ▸ hk, hnm.rel.storage ▸ ha⟩
  · rintro ⟨c, n, hn, hk, ha⟩
    obtain ⟨m, hm, hnm⟩ := h.get? hn
    exact ⟨c, m, hm, hnm.inputs.symm ▸ hk, hnm.rel.storage.symm ▸ ha⟩

theorem of_get? (hroots : q.roots = p.roots) (hnext : q.nextId = p.nextId)
    (h : ∀ k, p.nodes.get? k = none ∧ q.nodes.get? k = none ∨
      ∃ n m, p.nodes.get? k = some n ∧ q.nodes.get? k = some m ∧ n.Widened (p.storers k) m) : Widened p q where
  roots := hroots
  nextId := hnext
  nodes k := by
    obtain ⟨hn, hm⟩ | ⟨n, m, hn, hm, hnm⟩ := h k
    · rw [hn, hm]
      exact .none
    · rw [hn, hm]
      exact .some hnm

theorem refl : Widened p p := by
  refine of_get? rfl rfl fun k => ?_
  cases hn : p.nodes.get? k with
  | none => exact .inl ⟨rfl, rfl⟩
  | some n => exact .inr ⟨n, n, rfl, rfl, .refl⟩

theorem trans (h₁ : Widened p q) (h₂ : Widened q r) : Widened p r := by
  refine of_get? (h₂.roots.trans h₁.roots) (h₂.nextId.trans h₁.nextId) fun k => ?_
  cases hn : p.nodes.get? k with
  | none =>
    refine .inl ⟨rfl, Option.eq_none_iff_forall_ne_some.mpr fun o ho => ?_⟩
    obtain ⟨m, hm, -⟩ := h₂.get?_old ho
    obtain ⟨n, hn', -⟩ := h₁.get?_old hm
    rw [hn] at hn'
    cases hn'
  | some n =>
    obtain ⟨m, hm, hnm⟩ := h₁.get? hn
    obtain ⟨o, ho, hmo⟩ := h₂.get? hm
    exact .inr ⟨n, o, rfl, ho, hnm.trans (h₁.storers_eq (k := k) ▸ hmo)⟩

/-- One node that is no source is opened to parties that store it or what is made of it alone. -/
theorem loosen {members : PartySet} (hn : p.nodes.get? k = some n) (hparents : n.parents ≠ ∅)
    (hmembers : ∀ a ∈ members, a ∈ p.storers k) : Widened p (p.set k (PushUp.loosenColumns members n)) := by
  refine of_get? rfl rfl fun j => ?_
  rw [get?_set]
  split
  case isTrue hj =>
    subst hj
    refine .inr ⟨n, _, hn, rfl, rfl, ⟨rfl, rfl, ?_⟩, fun h => absurd h hparents⟩
    exact List.forall₂_map_right_iff.mpr (List.forall₂_same.mpr fun _ _ => .loosen hmembers)
  case isFalse =>
    cases hm : p.nodes.get? j with
    | none => exact .inl ⟨rfl, rfl⟩
    | some m => exact .inr ⟨m, m, rfl, rfl, .refl⟩

theorem inputRelations (h : Widened p q) (hins : p.inputRelations k = .ok ins) :
    ∃ ins', q.inputRelations k = .ok ins' ∧ List.Forall₂ (Relation.Widened Set.univ) ins ins' := by
  obtain ⟨n, hn, hall⟩ := inputRelations_eq_ok.mp hins
  obtain ⟨m, hm, hnm⟩ := h.get? hn
  have hinputs : ∀ u ∈ m.inputs.ids, ∃ o, q.nodes.get? u = some o := by
    intro u hu
    rw [hnm.inputs] at hu
    obtain ⟨-, -, o, ho, -⟩ := exists_of_forall₂ hall.flip hu
    obtain ⟨o', ho', -⟩ := h.get? ho
    exact ⟨o', ho'⟩
  obtain ⟨ins', hins'⟩ := exists_inputRelations hm hinputs
  refine ⟨ins', hins', forall₂_inputRelations hn hm hins hins' ?_⟩
  rw [hnm.inputs]
  refine List.forall₂_same.mpr fun u _ a b ha hb => ?_
  obtain ⟨b', hb', hab⟩ := h.get? ha
  cases hb.symm.trans hb'
  exact hab.rel.mono (Set.subset_univ _)

/-- No node needs MPC under wider labels that has not needed it before. -/
theorem requiresMpc (h : Widened p q) (hp : p.Linked) (hk : p.requiresMpc k = .ok false) :
    q.requiresMpc k = .ok false := by
  have hq := h.sameGraph.linked hp
  obtain ⟨rank, hrank⟩ := hp.ranked
  -- a store asks the node above it, so the induction is on the rank
  induction hr : rank k using Nat.strong_induction_on generalizing k with
  | _ r ih =>
    obtain ⟨n, hfound, -⟩ := bind_eq_ok.mp (hp.requiresMpc_eq.symm.trans hk)
    have hn := node_eq_ok.mp hfound
    obtain ⟨m, hm, hnm⟩ := h.get? hn
    by_cases hinner : n.op.isInner = true ∧ n.op ≠ .create
    · obtain ⟨ins, hins⟩ := exists_inputRelations hn (hp.exists_input hn)
      obtain ⟨ins', hins', hwidened⟩ := h.inputRelations hins
      rw [hp.requiresMpc_of_inner hn hinner.1 hinner.2 hins, Except.ok.injEq] at hk
      rw [hq.requiresMpc_of_inner hm (hnm.op ▸ hinner.1) (hnm.op ▸ hinner.2) hins', Except.ok.injEq]
      exact Relation.requireMpc_antitone hwidened hk
    rw [hp.requiresMpc_eq, requiresMpcGiven, node_eq_ok.mpr hn] at hk
    rw [hq.requiresMpc_eq, requiresMpcGiven, node_eq_ok.mpr hm]
    simp only [bind, Except.bind, hnm.op, hnm.inputs] at hk ⊢
    cases hop : n.op <;> simp only [hop] at hk hinner ⊢
    case create =>
      exact congrArg Except.ok (Relation.requireMpc_antitone (.cons hnm.rel .nil) (Except.ok.inj hk))
    case store =>
      cases hin : n.inputs <;> simp only [hin] at hk ⊢
      case unary u => exact ih (rank u) (hr ▸ hrank ⟨n, hn, by simp [hin]⟩) hk rfl
      all_goals rfl
    case opening | closing => cases hk
    case read | collect => rfl
    all_goals simp [Op.isInner] at hinner

end Widened

end Plan

-- ---------------------------------------------------------------------------
-- The sweep
-- ---------------------------------------------------------------------------

open Plan Edit

variable {p q : Plan} {id : NodeId} {u : Unit}

theorem PushUp.widened_of_visit (hp : p.Coherent) (run : visit id p = .ok u q) : p.Widened q := by
  obtain rfl | ⟨n, parent, m, hn, hin, hm, hroot, -, -, rfl⟩ := run_visit hp run
  · exact .refl
  have hne : parent ≠ id := hp.ne_of_feeds ⟨n, hn, by simp [hin]⟩
  have hparents : n.parents ≠ ∅ := IdSet.ne_empty_of_mem ((hp.parents (u := parent) hn).mpr (by simp [hin]))
  have hinner : m.parents ≠ ∅ := by
    intro h
    rw [Node.isRoot, IdSet.isEmpty_iff.mpr h] at hroot
    cases hroot
  have hself : p.Widened (p.set id (loosenColumns n.rel.storage.members n)) :=
    .loosen hn hparents fun a ha => ⟨id, n, hn, .inl rfl, ha⟩
  apply hself.trans
  apply Widened.loosen _ hinner
  · intro a ha
    rw [hself.storers_eq]
    exact ⟨id, n, hn, .inr hin, ha⟩
  · rw [get?_set, if_neg hne, hm]

namespace Pass

theorem widened_of_step (hp : p.Coherent) (run : pushUp.step id p = .ok u q) : p.Widened q := by
  obtain ⟨-, rfl⟩ | ⟨n, -, run⟩ := run_step.mp run
  · exact .refl
  simp only [pushUp] at run
  split at run
  · exact PushUp.widened_of_visit hp run
  · obtain ⟨-, rfl⟩ := run_pure.mp run
    exact .refl

theorem widened_of_steps {l : List NodeId} (hp : p.Coherent) (run : l.forM pushUp.step p = .ok u q) : p.Widened q := by
  apply forM_loop (motive := fun _ r => p.Widened r) _ .refl run
  intro k _ r s hr hstep
  exact hr.trans (widened_of_step (hr.coherent hp) hstep)

/-- Pulling labels up widens labels by parties that store the data and does nothing else. Nodes that needed no MPC
need none afterwards. -/
theorem pushUp_widens (hp : p.WellFormed) (run : pushUp.run p = .ok () q) :
    p.Widened q ∧ ∀ k, p.requiresMpc k = .ok false → q.requiresMpc k = .ok false := by
  obtain ⟨order, r, -, hsteps, hfinish⟩ := run_run.mp run
  obtain ⟨-, rfl⟩ := run_pure.mp hfinish
  have hwidened := widened_of_steps hp.coherent hsteps
  exact ⟨hwidened, fun k => hwidened.requiresMpc hp.coherent.toLinked⟩

end Pass

/-- Two relations are put together, shuffled and sorted. -/
def Workflow.shuffleSort : List Call :=
  [.create "a" [.fresh "x" .integer] (.among 1 []), .create "b" [.fresh "x" .integer] (.among 2 []),
   .concat [0, 1] "c", .shuffle 2 "d", .sortBy 3 "e" "x" true, .collect 4 "f" (.singleton 1)]

/-- The order of the rows is all that the shuffle and the sort hide, so both can be done in the clear. -/
theorem Pass.pushUp_widens_shuffleSort : ∃ p q, p.WellFormed ∧ pushUp.run p = .ok () q ∧
    p.requiresMpc 3 = .ok true ∧ p.requiresMpc 5 = .ok false ∧ q.requiresMpc 3 = .ok false ∧
    p.Widened q ∧ q.requiresMpc 5 = .ok false := by
  have hwrites : Workflow.writesTo Workflow.shuffleSort (fun p => runsTo pushUp.run p fun q =>
      p.requiresMpc 3 = .ok true ∧ p.requiresMpc 5 = .ok false ∧ q.requiresMpc 3 = .ok false) = true := by cbv
  obtain ⟨p, w, hwrite, hruns⟩ := Workflow.exists_of_writesTo hwrites
  obtain ⟨q, run, htest⟩ := exists_of_runsTo hruns
  obtain ⟨hjoint, hlocal, hopen⟩ := of_decide_eq_true htest
  have hbuilt : p.Built := ⟨_, w, hwrite⟩
  have hp := hbuilt.simple.coherent.wellFormed
  obtain ⟨hwidened, hkept⟩ := pushUp_widens hp run
  exact ⟨p, q, hp, run, hjoint, hlocal, hopen, hwidened, hkept 5 hlocal⟩

end JointPlan
