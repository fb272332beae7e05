import JointPlan.Proofs.Outline

/-!
# Coherent plans

The nodes of a plan hold each edge three times: the ordered inputs of its lower
end, and the parents and children of its two ends. `Plan.Linked` says that the
three agree and that the graph they describe has no cycle. `Plan.Coherent` adds that
every node but the roots has inputs of the right number. All of it can be read off
the outline, and so off the skeleton.

Acyclicity is given by a rank that goes up along every edge.
-/

namespace JointPlan

theorem IdSet.nodup_toList (s : IdSet) : s.toList.Nodup := s.ascending.imp Nat.ne_of_lt

namespace Inputs

@[simp] theorem ids_unary {u : NodeId} : (Inputs.unary u).ids = [u] := rfl

end Inputs

/-- The operators that are neither deliveries nor at the border. -/
def Op.isInner : Op → Bool
  | .collect _ | .opening | .closing _ | .store | .read => false
  | _ => true

theorem Op.isBoundary_of_isInner {op : Op} (h : op.isInner = true) : op.isBoundary = false := by
  cases op <;> first | rfl | cases h

/-- All other operators stand at the border or collect. -/
theorem Op.eq_collect {op : Op} (h : op.isInner = false) (hop : op.isBoundary = false) :
    ∃ recipients, op = .collect recipients := by
  cases op <;> first | exact ⟨_, rfl⟩ | (cases h; done) | cases hop

theorem Op.arity_eq_nullary {op : Op} : op.arity = .nullary ↔ op = .create := by
  cases op <;> simp [Op.arity]

theorem Op.ne_create_of_unary {op : Op} (h : op.arity = .unary) : op ≠ .create := by
  rintro rfl
  cases h

namespace Plan

variable {p q : Plan} {u v k : NodeId} {n m : Node}

/-- There is an edge: `u` is among the inputs of `v`. -/
def Feeds (p : Plan) (u v : NodeId) : Prop := ∃ n, p.nodes.get? v = some n ∧ u ∈ n.inputs.ids

theorem feeds_iff (hn : p.nodes.get? k = some n) : p.Feeds u k ↔ u ∈ n.inputs.ids := by simp [Feeds, hn]

theorem feeds_unary_iff (hn : p.nodes.get? k = some n) (hin : n.inputs = .unary v) : p.Feeds u k ↔ u = v := by
  simp [feeds_iff hn, hin]

structure Linked (p : Plan) : Prop where
  keyed : ∀ {k n}, p.nodes.get? k = some n → n.id = k
  below : ∀ {k n}, p.nodes.get? k = some n → k < p.nextId
  bounded : p.nextId < Word.limit
  closed : ∀ {u v}, p.Feeds u v → ∃ n, p.nodes.get? u = some n
  parents : ∀ {k n u}, p.nodes.get? k = some n → (u ∈ n.parents ↔ u ∈ n.inputs.ids)
  children : ∀ {k n v}, p.nodes.get? k = some n → (v ∈ n.children ↔ p.Feeds k v)
  ranked : ∃ rank : NodeId → Nat, ∀ {u v}, p.Feeds u v → rank u < rank v

structure Coherent (p : Plan) : Prop extends p.Linked where
  fits : ∀ {k n}, p.nodes.get? k = some n → n.inputs.fits n.op.arity = true
  fed : ∀ {k n}, p.nodes.get? k = some n → n.op ≠ .create → n.inputs.ids ≠ []
  roots : ∀ {k}, k ∈ p.roots ↔ ∃ n, p.nodes.get? k = some n ∧ n.op = .create

-- ---------------------------------------------------------------------------
-- Plans with one graph
-- ---------------------------------------------------------------------------

/-- The nodes stand in the same place, and their operators take the same inputs. -/
structure SamePlace (n m : Node) : Prop where
  id : n.id = m.id
  inputs : n.inputs = m.inputs
  parents : n.parents = m.parents
  children : n.children = m.children
  arity : n.op.arity = m.op.arity

theorem SamePlace.create (h : SamePlace n m) : n.op = .create ↔ m.op = .create := by
  rw [← Op.arity_eq_nullary, ← Op.arity_eq_nullary, h.arity]

theorem SamePlace.of_outline_eq (h : n.outline = m.outline) : SamePlace n m where
  id := Node.id_eq_of_outline_eq h
  inputs := Node.inputs_eq_of_outline_eq h
  parents := Node.parents_eq_of_outline_eq h
  children := Node.children_eq_of_outline_eq h
  arity := Op.arity_eq_of_blank_eq (Node.blank_eq_of_outline_eq h)

/-- The plans have the same nodes in the same places. -/
structure SameGraph (p q : Plan) : Prop where
  old : ∀ {k n}, q.nodes.get? k = some n → ∃ m, p.nodes.get? k = some m ∧ SamePlace n m
  new : ∀ {k m}, p.nodes.get? k = some m → ∃ n, q.nodes.get? k = some n ∧ SamePlace n m
  roots : q.roots = p.roots
  nextId : q.nextId = p.nextId

theorem SameGraph.of_outline_eq (h : q.outline = p.outline) : SameGraph p q where
  old hn := by
    obtain ⟨m, hm, hs⟩ := get?_of_outline_eq h hn
    exact ⟨m, hm, .of_outline_eq hs⟩
  new hm := by
    obtain ⟨n, hn, hs⟩ := get?_of_outline_eq h.symm hm
    exact ⟨n, hn, .of_outline_eq hs.symm⟩
  roots := roots_eq_of_outline_eq h
  nextId := nextId_eq_of_outline_eq h

namespace SameGraph

variable (h : SameGraph p q)

include h

theorem feeds : q.Feeds u v ↔ p.Feeds u v := by
  constructor
  · rintro ⟨n, hn, hu⟩
    obtain ⟨m, hm, hs⟩ := h.old hn
    exact ⟨m, hm, hs.inputs ▸ hu⟩
  · rintro ⟨m, hm, hu⟩
    obtain ⟨n, hn, hs⟩ := h.new hm
    exact ⟨n, hn, hs.inputs.symm ▸ hu⟩

theorem linked (hp : p.Linked) : q.Linked := by
  constructor
  case keyed =>
    intro k n hn
    obtain ⟨m, hm, hs⟩ := h.old hn
    exact hs.id.trans (hp.keyed hm)
  case below =>
    intro k n hn
    obtain ⟨m, hm, -⟩ := h.old hn
    exact (hp.below hm).trans_eq h.nextId.symm
  case bounded => exact h.nextId ▸ hp.bounded
  case closed =>
    intro u v huv
    obtain ⟨m, hm⟩ := hp.closed (h.feeds.mp huv)
    obtain ⟨n, hn, -⟩ := h.new hm
    exact ⟨n, hn⟩
  case parents =>
    intro k n u hn
    obtain ⟨m, hm, hs⟩ := h.old hn
    rw [hs.parents, hs.inputs]
    exact hp.parents hm
  case children =>
    intro k n v hn
    obtain ⟨m, hm, hs⟩ := h.old hn
    rw [hs.children, h.feeds]
    exact hp.children hm
  case ranked =>
    obtain ⟨rank, hrank⟩ := hp.ranked
    exact ⟨rank, fun huv => hrank (h.feeds.mp huv)⟩

theorem coherent (hp : p.Coherent) : q.Coherent := by
  refine { h.linked hp.toLinked with fits := ?fits, fed := ?fed, roots := ?roots }
  case fits =>
    intro k n hn
    obtain ⟨m, hm, hs⟩ := h.old hn
    rw [hs.inputs, hs.arity]
    exact hp.fits hm
  case fed =>
    intro k n hn hop
    obtain ⟨m, hm, hs⟩ := h.old hn
    rw [hs.inputs]
    exact hp.fed hm fun hc => hop (hs.create.mpr hc)
  case roots =>
    intro k
    rw [h.roots, hp.roots]
    constructor
    · rintro ⟨m, hm, hc⟩
      obtain ⟨n, hn, hs⟩ := h.new hm
      exact ⟨n, hn, hs.create.mpr hc⟩
    · rintro ⟨n, hn, hc⟩
      obtain ⟨m, hm, hs⟩ := h.old hn
      exact ⟨m, hm, hs.create.mp hc⟩

end SameGraph

theorem Coherent.of_outline_eq (hp : p.Coherent) (h : q.outline = p.outline) : q.Coherent :=
  (SameGraph.of_outline_eq h).coherent hp

theorem Coherent.of_skeleton_eq (hp : p.Coherent) (h : q.skeleton = p.skeleton) : q.Coherent :=
  hp.of_outline_eq (outline_eq_of_skeleton_eq h)

theorem feeds_iff_of_skeleton_eq (h : q.skeleton = p.skeleton) : q.Feeds u v ↔ p.Feeds u v :=
  (SameGraph.of_outline_eq (outline_eq_of_skeleton_eq h)).feeds

theorem feeds_set_op {op : Op} (hn : p.nodes.get? k = some n) :
    (p.set k { n with op }).Feeds u v ↔ p.Feeds u v := by
  unfold Feeds
  rw [get?_set]
  by_cases hv : v = k
  · simp [hv, hn]
  · simp [hv]

/-- Another operator that takes the same inputs. -/
theorem SameGraph.set_op {op : Op} (hn : p.nodes.get? k = some n)
    (harity : op.arity = n.op.arity) : SameGraph p (p.set k { n with op }) := by
  have hplace : SamePlace { n with op } n := ⟨rfl, rfl, rfl, rfl, harity⟩
  have hself (m : Node) : SamePlace m m := ⟨rfl, rfl, rfl, rfl, rfl⟩
  refine ⟨fun {j m} hm => ?_, fun {j m} hm => ?_, rfl, rfl⟩
  · rw [get?_set] at hm
    split at hm
    · rename_i hj
      cases hm
      exact ⟨n, hj ▸ hn, hplace⟩
    · exact ⟨m, hm, hself m⟩
  · rw [get?_set]
    by_cases hj : j = k
    · subst hj
      cases hn.symm.trans hm
      exact ⟨_, if_pos rfl, hplace⟩
    · exact ⟨m, by rw [if_neg hj, hm], hself m⟩

-- ---------------------------------------------------------------------------
-- Consequences
-- ---------------------------------------------------------------------------

namespace Linked

variable (hp : p.Linked)

include hp

/-- Roots are not among the edges. -/
theorem with_roots {roots : NodeSet} : ({ p with roots } : Plan).Linked := { hp with }

theorem not_feeds_self : ¬ p.Feeds k k := by
  obtain ⟨rank, hrank⟩ := hp.ranked
  exact fun h => Nat.lt_irrefl _ (hrank h)

theorem ne_of_feeds (huv : p.Feeds u v) : u ≠ v := by
  rintro rfl
  exact hp.not_feeds_self huv

theorem not_feeds_back (h : p.Feeds u v) : ¬ p.Feeds v u := by
  obtain ⟨rank, hrank⟩ := hp.ranked
  exact fun h' => Nat.lt_asymm (hrank h) (hrank h')

/-- What holds of a node whenever it holds of its inputs holds of all nodes. -/
theorem input_induction {motive : NodeId → Node → Prop}
    (step : ∀ k n, p.nodes.get? k = some n →
      (∀ u ∈ n.inputs.ids, ∀ m, p.nodes.get? u = some m → motive u m) → motive k n)
    (hn : p.nodes.get? k = some n) : motive k n := by
  obtain ⟨rank, hrank⟩ := hp.ranked
  induction hr : rank k using Nat.strong_induction_on generalizing k n with
  | _ r ih =>
    subst hr
    exact step k n hn fun u hu m hm => ih (rank u) (hrank ⟨n, hn, hu⟩) hm rfl

/-- The next number is free. -/
theorem get?_nextId : p.nodes.get? p.nextId = none := by
  cases h : p.nodes.get? p.nextId with
  | none => rfl
  | some n => exact absurd (hp.below h) (Nat.lt_irrefl _)

theorem ne_nextId (hn : p.nodes.get? k = some n) : k ≠ p.nextId := (hp.below hn).ne

theorem not_feeds_nextId : ¬ p.Feeds u p.nextId := fun ⟨_, hm, _⟩ => hp.ne_nextId hm rfl

theorem source_lt (h : p.Feeds u v) : u < p.nextId := by
  obtain ⟨m, hm⟩ := hp.closed h
  exact hp.below hm

theorem not_nextId_feeds : ¬ p.Feeds p.nextId v := fun h => Nat.lt_irrefl _ (hp.source_lt h)

theorem feeds_of_mem_parents (hn : p.nodes.get? k = some n) (hu : u ∈ n.parents) : p.Feeds u k :=
  ⟨n, hn, (hp.parents hn).mp hu⟩

/-- There is a rank below the number of nodes: how many nodes come before. -/
theorem exists_rank_lt_size : ∃ rank : NodeId → Nat,
    (∀ {u v}, p.Feeds u v → rank u < rank v) ∧ ∀ {k n}, p.nodes.get? k = some n → rank k < p.size := by
  obtain ⟨rank, hrank⟩ := hp.ranked
  refine ⟨fun k => (p.nodes.keys.toFinset.filter fun j => rank j < rank k).card, ?_, ?_⟩
  · intro u v huv
    have hlt := hrank huv
    obtain ⟨m, hm⟩ := hp.closed huv
    refine Finset.card_lt_card (Finset.ssubset_iff_of_subset ?_ |>.mpr ⟨u, ?_, ?_⟩)
    · exact Finset.monotone_filter_right _ fun j _ hj => hj.trans hlt
    · simp [IdMap.mem_keys_of_get? hm, hlt]
    · simp
  · intro k n hn
    calc (p.nodes.keys.toFinset.filter fun j => rank j < rank k).card
      _ < p.nodes.keys.toFinset.card := Finset.card_lt_card
          (Finset.filter_ssubset.mpr ⟨k, by simp [IdMap.mem_keys_of_get? hn], by simp⟩)
      _ ≤ p.nodes.keys.length := List.toFinset_card_le _
      _ = p.size := by simp [IdMap.keys, Plan.size, IdMap.size]

end Linked

namespace Coherent

variable (hp : p.Coherent)

include hp

theorem arity_of_inputs (hn : p.nodes.get? k = some n) (hin : n.inputs = .unary u) :
    n.op.arity = .unary := by
  have := hp.fits hn
  rw [hin] at this
  cases ha : n.op.arity <;> simp_all [Inputs.fits]

theorem inputs_of_arity (hn : p.nodes.get? k = some n) (ha : n.op.arity = .unary) :
    ∃ u, n.inputs = .unary u := by
  have := hp.fits hn
  rw [ha] at this
  cases hi : n.inputs <;> simp_all [Inputs.fits]

theorem exists_feeder (hn : p.nodes.get? k = some n) (ha : n.op.arity = .unary) : ∃ u, ∀ v, p.Feeds v k ↔ v = u := by
  obtain ⟨u, hin⟩ := hp.inputs_of_arity hn ha
  exact ⟨u, fun v => feeds_unary_iff hn hin⟩

/-- A node is a root of the graph exactly when it is a source of the plan. -/
theorem isRoot_iff (hn : p.nodes.get? k = some n) : n.isRoot = true ↔ n.op = .create := by
  rw [Node.isRoot, IdSet.isEmpty_iff]
  constructor
  · intro hempty
    by_contra hop
    obtain ⟨u, hu⟩ := List.exists_mem_of_ne_nil _ (hp.fed hn hop)
    exact IdSet.not_mem_empty u (hempty ▸ (hp.parents hn).mpr hu)
  · intro hop
    have hfits := hp.fits hn
    ext u
    rw [hp.parents hn]
    rw [hop] at hfits
    cases hi : n.inputs <;> simp_all [Inputs.fits, Inputs.ids, Op.arity]

end Coherent

-- ---------------------------------------------------------------------------
-- Plans without borders
-- ---------------------------------------------------------------------------

structure Orderly (p : Plan) : Prop where
  coherent : p.Coherent
  sound : p.Sound

/-- The edges fit together, and columns are numbered by position. -/
structure Indexed (p : Plan) : Prop where
  coherent : p.Coherent
  numbered : p.Numbered

theorem Orderly.indexed (hp : p.Orderly) : p.Indexed := ⟨hp.coherent, hp.sound.numbered⟩

theorem Orderly.of_skeleton_eq (hp : p.Orderly) (h : q.skeleton = p.skeleton) (hq : q.Sound) :
    q.Orderly where
  coherent := hp.coherent.of_skeleton_eq h
  sound := hq

/-- All operators stand where `P` allows it. -/
def Placed (p : Plan) (P : NodeId → Op → Prop) : Prop := ∀ k n, p.nodes.get? k = some n → P k n.op

/-- What `P` says is about deliveries and boundary operators only. -/
structure Placement (P : NodeId → Op → Prop) : Prop where
  bare : ∀ {k op op'}, op.bare = op'.bare → P k op' → P k op
  inner : ∀ {k op}, op.isInner = true → P k op

theorem Placed.of_skeleton_eq {P : NodeId → Op → Prop} (hp : p.Placed P) (hP : Placement P)
    (h : q.skeleton = p.skeleton) : q.Placed P := by
  intro k n hn
  obtain ⟨m, hm, hs⟩ := get?_of_skeleton_eq h hn
  exact hP.bare (Node.bare_eq_of_skeleton_eq hs) (hp k m hm)

/-- There are no boundary operators. -/
def Plain (p : Plan) : Prop := ∀ k n, p.nodes.get? k = some n → n.op.isBoundary = false

theorem plain_placement : Placement fun _ op => op.isBoundary = false where
  bare h hop := (Op.isBoundary_eq_of_bare_eq h).trans hop
  inner {_ op} h := by cases op <;> first | rfl | cases h

/-- A coherent and sound plan without boundary operators. -/
structure Simple (p : Plan) : Prop extends p.Orderly where
  plain : p.Plain

end Plan

end JointPlan
