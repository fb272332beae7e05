import JointPlan.Plan.Mpc
import JointPlan.Proofs.Pushing

/-!
# What a change leaves alone

`Plan.Framed S T` says how far a change of a plan goes: the nodes in `T` may have
other children afterwards, and those in `S` may have changed in any other way.
Whether a node enters MPC depends on the node and on those above it, and not on children,
so it stays as it is where no such node is in `S`.
-/

namespace JointPlan

namespace Node

/-- The node without its children. -/
def shape (n : Node) : Node := { n with children := ∅ }

end Node

namespace Plan

variable {p q r : Plan} {k u : NodeId} {n m : Node} {S T S' T' : Set NodeId}

-- ---------------------------------------------------------------------------
-- Nodes that are alike
-- ---------------------------------------------------------------------------

/-- The node is the same in both plans but for its children. -/
def Alike (p q : Plan) (k : NodeId) : Prop :=
  (q.nodes.get? k).map Node.shape = (p.nodes.get? k).map Node.shape

namespace Alike

theorem refl : Alike p p k := rfl

theorem trans (h₁ : Alike p q k) (h₂ : Alike q r k) : Alike p r k := Eq.trans h₂ h₁

theorem symm (h : Alike p q k) : Alike q p k := Eq.symm h

theorem of_eq (h : q.nodes.get? k = p.nodes.get? k) : Alike p q k := congrArg _ h

theorem get? (h : Alike p q k) (hn : p.nodes.get? k = some n) :
    ∃ m, q.nodes.get? k = some m ∧ m.shape = n.shape := by
  rw [Alike, hn, Option.map_some] at h
  exact Option.map_eq_some_iff.mp h

theorem feeds (h : Alike p q k) : q.Feeds u k ↔ p.Feeds u k := by
  have key {p q : Plan} (h : Alike p q k) : p.Feeds u k → q.Feeds u k := by
    rintro ⟨n, hn, hu⟩
    obtain ⟨m, hm, hs⟩ := h.get? hn
    have : m.inputs = n.inputs := show m.shape.inputs = n.shape.inputs by rw [hs]
    exact ⟨m, hm, this ▸ hu⟩
  exact ⟨key h.symm, key h⟩

theorem rel (h : Alike p q k) : Node.rel <$> q.node k = Node.rel <$> p.node k := by
  unfold Plan.node
  unfold Alike at h
  cases hq : q.nodes.get? k <;> cases hp : p.nodes.get? k <;> simp_all
  rename_i m n
  exact show m.shape.rel = n.shape.rel by rw [h]

/-- The inputs of a node are read in its place, whatever else it holds. -/
theorem inputRelations_congr (hn : p.nodes.get? k = some n) (hm : q.nodes.get? k = some m) (hinputs : m.inputs = n.inputs)
    (hin : ∀ u ∈ n.inputs.ids, Alike p q u) : q.inputRelations k = p.inputRelations k := by
  unfold Plan.inputRelations Plan.node
  simp only [hn, hm, bind, Except.bind, hinputs]
  exact mapM_congr fun u hu => (hin u hu).rel

theorem inputRelations (h : Alike p q k) (hin : ∀ u, p.Feeds u k → Alike p q u) :
    q.inputRelations k = p.inputRelations k := by
  cases hp : p.nodes.get? k with
  | none =>
    rw [Alike, hp, Option.map_none, Option.map_eq_none_iff] at h
    simp [Plan.inputRelations, Plan.node, hp, h, bind, Except.bind]
  | some n =>
    obtain ⟨m, hm, hs⟩ := h.get? hp
    have hids : m.inputs = n.inputs := show m.shape.inputs = n.shape.inputs by rw [hs]
    exact inputRelations_congr hp hm hids fun u hu => hin u ⟨n, hp, hu⟩

/-- Whether a node needs MPC is seen from the node and what feeds it. -/
theorem requiresMpcGiven {above above' : NodeId → Except Fault Bool} (h : Alike p q k)
    (hin : ∀ u, p.Feeds u k → Alike p q u ∧ above' u = above u) :
    q.requiresMpcGiven above' k = p.requiresMpcGiven above k := by
  have hrels := h.inputRelations fun u hu => (hin u hu).1
  unfold Plan.requiresMpcGiven Plan.node
  unfold Alike at h
  cases hp : p.nodes.get? k with
  | none =>
    rw [hp, Option.map_none, Option.map_eq_none_iff] at h
    rw [h]
    rfl
  | some n =>
    rw [hp, Option.map_some] at h
    obtain ⟨m, hm, hs⟩ := Option.map_eq_some_iff.mp h
    have hop : m.op = n.op := show m.shape.op = n.shape.op by rw [hs]
    have hrel : m.rel = n.rel := show m.shape.rel = n.shape.rel by rw [hs]
    have hinputs : m.inputs = n.inputs := show m.shape.inputs = n.shape.inputs by rw [hs]
    simp only [hm, bind, Except.bind, hop, hrel, hrels, hinputs]
    cases n.op
    case store =>
      cases hn : n.inputs
      case unary u => exact (hin u ⟨n, hp, by simp [hn]⟩).2
      all_goals rfl
    all_goals rfl

end Alike

/-- A chain of stores is followed to its end. -/
theorem Linked.requiresMpc_eq (hp : p.Linked) : p.requiresMpc k = p.requiresMpcGiven p.requiresMpc k := by
  obtain ⟨rank, hrank, hsize⟩ := hp.exists_rank_lt_size
  have hstable (depth : Nat) : ∀ k, rank k ≤ depth →
      p.requiresMpcWithin depth k = p.requiresMpcWithin (depth + 1) k := by
    induction depth with
    | zero => exact fun k hk => Alike.refl.requiresMpcGiven fun u hu => absurd (hrank hu) (by omega)
    | succ depth ih =>
      exact fun k hk => Alike.refl.requiresMpcGiven fun u hu => ⟨.refl, ih u (by have := hrank hu; omega)⟩
  cases hn : p.nodes.get? k with
  | none =>
    unfold requiresMpc
    cases p.size <;> exact Alike.refl.requiresMpcGiven fun u ⟨_, hm, _⟩ => nomatch hn.symm.trans hm
  | some n => exact hstable p.size k (hsize hn).le

section Fixed

variable (hp : p.Linked) (hn : p.nodes.get? k = some n)

include hp hn

theorem Linked.requiresMpc_opening (hop : n.op = .opening) : p.requiresMpc k = .ok true := by
  rw [hp.requiresMpc_eq, requiresMpcGiven, node_eq_ok.mpr hn]
  simp only [bind, Except.bind, hop]
  rfl

theorem Linked.requiresMpc_closing {storage : Storage} (hop : n.op = .closing storage) :
    p.requiresMpc k = .ok true := by
  rw [hp.requiresMpc_eq, requiresMpcGiven, node_eq_ok.mpr hn]
  simp only [bind, Except.bind, hop]
  rfl

theorem Linked.requiresMpc_read (hop : n.op = .read) : p.requiresMpc k = .ok false := by
  rw [hp.requiresMpc_eq, requiresMpcGiven, node_eq_ok.mpr hn]
  simp only [bind, Except.bind, hop]
  rfl

theorem Linked.requiresMpc_collect {recipients : PartySet} (hop : n.op = .collect recipients) :
    p.requiresMpc k = .ok false := by
  rw [hp.requiresMpc_eq, requiresMpcGiven, node_eq_ok.mpr hn]
  simp only [bind, Except.bind, hop]
  rfl

theorem Linked.requiresMpc_create (hop : n.op = .create) :
    p.requiresMpc k = .ok (Relation.requireMpc [n.rel]) := by
  rw [hp.requiresMpc_eq, requiresMpcGiven, node_eq_ok.mpr hn]
  simp only [bind, Except.bind, hop]
  rfl

theorem Linked.requiresMpc_store {parent : NodeId} (hop : n.op = .store) (hin : n.inputs = .unary parent) :
    p.requiresMpc k = p.requiresMpc parent := by
  rw [hp.requiresMpc_eq, requiresMpcGiven, node_eq_ok.mpr hn]
  simp only [bind, Except.bind, hop, hin]

end Fixed

/-- Whether a node needs MPC is seen from the nodes above it. -/
theorem Linked.requiresMpc_alike {above : Set NodeId} (hp : p.Linked) (hq : q.Linked)
    (habove : ∀ u v, p.Feeds u v → v ∈ above → u ∈ above) (h : ∀ k ∈ above, Alike p q k) :
    ∀ k ∈ above, q.requiresMpc k = p.requiresMpc k := by
  obtain ⟨rank, hrank⟩ := hp.ranked
  intro k
  induction hr : rank k using Nat.strong_induction_on generalizing k with
  | _ r ih =>
    intro hk
    rw [hp.requiresMpc_eq, hq.requiresMpc_eq]
    refine (h k hk).requiresMpcGiven fun u hu => ?_
    have hu' := habove u k hu hk
    exact ⟨h u hu', ih _ (hr ▸ hrank hu) u rfl hu'⟩

theorem noneRequiresMpc_congr {l : List NodeId} (h : ∀ u ∈ l, q.requiresMpc u = p.requiresMpc u) :
    q.noneRequiresMpc l = p.noneRequiresMpc l := by
  induction l with
  | nil => rfl
  | cons u l ih =>
    rw [noneRequiresMpc, noneRequiresMpc, h u List.mem_cons_self, ih fun w hw => h w (List.mem_cons_of_mem _ hw)]

/-- Whether a node enters MPC is seen from the nodes above it. -/
theorem Linked.isUpperBoundary_alike (above : Set NodeId) (hp : p.Linked) (hq : q.Linked)
    (habove : ∀ u v, p.Feeds u v → v ∈ above → u ∈ above) (h : ∀ k ∈ above, Alike p q k) (hk : k ∈ above) :
    q.isUpperBoundary k = p.isUpperBoundary k := by
  have hflags := hp.requiresMpc_alike hq habove h
  have halike := h k hk
  unfold Plan.isUpperBoundary
  rw [hflags k hk]
  unfold Plan.node
  unfold Alike at halike
  cases hn : p.nodes.get? k with
  | none =>
    rw [hn, Option.map_none, Option.map_eq_none_iff] at halike
    rw [halike]
    rfl
  | some n =>
    rw [hn, Option.map_some] at halike
    obtain ⟨m, hm, hs⟩ := Option.map_eq_some_iff.mp halike
    have hparents : m.parents = n.parents := show m.shape.parents = n.shape.parents by rw [hs]
    have hnone : q.noneRequiresMpc n.parents.toList = p.noneRequiresMpc n.parents.toList :=
      noneRequiresMpc_congr fun u hu =>
        hflags u (habove u k (hp.feeds_of_mem_parents hn (IdSet.mem_toList.mp hu)) hk)
    simp only [hm, hparents, bind, Except.bind, hnone]

theorem noneRequiresMpc_eq_true {l : List NodeId} :
    p.noneRequiresMpc l = .ok true ↔ ∀ u ∈ l, p.requiresMpc u = .ok false := by
  induction l with
  | nil => simp [noneRequiresMpc]
  | cons u l ih =>
    rw [noneRequiresMpc, List.forall_mem_cons, ← ih]
    cases hu : p.requiresMpc u with
    | error fault => simp [bind, Except.bind]
    | ok flag => cases flag <;> simp [bind, Except.bind, pure, Except.pure]

theorem isUpperBoundary_eq_true (hn : p.nodes.get? k = some n) : p.isUpperBoundary k = .ok true ↔
    p.requiresMpc k = .ok true ∧ ∀ u ∈ n.parents, p.requiresMpc u = .ok false := by
  unfold isUpperBoundary
  simp only [← IdSet.mem_toList, ← noneRequiresMpc_eq_true]
  cases hk : p.requiresMpc k with
  | error fault => simp [bind, Except.bind]
  | ok flag => cases flag <;> simp [bind, Except.bind, pure, Except.pure, node_eq_ok.mpr hn]

theorem isLowerBoundary_eq_true (hn : p.nodes.get? k = some n) : p.isLowerBoundary k = .ok true ↔
    p.requiresMpc k = .ok true ∧ ∀ c ∈ n.children, p.requiresMpc c = .ok false := by
  unfold isLowerBoundary
  simp only [← IdSet.mem_toList, ← noneRequiresMpc_eq_true]
  cases hk : p.requiresMpc k with
  | error fault => simp [bind, Except.bind]
  | ok flag => cases flag <;> simp [bind, Except.bind, pure, Except.pure, node_eq_ok.mpr hn]

-- ---------------------------------------------------------------------------
-- Confined changes
-- ---------------------------------------------------------------------------

structure Framed (S T : Set NodeId) (p q : Plan) : Prop where
  alike : ∀ k ∉ S, Alike p q k
  children : ∀ k ∉ T, (q.nodes.get? k).map Node.children = (p.nodes.get? k).map Node.children

namespace Framed

theorem refl : Framed S T p p := ⟨fun _ _ => rfl, fun _ _ => rfl⟩

theorem trans (h₁ : Framed S T p q) (h₂ : Framed S T q r) : Framed S T p r where
  alike k hk := (h₁.alike k hk).trans (h₂.alike k hk)
  children k hk := (h₂.children k hk).trans (h₁.children k hk)

theorem mono (h : Framed S T p q) (hS : S ⊆ S') (hT : T ⊆ T') : Framed S' T' p q where
  alike k hk := h.alike k fun hs => hk (hS hs)
  children k hk := h.children k fun ht => hk (hT ht)

theorem get? (h : Framed S T p q) (hS : k ∉ S) (hT : k ∉ T) : q.nodes.get? k = p.nodes.get? k := by
  have halike := h.alike k hS
  have hchildren := h.children k hT
  unfold Alike at halike
  cases hq : q.nodes.get? k <;> cases hp : p.nodes.get? k <;> simp_all
  rename_i m n
  obtain ⟨id, op, rel, inputs, parents, children⟩ := m
  obtain ⟨id', op', rel', inputs', parents', children'⟩ := n
  simp_all [Node.shape]

end Framed

/-- A change of nodes one by one, and then of what is derived. -/
theorem Framed.of_map {r : Plan} {f : NodeId → Node → Node} (hoff : ∀ k ∉ S, q.nodes.get? k = r.nodes.get? k)
    (houtline : q.outline = r.outline) (hr : ∀ k, k ∉ S ∨ k ∉ T → r.nodes.get? k = (p.nodes.get? k).map (f k))
    (hshape : ∀ k ∉ S, ∀ n, (f k n).shape = n.shape)
    (hchildren : ∀ k ∉ T, ∀ n, (f k n).children = n.children) : Framed S T p q where
  alike k hk := by
    rw [Alike, hoff k hk, hr k (.inl hk)]
    cases p.nodes.get? k <;> simp [hshape k hk]
  children k hk := by
    have hkept : (q.nodes.get? k).map Node.outline = (r.nodes.get? k).map Node.outline := by
      rw [← get?_outline, ← get?_outline, houtline]
    have hkept : (q.nodes.get? k).map Node.children = (r.nodes.get? k).map Node.children := by
      have := congrArg (Option.map Node.children) hkept
      rwa [Option.map_map, Option.map_map] at this
    rw [hkept, hr k (.inr hk)]
    cases p.nodes.get? k <;> simp [hchildren k hk]

theorem Touched.framed_of_map {r : Plan} {f : NodeId → Node → Node} (h : Touched S r q) (hS : S ⊆ S')
    (hr : ∀ k, k ∉ S' ∨ k ∉ T → r.nodes.get? k = (p.nodes.get? k).map (f k))
    (hshape : ∀ k ∉ S', ∀ n, (f k n).shape = n.shape)
    (hchildren : ∀ k ∉ T, ∀ n, (f k n).children = n.children) : Framed S' T p q :=
  .of_map (fun k hk => h.elsewhere k fun hs => hk (hS hs)) (outline_eq_of_skeleton_eq h.skeleton) hr hshape hchildren

/-- Another operator at a node, and then a change of what is derived. -/
theorem Touched.framed_set_op {op : Op} (h : Touched {k} (p.set k { n with op }) q)
    (hn : p.nodes.get? k = some n) : Framed {k} ∅ p q := by
  refine h.framed_of_map (f := fun j m => if j = k then { m with op } else m) subset_rfl ?_ ?_ ?_
  · intro j _
    rw [get?_set]
    by_cases hj : j = k
    · simp [hj, hn]
    · simp [hj]
  · intro j hj m
    rw [if_neg (by simpa using hj)]
  · intro j _ m
    split <;> rfl

/-- A new node, and then a change of what is derived at it and at its readers. -/
theorem Framed.of_splice {parent : NodeId} {cs : NodeSet} {op : Op} {rel : Relation}
    (hoff : ∀ k, k ≠ p.nextId → k ∉ cs → q.nodes.get? k = (p.splice parent cs op rel).nodes.get? k)
    (houtline : q.outline = (p.splice parent cs op rel).outline) :
    Framed ({p.nextId} ∪ {c | c ∈ cs}) {p.nextId, parent} p q := by
  refine .of_map (f := relinked parent p.nextId cs) (fun k hk => ?_) houtline ?_ ?_ ?_
  · exact hoff k (fun h => hk (.inl h)) fun h => hk (.inr h)
  · intro k hk
    have hnew : k ≠ p.nextId := by rintro rfl; simp at hk
    rw [get?_splice, if_neg hnew]
  · intro k hk n
    simp only [Set.mem_union, Set.mem_ofPred_eq, not_or] at hk
    simp only [relinked, hk.2, if_false]
    split <;> rfl
  · intro k hk n
    simp only [Set.mem_insert_iff, Set.mem_singleton_iff, not_or] at hk
    rw [relinked_children, if_neg hk.2]

theorem Spliced.framed {parent : NodeId} {cs : NodeSet} {op : Op} {rel : Relation}
    (h : p.Spliced parent cs op rel q) (hs : p.Sound) :
    Framed ({p.nextId} ∪ {c | c ∈ cs}) {p.nextId, parent} p q :=
  .of_splice (fun k hnew hk => (h.touched hs).elsewhere k (by simp [hnew, hk])) h.outline

theorem Forked.framed {id child : NodeId} {rel : Relation} (h : p.Forked id child n rel q)
    (hs : p.Sound) : Framed {p.nextId, child} ({p.nextId, id} ∪ {u | u ∈ n.parents}) p q := by
  refine (h.touched hs).framed_of_map (f := forkedNode id child p.nextId n) (by simp) ?_ ?_ ?_
  · intro k hk
    have hnew : k ≠ p.nextId := by rintro rfl; simp at hk
    rw [forked, IdMap.get?_insert, IdMap.get?_map, if_neg hnew]
  · intro k hk m
    simp only [Set.mem_insert_iff, Set.mem_singleton_iff, not_or] at hk
    simp only [forkedNode, hk.2, if_false]
    split_ifs <;> rfl
  · intro k hk m
    simp only [Set.mem_insert_iff, Set.mem_singleton_iff, Set.mem_union, Set.mem_ofPred_eq,
      not_or] at hk
    simp only [forkedNode, hk.1.2, hk.2, if_false]
    split_ifs <;> rfl

theorem Pushed.framed {top bottom : NodeId} {t b : Node} (h : p.Pushed top bottom t b q)
    (hs : p.Sound) : Framed ({k | p.nextId ≤ k} ∪ {top, bottom} ∪ {c | c ∈ b.children})
      ({k | p.nextId ≤ k} ∪ {top, bottom} ∪ {u | u ∈ t.inputs.ids}) p q := by
  refine (h.touched hs).framed_of_map (f := pushedNode top bottom p.nextId t b) ?_ ?_ ?_ ?_
  · exact Set.union_subset_union_left _ (Set.union_subset_union_right _ (by simp))
  · intro k hk
    have hold : ¬ p.nextId ≤ k ∧ k ≠ bottom := by
      simp only [Set.mem_union, Set.mem_insert_iff, Set.mem_singleton_iff, Set.mem_ofPred_eq,
        not_or] at hk
      tauto
    rw [pushed, IdMap.get?_tabulate, if_pos (Nat.lt_add_right _ (Nat.not_le.mp hold.1)),
      if_neg hold.1, if_neg hold.2]
  · intro k hk n
    simp only [Set.mem_union, Set.mem_insert_iff, Set.mem_singleton_iff, Set.mem_ofPred_eq,
      not_or] at hk
    simp only [pushedNode, hk.1.2.1, hk.2, if_false]
    split_ifs <;> rfl
  · intro k hk n
    simp only [Set.mem_union, Set.mem_insert_iff, Set.mem_singleton_iff, Set.mem_ofPred_eq,
      not_or] at hk
    rw [pushedNode_children, if_neg hk.1.2.1, if_neg hk.2]

end Plan

end JointPlan
