import Mathlib.Logic.Equiv.Basic
import JointPlan.Proofs.Naming

/-!
# Plans under other numbers

A permutation of numbers carries a plan over to one that differs in nothing else. What is looked up in a plan is
carried over as well, with one exception: where nodes of the same name are put in order, their
numbers decide. `Plan.Renumbers` is what a permutation has to satisfy for this to make no difference: it
permutes the numbers that a plan starts with, and these belong to relations with different names.
-/

namespace JointPlan

-- ---------------------------------------------------------------------------
-- Sets and maps
-- ---------------------------------------------------------------------------

namespace IdSet

variable {σ : Equiv.Perm Nat} {s t : IdSet} {a : Nat} {l : List Nat}

/-- The images of the members. -/
def permute (σ : Equiv.Perm Nat) (s : IdSet) : IdSet := ofList (s.toList.map σ)

@[simp] theorem mem_permute : σ a ∈ s.permute σ ↔ a ∈ s := by simp [permute]

theorem ext_permute (h : ∀ a, σ a ∈ s ↔ σ a ∈ t) : s = t := by
  ext a
  obtain ⟨b, rfl⟩ := σ.surjective a
  exact h b

@[simp] theorem permute_empty : (∅ : IdSet).permute σ = ∅ := rfl

@[simp] theorem permute_singleton : (singleton a).permute σ = singleton (σ a) := ext_permute (σ := σ) fun b => by simp

@[simp] theorem permute_insert : (s.insert a).permute σ = (s.permute σ).insert (σ a) :=
  ext_permute (σ := σ) fun b => by simp

@[simp] theorem permute_erase : (s.erase a).permute σ = (s.permute σ).erase (σ a) :=
  ext_permute (σ := σ) fun b => by simp

@[simp] theorem permute_union : (s ∪ t).permute σ = s.permute σ ∪ t.permute σ :=
  ext_permute (σ := σ) fun b => by simp

@[simp] theorem permute_ofList : (ofList l).permute σ = ofList (l.map σ) := ext_permute (σ := σ) fun b => by simp

theorem toList_permute_perm : (s.permute σ).toList.Perm (s.toList.map σ) := by
  refine (List.perm_ext_iff_of_nodup (nodup_toList _) ((nodup_toList s).map σ.injective)).mpr fun a => ?_
  obtain ⟨b, rfl⟩ := σ.surjective a
  simp

@[simp] theorem size_permute : (s.permute σ).size = s.size := by
  rw [size, toList_permute_perm.length_eq, List.length_map, size]

@[simp] theorem isEmpty_permute : (s.permute σ).isEmpty = s.isEmpty := by
  rw [isEmpty, isEmpty, toList_permute_perm.isEmpty_eq, List.isEmpty_map]

/-- There is one way to list one member. -/
theorem toList_permute (h : s.size ≤ 1) : (s.permute σ).toList = s.toList.map σ := by
  have hperm := toList_permute_perm (s := s) (σ := σ)
  have hlength : (s.toList.map σ).length ≤ 1 := by simpa [size] using h
  rcases hl : s.toList.map σ with _ | ⟨a, _ | ⟨b, l⟩⟩
  · exact List.perm_nil.mp (hl ▸ hperm)
  · exact List.perm_singleton.mp (hl ▸ hperm)
  · simp [hl] at hlength

end IdSet

namespace IdMap

variable {α : Type} {σ : Equiv.Perm Nat} {f : α → α} {m n : IdMap α} {k : Nat} {v : α}

/-- The images of the entries. -/
def permute (σ : Equiv.Perm Nat) (f : α → α) (m : IdMap α) : IdMap α :=
  m.entries.foldr (fun e acc => acc.insert (σ e.1) (f e.2)) ∅

@[simp] theorem get?_permute : (m.permute σ f).get? (σ k) = (m.get? k).map f := by
  change get? (m.entries.foldr (fun e acc => acc.insert (σ e.1) (f e.2)) ∅) (σ k) = (m.entries.lookup k).map f
  induction m.entries with
  | nil => rfl
  | cons e l ih =>
    rw [List.foldr_cons, get?_insert, ih, lookup_cons_ite]
    simp only [EmbeddingLike.apply_eq_iff_eq]
    split <;> rfl

theorem ext_permute (h : ∀ k, m.get? (σ k) = n.get? (σ k)) : m = n := by
  ext1 k
  obtain ⟨j, rfl⟩ := σ.surjective k
  exact h j

theorem permute_insert : (m.insert k v).permute σ f = (m.permute σ f).insert (σ k) (f v) := by
  refine ext_permute (σ := σ) fun j => ?_
  rw [get?_permute, get?_insert, get?_insert, get?_permute]
  simp only [EmbeddingLike.apply_eq_iff_eq]
  split <;> rfl

theorem permute_erase : (m.erase k).permute σ f = (m.permute σ f).erase (σ k) := by
  refine ext_permute (σ := σ) fun j => ?_
  rw [get?_permute, get?_erase, get?_erase, get?_permute]
  simp only [EmbeddingLike.apply_eq_iff_eq]
  split <;> rfl

theorem keys_permute_perm : (m.permute σ f).keys.Perm (m.keys.map σ) := by
  have hnodup (m : IdMap α) : m.keys.Nodup := m.ascending.imp Nat.ne_of_lt
  refine (List.perm_ext_iff_of_nodup (hnodup _) ((hnodup m).map σ.injective)).mpr fun a => ?_
  obtain ⟨b, rfl⟩ := σ.surjective a
  simp [mem_keys_iff]

@[simp] theorem size_permute : (m.permute σ f).size = m.size := by
  have hlength (m : IdMap α) : m.size = m.keys.length := (List.length_map _).symm
  rw [hlength, hlength, keys_permute_perm.length_eq, List.length_map]

end IdMap

-- ---------------------------------------------------------------------------
-- Plans
-- ---------------------------------------------------------------------------

def Node.permute (σ : Equiv.Perm NodeId) (n : Node) : Node where
  id := σ n.id
  op := n.op
  rel := n.rel
  inputs := n.inputs.map σ
  parents := n.parents.permute σ
  children := n.children.permute σ

namespace Node

variable {σ : Equiv.Perm NodeId} {n : Node}

@[simp] theorem permute_op : (n.permute σ).op = n.op := rfl

@[simp] theorem permute_rel : (n.permute σ).rel = n.rel := rfl

@[simp] theorem permute_isRoot : (n.permute σ).isRoot = n.isRoot := IdSet.isEmpty_permute

@[simp] theorem permute_isLeaf : (n.permute σ).isLeaf = n.isLeaf := IdSet.isEmpty_permute

end Node

namespace Plan

variable {σ : Equiv.Perm NodeId} {a p q : Plan} {k u v : NodeId} {n : Node} {b : Bool}

/-- The plan under other numbers. -/
def permute (σ : Equiv.Perm NodeId) (p : Plan) : Plan where
  nodes := p.nodes.permute σ (Node.permute σ)
  roots := p.roots.permute σ
  nextId := p.nextId

theorem get?_permute : (p.permute σ).nodes.get? (σ k) = (p.nodes.get? k).map (Node.permute σ) := IdMap.get?_permute

theorem get?_permute_of (hn : p.nodes.get? k = some n) : (p.permute σ).nodes.get? (σ k) = some (n.permute σ) := by
  rw [get?_permute, hn, Option.map_some]

theorem permute_set : (p.set k n).permute σ = (p.permute σ).set (σ k) (n.permute σ) :=
  congrArg (fun nodes => Plan.mk nodes (p.roots.permute σ) p.nextId) IdMap.permute_insert

theorem node_permute (h : p.node k = .ok n) : (p.permute σ).node (σ k) = .ok (n.permute σ) :=
  node_eq_ok.mpr (get?_permute_of (node_eq_ok.mp h))

theorem feeds_permute : (p.permute σ).Feeds (σ u) (σ v) ↔ p.Feeds u v := by
  simp only [Feeds, get?_permute, Option.map_eq_some_iff]
  constructor
  · rintro ⟨_, ⟨n, hn, rfl⟩, hu⟩
    exact ⟨n, hn, by simpa [Node.permute] using hu⟩
  · rintro ⟨n, hn, hu⟩
    exact ⟨_, ⟨n, hn, rfl⟩, by simpa [Node.permute] using hu⟩

theorem edge_permute : (p.permute σ).Edge (σ u) (σ v) ↔ p.Edge u v := by
  simp only [Edge, get?_permute, Option.map_eq_some_iff]
  constructor
  · rintro ⟨_, ⟨n, hn, rfl⟩, hv⟩
    exact ⟨n, hn, IdSet.mem_permute.mp hv⟩
  · rintro ⟨n, hn, hv⟩
    exact ⟨_, ⟨n, hn, rfl⟩, IdSet.mem_permute.mpr hv⟩

theorem reaches_permute : (p.permute σ).Reaches (σ u) (σ v) ↔ p.Reaches u v := by
  constructor
  · intro h
    have hback : ∀ x y, (p.permute σ).Edge x y → p.Edge (σ.symm x) (σ.symm y) := fun x y hxy => by
      rwa [← edge_permute (σ := σ), σ.apply_symm_apply, σ.apply_symm_apply]
    simpa only [Function.onFun, σ.symm_apply_apply] using h.lift σ.symm hback
  · exact fun h => h.lift σ fun _ _ => edge_permute.mpr

theorem contains_permute : (p.permute σ).contains (σ k) = p.contains k := by
  rw [contains, contains, IdMap.contains, IdMap.contains, get?_permute, Option.isSome_map]

theorem mem_reachable_permute (hk : p.contains k = true) : σ k ∈ (p.permute σ).reachable ↔ k ∈ p.reachable := by
  rw [reachable, reachable, mem_reachableFrom hk, mem_reachableFrom (contains_permute.trans hk)]
  constructor
  · rintro ⟨r, hr, hreaches⟩
    obtain ⟨u, rfl⟩ := σ.surjective r
    exact ⟨u, IdSet.mem_permute.mp hr, reaches_permute.mp hreaches⟩
  · rintro ⟨r, hr, hreaches⟩
    exact ⟨σ r, IdSet.mem_permute.mpr hr, reaches_permute.mpr hreaches⟩

theorem exists_of_get?_permute (hn : (p.permute σ).nodes.get? k = some n) :
    ∃ j m, k = σ j ∧ p.nodes.get? j = some m ∧ n = m.permute σ := by
  obtain ⟨j, rfl⟩ := σ.surjective k
  rw [get?_permute, Option.map_eq_some_iff] at hn
  obtain ⟨m, hm, rfl⟩ := hn
  exact ⟨j, m, rfl, hm, rfl⟩

/-- Under other numbers, and with more of them given out, nodes still fit together. -/
theorem Coherent.permute {next : NodeId} (hp : p.Coherent) (hbelow : ∀ k < p.nextId, σ k < next) (hlt : next < Word.limit) :
    Coherent { p.permute σ with nextId := next } where
  keyed hn := by
    obtain ⟨j, m, rfl, hm, rfl⟩ := exists_of_get?_permute hn
    exact congrArg σ (hp.keyed hm)
  below hn := by
    obtain ⟨j, m, rfl, hm, rfl⟩ := exists_of_get?_permute hn
    exact hbelow j (hp.below hm)
  bounded := hlt
  closed {u v} huv := by
    obtain ⟨u, rfl⟩ := σ.surjective u
    obtain ⟨v, rfl⟩ := σ.surjective v
    obtain ⟨m, hm⟩ := hp.closed (feeds_permute.mp huv)
    exact ⟨_, get?_permute_of hm⟩
  parents {k n u} hn := by
    obtain ⟨j, m, rfl, hm, rfl⟩ := exists_of_get?_permute hn
    obtain ⟨u, rfl⟩ := σ.surjective u
    simpa [Node.permute] using hp.parents hm
  children {k n v} hn := by
    obtain ⟨j, m, rfl, hm, rfl⟩ := exists_of_get?_permute hn
    obtain ⟨v, rfl⟩ := σ.surjective v
    exact IdSet.mem_permute.trans ((hp.children hm).trans feeds_permute.symm)
  ranked := by
    obtain ⟨rank, hrank⟩ := hp.ranked
    refine ⟨fun k => rank (σ.symm k), fun {u v} huv => ?_⟩
    obtain ⟨u, rfl⟩ := σ.surjective u
    obtain ⟨v, rfl⟩ := σ.surjective v
    simpa using hrank (feeds_permute.mp huv)
  fits hn := by
    obtain ⟨j, m, rfl, hm, rfl⟩ := exists_of_get?_permute hn
    exact Inputs.fits_map.trans (hp.fits hm)
  fed hn hop := by
    obtain ⟨j, m, rfl, hm, rfl⟩ := exists_of_get?_permute hn
    simpa [Node.permute] using hp.fed hm hop
  roots {k} := by
    obtain ⟨k, rfl⟩ := σ.surjective k
    refine IdSet.mem_permute.trans (hp.roots.trans ⟨?_, ?_⟩)
    · rintro ⟨n, hn, hop⟩
      exact ⟨_, get?_permute_of hn, hop⟩
    · rintro ⟨n, hn, hop⟩
      obtain ⟨j, m, hj, hm, rfl⟩ := exists_of_get?_permute hn
      cases σ.injective hj
      exact ⟨m, hm, hop⟩

theorem Numbered.permute (hp : p.Numbered) : (p.permute σ).Numbered := by
  intro k n hn
  obtain ⟨j, m, rfl, hm, rfl⟩ := exists_of_get?_permute hn
  exact hp j m hm

-- ---------------------------------------------------------------------------
-- What nodes yield, and where they need MPC
-- ---------------------------------------------------------------------------

theorem inputRelations_permute {ins : List Relation} (h : p.inputRelations k = .ok ins) :
    (p.permute σ).inputRelations (σ k) = .ok ins := by
  simp only [inputRelations, bind_eq_ok] at h ⊢
  obtain ⟨n, hn, hins⟩ := h
  refine ⟨n.permute σ, node_permute hn, ?_⟩
  rw [mapM_eq_ok] at hins ⊢
  rw [Node.permute, Inputs.ids_map, List.forall₂_map_left_iff]
  refine hins.imp fun input rel hrel => ?_
  obtain ⟨m, hm, rfl⟩ := map_eq_ok.mp hrel
  exact map_eq_ok.mpr ⟨_, node_permute hm, rfl⟩

theorem isRoot_permute (h : p.isRoot k = .ok b) : (p.permute σ).isRoot (σ k) = .ok b := by
  obtain ⟨n, hn, rfl⟩ := map_eq_ok.mp h
  exact map_eq_ok.mpr ⟨_, node_permute hn, Node.permute_isRoot⟩

theorem isLeaf_permute (h : p.isLeaf k = .ok b) : (p.permute σ).isLeaf (σ k) = .ok b := by
  obtain ⟨n, hn, rfl⟩ := map_eq_ok.mp h
  exact map_eq_ok.mpr ⟨_, node_permute hn, Node.permute_isLeaf⟩

theorem isReversible_permute (h : p.isReversible k = .ok b) : (p.permute σ).isReversible (σ k) = .ok b := by
  simp only [isReversible, bind_eq_ok, pure_eq_ok] at h ⊢
  obtain ⟨n, hn, ins, hins, rfl⟩ := h
  exact ⟨_, node_permute hn, ins, inputRelations_permute hins, rfl⟩

theorem requiresMpcGiven_permute {above above' : NodeId → Except Fault Bool}
    (habove : ∀ k b, above k = .ok b → above' (σ k) = .ok b) (h : p.requiresMpcGiven above k = .ok b) :
    (p.permute σ).requiresMpcGiven above' (σ k) = .ok b := by
  simp only [requiresMpcGiven, bind_eq_ok] at h ⊢
  obtain ⟨n, hn, h⟩ := h
  refine ⟨n.permute σ, node_permute hn, ?_⟩
  rw [Node.permute_op]
  cases hop : n.op <;> simp only [hop] at h ⊢
  case create | opening | closing | read | collect => exact h
  case store =>
    cases hin : n.inputs <;> simp only [hin, Node.permute, Inputs.map] at h ⊢
    case unary parent => exact habove parent b h
    all_goals exact h
  all_goals
    obtain ⟨ins, hins, h⟩ := bind_eq_ok.mp h
    exact bind_eq_ok.mpr ⟨ins, inputRelations_permute hins, h⟩

theorem requiresMpc_permute (h : p.requiresMpc k = .ok b) : (p.permute σ).requiresMpc (σ k) = .ok b := by
  have hwithin (depth : Nat) : ∀ k b, p.requiresMpcWithin depth k = .ok b →
      (p.permute σ).requiresMpcWithin depth (σ k) = .ok b := by
    induction depth with
    | zero => exact fun k b => requiresMpcGiven_permute fun _ _ h => h
    | succ depth ih => exact fun k b => requiresMpcGiven_permute ih
  have hsize : (p.permute σ).size = p.size := IdMap.size_permute
  rw [requiresMpc, hsize]
  exact hwithin p.size k b h

theorem noneRequiresMpc_of_forall {l : List NodeId} (h : ∀ k ∈ l, ∃ b, p.requiresMpc k = .ok b) :
    p.noneRequiresMpc l = .ok (l.all fun k => p.requiresMpc k = .ok false) := by
  induction l with
  | nil => rfl
  | cons k l ih =>
    obtain ⟨b, hb⟩ := h k List.mem_cons_self
    have hl := ih fun j hj => h j (List.mem_cons_of_mem _ hj)
    rw [noneRequiresMpc, hb]
    cases b
    · simpa [bind, Except.bind, hb] using hl
    · simp [bind, Except.bind, pure, Except.pure, hb]

/-- The order of the questions makes no difference if all of them are answered. -/
theorem noneRequiresMpc_permute {s : NodeSet} (h : ∀ k ∈ s, ∃ b, p.requiresMpc k = .ok b)
    (hnone : p.noneRequiresMpc s.toList = .ok b) : (p.permute σ).noneRequiresMpc (s.permute σ).toList = .ok b := by
  have h' : ∀ k ∈ (s.permute σ).toList, ∃ b, (p.permute σ).requiresMpc k = .ok b := by
    intro k hk
    obtain ⟨j, rfl⟩ := σ.surjective k
    obtain ⟨b, hb⟩ := h j (IdSet.mem_permute.mp hk)
    exact ⟨b, requiresMpc_permute hb⟩
  rw [noneRequiresMpc_of_forall h] at hnone
  rw [noneRequiresMpc_of_forall h', ← hnone]
  congr 1
  rw [Bool.eq_iff_iff, List.all_eq_true, List.all_eq_true]
  constructor
  · intro hall k hk
    obtain ⟨b, hb⟩ := h k hk
    have := hall (σ k) (IdSet.mem_permute.mpr hk)
    rw [requiresMpc_permute hb] at this
    simpa [hb] using this
  · intro hall k hk
    obtain ⟨j, rfl⟩ := σ.surjective k
    have hj := hall j (IdSet.mem_permute.mp hk)
    simpa using requiresMpc_permute (of_decide_eq_true hj)

section Boundary

variable (hp : p.Coherent) (hn : p.nodes.get? k = some n)

include hp hn

theorem Coherent.isUpperBoundary_permute (h : p.isUpperBoundary k = .ok b) : (p.permute σ).isUpperBoundary (σ k) = .ok b := by
  simp only [isUpperBoundary, bind_eq_ok] at h ⊢
  obtain ⟨mpc, hmpc, h⟩ := h
  refine ⟨mpc, requiresMpc_permute hmpc, ?_⟩
  cases mpc with
  | false => exact h
  | true =>
    obtain ⟨n', hn', h⟩ := bind_eq_ok.mp h
    cases hn.symm.trans (node_eq_ok.mp hn')
    refine bind_eq_ok.mpr ⟨_, node_permute hn', noneRequiresMpc_permute (fun u hu => ?_) h⟩
    obtain ⟨m, hm⟩ := hp.closed (hp.feeds_of_mem_parents hn hu)
    exact hp.toLinked.exists_requiresMpc hm

theorem Coherent.isLowerBoundary_permute (h : p.isLowerBoundary k = .ok b) : (p.permute σ).isLowerBoundary (σ k) = .ok b := by
  simp only [isLowerBoundary, bind_eq_ok] at h ⊢
  obtain ⟨mpc, hmpc, h⟩ := h
  refine ⟨mpc, requiresMpc_permute hmpc, ?_⟩
  cases mpc with
  | false => exact h
  | true =>
    obtain ⟨n', hn', h⟩ := bind_eq_ok.mp h
    cases hn.symm.trans (node_eq_ok.mp hn')
    refine bind_eq_ok.mpr ⟨_, node_permute hn', noneRequiresMpc_permute (fun c hc => ?_) h⟩
    obtain ⟨m, hm⟩ := hp.toLinked.exists_child hn c hc
    exact hp.toLinked.exists_requiresMpc hm

end Boundary

-- ---------------------------------------------------------------------------
-- Order by name
-- ---------------------------------------------------------------------------

section Order

variable {x y z : String × NodeId} {l l' : List (String × NodeId)}

/-- What is put in order is the members of a list, and numbers count where names coincide. -/
theorem sortByName_permute (hperm : l'.Perm (l.map (Prod.map id σ)))
    (hmono : ∀ x ∈ l, ∀ y ∈ l, x.1 = y.1 → x.2 ≤ y.2 → σ x.2 ≤ σ y.2) :
    sortByName l' = (sortByName l).map (Prod.map id σ) := by
  have hmem {x : String × NodeId} (hx : x ∈ sortByName l) : x ∈ l := (sortByName_perm l).mem_iff.mp hx
  have hsorted : ((sortByName l).map (Prod.map id σ)).Pairwise fun x y => precedes x y = true := by
    refine List.pairwise_map.mpr (pairwise_sortByName.imp_of_mem fun {x y} hx hy hxy => ?_)
    rw [precedes_iff] at hxy ⊢
    exact hxy.imp_right fun ⟨heq, hle⟩ => ⟨heq, hmono x (hmem hx) y (hmem hy) heq hle⟩
  refine List.Perm.eq_of_pairwise (fun _ _ _ _ => precedes_antisymm) pairwise_sortByName hsorted ?_
  exact (sortByName_perm l').trans (hperm.trans ((sortByName_perm l).map _).symm)

end Order

-- ---------------------------------------------------------------------------
-- Numbers that a plan starts with
-- ---------------------------------------------------------------------------

/-- The permutation moves numbers that `a` has given out, to relations of different names. -/
structure Renumbers (a : Plan) (σ : Equiv.Perm NodeId) : Prop where
  below : ∀ {k}, σ k < a.nextId ↔ k < a.nextId
  fixed : ∀ {k}, a.nextId ≤ k → σ k = k
  distinct : a.Distinct

/-- The plan has come from `a`: there are new nodes, and the old ones that are left have the names that they had. -/
structure Descends (a p : Plan) : Prop where
  keyed : ∀ {k n}, p.nodes.get? k = some n → n.id = k
  below : ∀ {k n}, p.nodes.get? k = some n → k < p.nextId
  bounded : p.nextId < Word.limit
  next : a.nextId ≤ p.nextId
  named : ∀ {k n}, p.nodes.get? k = some n → k < a.nextId → a.nameAt k = some n.rel.name

theorem Coherent.descends (ha : a.Coherent) : Descends a a where
  keyed := ha.keyed
  below := ha.below
  bounded := ha.bounded
  next := le_rfl
  named hn _ := nameAt_of_get? hn

theorem Descends.keyed_permute (h : Descends a p) {k : NodeId} {n : Node} (hn : (p.permute σ).nodes.get? k = some n) :
    n.id = k := by
  obtain ⟨j, m, rfl, hm, rfl⟩ := exists_of_get?_permute hn
  exact congrArg σ (h.keyed hm)

theorem mapM_node_eq_ok {α : Type} {g : Node → α} {l : List NodeId} {out : List α} :
    l.mapM (fun k => g <$> p.node k) = .ok out ↔
      (∀ k ∈ l, p.contains k = true) ∧ out = l.filterMap fun k => (p.nodes.get? k).map g := by
  induction l generalizing out with
  | nil => simp [pure_eq_ok]
  | cons k l ih =>
    simp only [List.mapM_cons, bind_eq_ok, pure_eq_ok, ih, List.forall_mem_cons, List.filterMap_cons, map_eq_ok, node_eq_ok]
    cases hn : p.nodes.get? k with
    | none => simp [contains, IdMap.contains, hn]
    | some n =>
      simp only [Option.some.injEq, exists_eq_left', contains, IdMap.contains, hn, Option.isSome_some, true_and, Option.map_some]
      constructor
      · rintro ⟨_, ⟨hl, rfl⟩, rfl⟩
        exact ⟨hl, rfl⟩
      · rintro ⟨hl, rfl⟩
        exact ⟨_, ⟨hl, rfl⟩, rfl⟩

/-- The children of a node are all there, and they are put in order by name. -/
theorem sortedChildren_eq_ok {cs : List NodeId} (keyed : ∀ {k n}, p.nodes.get? k = some n → n.id = k)
    (hn : p.nodes.get? k = some n) : p.sortedChildren k = .ok cs ↔
      (∀ c ∈ n.children, p.contains c = true) ∧ cs = p.sorted n.children.toList := by
  have hnames : (fun c => (p.nodes.get? c).map fun n : Node => (n.rel.name, n.id)) =
      fun c => (p.nodes.get? c).map fun n => (n.rel.name, c) := by
    funext c
    cases hc : p.nodes.get? c with
    | none => rfl
    | some m => simp [keyed hc]
  simp only [sortedChildren, bind_eq_ok, pure_eq_ok, node_eq_ok, hn, Option.some.injEq, exists_eq_left', mapM_node_eq_ok,
    hnames, IdSet.mem_toList, sorted]
  constructor
  · rintro ⟨_, ⟨hpresent, rfl⟩, rfl⟩
    exact ⟨hpresent, rfl⟩
  · rintro ⟨hpresent, rfl⟩
    exact ⟨_, ⟨hpresent, rfl⟩, rfl⟩

variable (hσ : a.Renumbers σ) (h : Descends a p)

include hσ h

/-- Nodes of the same name come in the same order. -/
theorem Renumbers.le_of_le {m : Node} (hn : p.nodes.get? k = some n) (hm : p.nodes.get? v = some m)
    (hname : n.rel.name = m.rel.name) (hle : k ≤ v) : σ k ≤ σ v := by
  by_cases hv : v < a.nextId
  · have hk := hle.trans_lt hv
    rw [hσ.distinct k v _ (h.named hn hk) (hname ▸ h.named hm hv)]
  · rw [hσ.fixed (Nat.not_lt.mp hv)]
    by_cases hk : k < a.nextId
    · exact ((hσ.below.mpr hk).trans_le (Nat.not_lt.mp hv)).le
    · rwa [hσ.fixed (Nat.not_lt.mp hk)]

theorem Renumbers.sorted_permute {ids ids' : List NodeId} (hids : ids.Nodup) (hids' : ids'.Nodup)
    (hmem : ∀ k, p.contains k = true → (σ k ∈ ids' ↔ k ∈ ids)) : (p.permute σ).sorted ids' = (p.sorted ids).map σ := by
  have hnodup {q : Plan} {ids : List NodeId} (hids : ids.Nodup) :
      (ids.filterMap fun id => (q.nodes.get? id).map fun n => (n.rel.name, id)).Nodup := by
    refine hids.filterMap fun k j x hk hj => ?_
    simp only [Option.mem_def, Option.map_eq_some_iff] at hk hj
    obtain ⟨_, _, rfl⟩ := hk
    obtain ⟨_, _, heq⟩ := hj
    exact (congrArg Prod.snd heq).symm
  have hinj : Function.Injective (Prod.map (id : String → String) σ) := Function.injective_id.prodMap σ.injective
  rw [sorted, sorted, sortByName_permute (σ := σ), List.map_map, List.map_map]
  · rfl
  · refine (List.perm_ext_iff_of_nodup (hnodup hids') ((hnodup hids).map hinj)).mpr ?_
    rintro ⟨s, k⟩
    obtain ⟨j, rfl⟩ := σ.surjective k
    simp only [List.mem_filterMap, List.mem_map, Option.map_eq_some_iff, Prod.map, Prod.mk.injEq]
    constructor
    · rintro ⟨_, hk, n', hn', rfl, rfl⟩
      rw [get?_permute, Option.map_eq_some_iff] at hn'
      obtain ⟨n, hn, rfl⟩ := hn'
      exact ⟨(n.rel.name, j), ⟨j, (hmem j (contains_of_get? hn)).mp hk, n, hn, rfl⟩, rfl, rfl⟩
    · rintro ⟨_, ⟨k, hk, n, hn, rfl⟩, rfl, hkj⟩
      obtain rfl := σ.injective hkj
      exact ⟨_, (hmem k (contains_of_get? hn)).mpr hk, _, get?_permute_of hn, rfl, rfl⟩
  · simp only [List.mem_filterMap, Option.map_eq_some_iff]
    rintro _ ⟨k, -, n, hn, rfl⟩ _ ⟨v, -, m, hm, rfl⟩ hname hle
    exact hσ.le_of_le h hn hm hname hle

theorem Renumbers.sortedChildren_permute {cs : List NodeId} (hcs : p.sortedChildren k = .ok cs) :
    (p.permute σ).sortedChildren (σ k) = .ok (cs.map σ) := by
  obtain ⟨n, hn, -⟩ := bind_eq_ok.mp hcs
  have hn := node_eq_ok.mp hn
  obtain ⟨hpresent, rfl⟩ := (sortedChildren_eq_ok h.keyed hn).mp hcs
  refine (sortedChildren_eq_ok (h.keyed_permute) (get?_permute_of hn)).mpr ⟨fun c hc => ?_, ?_⟩
  · obtain ⟨d, rfl⟩ := σ.surjective c
    rw [contains_permute]
    exact hpresent d (IdSet.mem_permute.mp hc)
  · exact (hσ.sorted_permute h (IdSet.nodup_toList _) (IdSet.nodup_toList _) fun c _ => IdSet.mem_permute).symm

/-- What can be reached is put in order, so it does not matter how it has been found. -/
theorem Renumbers.topSortInto_permute {path : NodeSet} {ids done out : List NodeId} (hout : p.topSortInto path ids done = .ok out) :
    (p.permute σ).topSortInto (path.permute σ) (ids.map σ) (done.map σ) = .ok (out.map σ) := by
  fun_induction topSortInto p path ids done generalizing out with
  | case1 path done =>
    cases hout
    rw [List.map_nil, topSortInto]
  | case2 path done id rest hdone ih =>
    rw [List.map_cons, topSortInto, if_pos (List.mem_map_of_mem hdone)]
    exact ih hout
  | case3 path done id rest hdone hn ih =>
    rw [List.map_cons, topSortInto, if_neg (by simpa using hdone)]
    split
    · exact ih hout
    · rename_i n' hn'
      simp [get?_permute, hn] at hn'
  | case4 => cases hout
  | case5 => cases hout
  | case6 path done id rest hdone n hn hpath done' hdone' ih₁ ih₂ =>
    rw [List.map_cons, topSortInto, if_neg (by simpa using hdone)]
    split
    · rename_i hnone
      simp [get?_permute, hn] at hnone
    · rename_i n' hn'
      cases hn'.symm.trans (get?_permute_of hn)
      have hchildren := hσ.sorted_permute h (IdSet.nodup_toList n.children) (IdSet.nodup_toList (n.children.permute σ))
        fun c _ => IdSet.mem_permute
      have hfirst := ih₁ hdone'
      rw [← hchildren, IdSet.permute_insert] at hfirst
      rw [dif_neg (by simpa using hpath)]
      simp only [Node.permute] at hfirst ⊢
      rw [hfirst]
      exact ih₂ hout

theorem Renumbers.topSort_permute {order : List NodeId} (horder : p.topSort = .ok order) :
    (p.permute σ).topSort = .ok (order.map σ) := by
  have hsorted : (p.permute σ).sorted (p.permute σ).reachable.toList = (p.sorted p.reachable.toList).map σ :=
    hσ.sorted_permute h (IdSet.nodup_toList _) (IdSet.nodup_toList _) fun _ => mem_reachable_permute
  change (p.permute σ).topSortInto ∅ ((p.permute σ).sorted (p.permute σ).reachable.toList).reverse [] = _
  rw [hsorted, ← List.map_reverse]
  exact hσ.topSortInto_permute h horder

theorem Renumbers.topNodes_permute {ns : List Node} (hns : p.topNodes = .ok ns) :
    (p.permute σ).topNodes = .ok (ns.map (Node.permute σ)) := by
  obtain ⟨order, horder, hns⟩ := bind_eq_ok.mp hns
  refine bind_eq_ok.mpr ⟨_, hσ.topSort_permute h horder, ?_⟩
  rw [mapM_eq_ok] at hns ⊢
  rw [List.forall₂_map_left_iff, List.forall₂_map_right_iff]
  exact hns.imp fun _ _ => node_permute

theorem Renumbers.relationNames_permute {names : List String} (hnames : p.relationNames = .ok names) :
    (p.permute σ).relationNames = .ok names := by
  obtain ⟨ns, hns, rfl⟩ := map_eq_ok.mp hnames
  exact map_eq_ok.mpr ⟨_, hσ.topNodes_permute h hns, List.map_map⟩

theorem Renumbers.kinds_permute {kinds : List String} (hkinds : p.kinds = .ok kinds) : (p.permute σ).kinds = .ok kinds := by
  obtain ⟨ns, hns, rfl⟩ := map_eq_ok.mp hkinds
  exact map_eq_ok.mpr ⟨_, hσ.topNodes_permute h hns, List.map_map⟩

omit hσ in
theorem Descends.sinks_permute (hsinks : p.sinks = [n]) : (p.permute σ).sinks = [n.permute σ] := by
  have hmem (m : Node) : m ∈ (p.permute σ).sinks ↔ m = n.permute σ := by
    simp only [sinks, List.mem_filter, List.mem_filterMap]
    have hone (m : Node) : (∃ k ∈ p.reachable.toList, p.nodes.get? k = some m) ∧ m.isLeaf = true ↔ m = n := by
      rw [← List.mem_singleton (b := n), ← hsinks, sinks, List.mem_filter, List.mem_filterMap]
    constructor
    · rintro ⟨⟨k, hk, hm⟩, hleaf⟩
      obtain ⟨j, rfl⟩ := σ.surjective k
      obtain ⟨m, hj, rfl⟩ := Option.map_eq_some_iff.mp (get?_permute ▸ hm)
      have hreachable := (mem_reachable_permute (contains_of_get? hj)).mp hk
      rw [(hone m).mp ⟨⟨j, hreachable, hj⟩, Node.permute_isLeaf ▸ hleaf⟩]
    · rintro rfl
      obtain ⟨⟨k, hk, hn⟩, hleaf⟩ := (hone n).mpr rfl
      exact ⟨⟨σ k, (mem_reachable_permute (contains_of_get? hn)).mpr hk, get?_permute_of hn⟩,
        Node.permute_isLeaf.trans hleaf⟩
  have hnodup : (p.permute σ).sinks.Nodup := by
    refine ((IdSet.nodup_toList _).filterMap fun k j n hk hj => ?_).filter _
    exact (h.keyed_permute hk).symm.trans (h.keyed_permute hj)
  refine List.perm_singleton.mp ((List.perm_ext_iff_of_nodup hnodup (List.nodup_singleton _)).mpr fun m => ?_)
  rw [hmem, List.mem_singleton]

theorem Renumbers.validate_permute (hvalid : p.validate = .ok ()) : (p.permute σ).validate = .ok () := by
  obtain ⟨⟨order, horder⟩, sink, recipients, hsinks, hop⟩ := validate_eq_ok.mp hvalid
  exact validate_eq_ok.mpr ⟨⟨_, hσ.topSort_permute h horder⟩, _, recipients, h.sinks_permute hsinks, hop⟩

end Plan

end JointPlan
