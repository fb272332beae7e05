import JointPlan.Proofs.Coherence
import JointPlan.Plan.Validity

/-!
# Walks through a plan

What the traversals of a plan find. They go along the children of nodes, so the
edges here are those that `children` holds; in a coherent plan they are the edges
that the inputs describe.

`Plan.Ordered` is the property of a topological order: every node stands once, and
in front of all of its children.
-/

namespace JointPlan

namespace Plan

variable {p q : Plan} {u v k id : NodeId} {n : Node}

-- ---------------------------------------------------------------------------
-- Order by name
-- ---------------------------------------------------------------------------

theorem insertByName_perm (a : String × NodeId) (l : List (String × NodeId)) :
    (insertByName a l).Perm (a :: l) := by
  induction l with
  | nil => exact .refl _
  | cons b l ih =>
    rw [insertByName]
    cases precedes a b with
    | true => exact .refl _
    | false => exact (ih.cons b).trans (.swap a b l)

theorem sortByName_perm (l : List (String × NodeId)) : (sortByName l).Perm l := by
  induction l with
  | nil => exact .refl _
  | cons a l ih => exact (insertByName_perm a _).trans (ih.cons a)

section Order

variable {x y z : String × NodeId} {l : List (String × NodeId)}

theorem precedes_iff : precedes x y = true ↔ x.1 < y.1 ∨ (x.1 = y.1 ∧ x.2 ≤ y.2) := by simp [precedes]

theorem precedes_or : precedes x y = true ∨ precedes y x = true := by
  simp only [precedes_iff]
  by_cases hxy : x.1 < y.1
  · exact .inl (.inl hxy)
  by_cases hyx : y.1 < x.1
  · exact .inr (.inl hyx)
  have heq : x.1 = y.1 := String.le_antisymm hyx hxy
  exact (Nat.le_total x.2 y.2).imp (fun h => .inr ⟨heq, h⟩) fun h => .inr ⟨heq.symm, h⟩

theorem precedes_trans (hxy : precedes x y = true) (hyz : precedes y z = true) : precedes x z = true := by
  rw [precedes_iff] at *
  rcases hxy with hxy | ⟨hxy, hle⟩ <;> rcases hyz with hyz | ⟨hyz, hle'⟩
  · exact .inl (String.lt_trans hxy hyz)
  · exact .inl (hyz ▸ hxy)
  · exact .inl (hxy ▸ hyz)
  · exact .inr ⟨hxy.trans hyz, hle.trans hle'⟩

theorem precedes_antisymm (hxy : precedes x y = true) (hyx : precedes y x = true) : x = y := by
  rw [precedes_iff] at *
  rcases hxy with hxy | ⟨hxy, hle⟩ <;> rcases hyx with hyx | ⟨hyx, hle'⟩
  · exact absurd hyx (String.lt_asymm hxy)
  · exact absurd (hyx ▸ hxy) (String.lt_irrefl _)
  · exact absurd (hxy ▸ hyx) (String.lt_irrefl _)
  · exact Prod.ext hxy (Nat.le_antisymm hle hle')

theorem pairwise_insertByName (h : l.Pairwise fun x y => precedes x y = true) :
    (insertByName x l).Pairwise fun x y => precedes x y = true := by
  induction l with
  | nil => exact List.pairwise_singleton _ _
  | cons y l ih =>
    obtain ⟨hy, hl⟩ := List.pairwise_cons.mp h
    rw [insertByName]
    cases hxy : precedes x y with
    | true =>
      refine List.pairwise_cons.mpr ⟨fun z hz => ?_, h⟩
      rcases List.mem_cons.mp hz with rfl | hz
      · exact hxy
      · exact precedes_trans hxy (hy z hz)
    | false =>
      refine List.pairwise_cons.mpr ⟨fun z hz => ?_, ih hl⟩
      rcases List.mem_cons.mp ((insertByName_perm x l).mem_iff.mp hz) with rfl | hz
      · exact precedes_or.resolve_left (by simp [hxy])
      · exact hy z hz

theorem pairwise_sortByName : (sortByName l).Pairwise fun x y => precedes x y = true := by
  induction l with
  | nil => exact .nil
  | cons x l ih => exact pairwise_insertByName ih

end Order

theorem mem_sorted {ids : List NodeId} :
    k ∈ p.sorted ids ↔ k ∈ ids ∧ ∃ n, p.nodes.get? k = some n := by
  rw [sorted, List.mem_map]
  simp only [(sortByName_perm _).mem_iff, List.mem_filterMap, Option.map_eq_some_iff]
  constructor
  · rintro ⟨_, ⟨k, hk, n, hn, rfl⟩, rfl⟩
    exact ⟨hk, n, hn⟩
  · rintro ⟨hk, n, hn⟩
    exact ⟨(n.rel.name, k), ⟨k, hk, n, hn, rfl⟩, rfl⟩

/-- What is found for some nodes leads back to them. -/
theorem map_eq_of_forall₂ {α : Type} {R : NodeId → α → Prop} {back : α → NodeId} {ids : List NodeId}
    {found : List α} (h : List.Forall₂ R ids found) (hback : ∀ id ∈ ids, ∀ a, R id a → back a = id) :
    found.map back = ids := by
  induction h with
  | nil => rfl
  | cons ha _ ih =>
    rw [List.map_cons, hback _ List.mem_cons_self _ ha,
      ih fun id hid => hback id (List.mem_cons_of_mem _ hid)]

theorem sortedByName_perm {ids cs : List NodeId} (h : p.sortedByName ids = .ok cs) : cs.Perm ids := by
  simp only [sortedByName, bind_eq_ok, mapM_eq_ok, pure_eq_ok] at h
  obtain ⟨named, hnamed, rfl⟩ := h
  have hids : named.map Prod.snd = ids := map_eq_of_forall₂ hnamed fun id _ e he => by
    obtain ⟨n, -, rfl⟩ := map_eq_ok.mp he
    rfl
  exact hids ▸ (sortByName_perm named).map Prod.snd

theorem sortedChildren_perm {cs : List NodeId} (hp : p.Linked) (hn : p.nodes.get? id = some n)
    (h : p.sortedChildren id = .ok cs) : cs.Perm n.children.toList := by
  simp only [sortedChildren, bind_eq_ok, mapM_eq_ok, pure_eq_ok, node_eq_ok] at h
  obtain ⟨m, hm, named, hnamed, rfl⟩ := h
  cases hn.symm.trans hm
  have hids : named.map Prod.snd = n.children.toList := map_eq_of_forall₂ hnamed fun id _ e he => by
    obtain ⟨c, hc, rfl⟩ := map_eq_ok.mp he
    exact hp.keyed (node_eq_ok.mp hc)
  exact hids ▸ (sortByName_perm named).map Prod.snd

-- ---------------------------------------------------------------------------
-- Reachability
-- ---------------------------------------------------------------------------

theorem contains_of_get? (hn : p.nodes.get? k = some n) : p.contains k = true := by
  simp [Plan.contains, IdMap.contains, hn]

/-- `v` is among the children of `u`. -/
def Edge (p : Plan) (u v : NodeId) : Prop := ∃ n, p.nodes.get? u = some n ∧ v ∈ n.children

theorem Edge.contains (h : p.Edge u v) : p.contains u = true :=
  have ⟨_, hn, _⟩ := h
  contains_of_get? hn

theorem Linked.edge_iff (hp : p.Linked) : p.Edge u v ↔ p.Feeds u v := by
  constructor
  · rintro ⟨n, hn, hv⟩
    exact (hp.children hn).mp hv
  · intro h
    obtain ⟨n, hn⟩ := hp.closed h
    exact ⟨n, hn, (hp.children hn).mpr h⟩

theorem Linked.acyclic (hp : p.Linked) (k : NodeId) : ¬ Relation.TransGen p.Edge k k := by
  obtain ⟨rank, hrank⟩ := hp.ranked
  have hup {u v : NodeId} (h : Relation.TransGen p.Edge u v) : rank u < rank v := by
    induction h with
    | single h => exact hrank (hp.edge_iff.mp h)
    | tail _ h ih => exact ih.trans (hrank (hp.edge_iff.mp h))
  exact fun h => Nat.lt_irrefl _ (hup h)

/-- Without cycles, the number of nodes from which a node can be reached is a rank. -/
theorem exists_rank (h : ∀ k, ¬ Relation.TransGen p.Edge k k) :
    ∃ rank : NodeId → Nat, ∀ u v, p.Edge u v → rank u < rank v := by
  classical
  refine ⟨fun k => (p.nodes.keys.toFinset.filter fun j => Relation.TransGen p.Edge j k).card, ?_⟩
  intro u v huv
  have ⟨n, hn, _⟩ := huv
  refine Finset.card_lt_card (Finset.ssubset_iff_of_subset ?_ |>.mpr ⟨u, ?_, ?_⟩)
  · exact Finset.monotone_filter_right _ fun j _ hj => hj.tail huv
  · simp [IdMap.mem_keys_of_get? hn, Relation.TransGen.single huv]
  · simp [h u]

/-- `v` can be reached from `u`. -/
abbrev Reaches (p : Plan) : NodeId → NodeId → Prop := Relation.ReflTransGen p.Edge

theorem reaches_of_mem_reach {ids : List NodeId} {seen : NodeSet} (h : k ∈ p.reach ids seen) :
    k ∈ seen ∨ ∃ r ∈ ids, p.Reaches r k := by
  fun_induction reach p ids seen with
  | case1 seen => exact .inl h
  | case2 seen id rest hs ih =>
    rcases ih h with h | ⟨r, hr, h⟩
    · exact .inl h
    · exact .inr ⟨r, List.mem_cons_of_mem _ hr, h⟩
  | case3 seen id rest hs hn ih =>
    rcases IdSet.mem_insert.mp h with rfl | h
    · exact .inr ⟨k, List.mem_cons_self, .refl⟩
    · rcases ih h with h | ⟨r, hr, h⟩
      · exact .inl h
      · exact .inr ⟨r, List.mem_cons_of_mem _ hr, h⟩
  | case4 seen id rest hs n hn ih =>
    rcases ih h with h | ⟨r, hr, h⟩
    · rcases IdSet.mem_insert.mp h with rfl | h
      · exact .inr ⟨k, List.mem_cons_self, .refl⟩
      · exact .inl h
    · rcases List.mem_append.mp hr with hr | hr
      · exact .inr ⟨id, List.mem_cons_self, .head ⟨n, hn, hr⟩ h⟩
      · exact .inr ⟨r, List.mem_cons_of_mem _ hr, h⟩

theorem mem_reach_of_mem {ids : List NodeId} {seen : NodeSet} (h : k ∈ seen ∨ k ∈ ids) :
    k ∈ p.reach ids seen := by
  fun_induction reach p ids seen with
  | case1 seen => simpa using h
  | case2 seen id rest hs ih => grind
  | case3 seen id rest hs hn ih => grind [IdSet.mem_insert]
  | case4 seen id rest hs n hn ih => grind [IdSet.mem_insert]

/-- No edge leads from what has been reached to another node, when none leads from
what was seen before to a node other than those still to be visited. -/
theorem mem_reach_of_edge {ids : List NodeId} {seen : NodeSet}
    (hseen : ∀ u v, u ∈ seen → p.Edge u v → p.contains v = true → v ∈ seen ∨ v ∈ ids)
    (hu : u ∈ p.reach ids seen) (huv : p.Edge u v) (hv : p.contains v = true) :
    v ∈ p.reach ids seen := by
  fun_induction reach p ids seen with
  | case1 seen => simpa using hseen u v hu huv hv
  | case2 seen id rest hs ih => exact ih (by grind) hu
  | case3 seen id rest hs hn ih =>
    have hid : ∀ w, ¬ p.Edge id w := by
      rintro w ⟨n, hn', -⟩
      cases hn.symm.trans hn'
    have hmissing : p.contains id ≠ true := by simp [contains, IdMap.contains, hn]
    rw [IdSet.mem_insert] at hu ⊢
    exact .inr (ih (by grind) (hu.resolve_left fun h => hid v (h ▸ huv)))
  | case4 seen id rest hs n hn ih =>
    refine ih (fun w x hw hwx hx => ?_) hu
    rcases IdSet.mem_insert.mp hw with rfl | hw
    · obtain ⟨n', hn', hx⟩ := hwx
      cases hn.symm.trans hn'
      exact .inr (List.mem_append_left _ hx)
    · rcases hseen w x hw hwx hx with h | h
      · exact .inl (IdSet.mem_insert.mpr (.inr h))
      · rcases List.mem_cons.mp h with rfl | h
        · exact .inl (IdSet.mem_insert.mpr (.inl rfl))
        · exact .inr (List.mem_append_right _ h)

theorem mem_reachableFrom {roots : List NodeId} (hk : p.contains k = true) :
    k ∈ p.reachableFrom roots ↔ ∃ r ∈ roots, p.Reaches r k := by
  constructor
  · intro h
    exact (reaches_of_mem_reach h).resolve_left (IdSet.not_mem_empty k)
  · rintro ⟨r, hr, h⟩
    induction h with
    | refl => exact mem_reach_of_mem (.inr hr)
    | tail _ huv ih =>
      have ⟨n, hn, _⟩ := huv
      refine mem_reach_of_edge (by simp) (ih ?_) huv hk
      simp [contains, IdMap.contains, hn]

/-- In a coherent plan every node can be reached from a root. -/
theorem Coherent.reachable (hp : p.Coherent) (hn : p.nodes.get? k = some n) :
    ∃ r ∈ p.roots, p.Reaches r k := by
  obtain ⟨rank, hrank⟩ := hp.ranked
  induction hr : rank k using Nat.strong_induction_on generalizing k n with
  | _ r ih =>
    subst hr
    by_cases hop : n.op = .create
    · exact ⟨k, hp.roots.mpr ⟨n, hn, hop⟩, .refl⟩
    · obtain ⟨u, hu⟩ := List.exists_mem_of_ne_nil _ (hp.fed hn hop)
      have hfeeds : p.Feeds u k := ⟨n, hn, hu⟩
      obtain ⟨m, hm⟩ := hp.closed hfeeds
      obtain ⟨r, hr, hreach⟩ := ih (rank u) (hrank hfeeds) hm rfl
      exact ⟨r, hr, hreach.tail (hp.edge_iff.mpr hfeeds)⟩

theorem Coherent.mem_reachable (hp : p.Coherent) (hn : p.nodes.get? k = some n) : k ∈ p.reachable := by
  obtain ⟨r, hr, h⟩ := hp.reachable hn
  exact (mem_reachableFrom (contains_of_get? hn)).mpr ⟨r, hr, h⟩

theorem Coherent.mem_sinks (hp : p.Coherent) {m : Node} :
    m ∈ p.sinks ↔ (∃ k, p.nodes.get? k = some m) ∧ m.isLeaf = true := by
  rw [sinks, List.mem_filter, List.mem_filterMap]
  refine and_congr_left fun _ => ⟨fun ⟨k, _, hk⟩ => ⟨k, hk⟩, fun ⟨k, hk⟩ => ⟨k, ?_, hk⟩⟩
  exact hp.mem_reachable hk

-- ---------------------------------------------------------------------------
-- Topological order
-- ---------------------------------------------------------------------------

/-- Every node stands once and in front of its children. -/
def Ordered (p : Plan) : List NodeId → Prop
  | [] => True
  | u :: rest => u ∉ rest ∧ (∀ v, p.Edge u v → p.contains v = true → v ∈ rest) ∧ p.Ordered rest

theorem ordered_nil : p.Ordered [] := trivial

theorem Ordered.nodup {l : List NodeId} (h : p.Ordered l) : l.Nodup := by
  induction l with
  | nil => exact .nil
  | cons u rest ih => exact List.nodup_cons.mpr ⟨h.1, ih h.2.2⟩

theorem Ordered.mem_of_edge {l : List NodeId} {u w : NodeId} (h : p.Ordered l) (hu : u ∈ l)
    (huw : p.Edge u w) (hw : p.contains w = true) : w ∈ l := by
  induction l with
  | nil => cases hu
  | cons a l ih =>
    rcases List.mem_cons.mp hu with rfl | hu
    · exact List.mem_cons_of_mem _ (h.2.1 w huw hw)
    · exact List.mem_cons_of_mem _ (ih h.2.2 hu)

theorem Ordered.sublist {l : List NodeId} (h : p.Ordered l) (hu : u ∈ l) (huv : p.Edge u v)
    (hv : p.contains v = true) : [u, v].Sublist l := by
  induction l with
  | nil => cases hu
  | cons a l ih =>
    rcases List.mem_cons.mp hu with rfl | hu
    · exact .cons_cons _ (List.singleton_sublist.mpr (h.2.1 v huv hv))
    · exact .cons _ (ih h.2.2 hu)

theorem Coherent.mem_of_feeds {rest : List NodeId} (hp : p.Coherent) (h : p.Ordered rest) {u w : NodeId} (hu : u ∈ rest)
    (huw : p.Feeds u w) : w ∈ rest := by
  have ⟨m, hm, _⟩ := huw
  exact h.mem_of_edge hu (hp.edge_iff.mpr huw) (contains_of_get? hm)

/-- What is yet to come does not feed the first of it. -/
theorem Coherent.not_feeds_head {rest : List NodeId} (hp : p.Coherent) (h : p.Ordered (id :: rest))
    (hu : u ∈ id :: rest) : ¬ p.Feeds u id := by
  intro huid
  rcases List.mem_cons.mp hu with rfl | hu
  · exact hp.not_feeds_self huid
  · exact h.1 (hp.mem_of_feeds h.2.2 hu huid)

/-- What a search that puts nodes in front of `done` comes back with. -/
structure Sorted (p : Plan) (path : NodeSet) (ids done out : List NodeId) : Prop where
  ordered : p.Ordered out
  kept : ∀ k ∈ done, k ∈ out
  visited : ∀ k ∈ ids, p.contains k = true → k ∈ out
  off : ∀ k ∈ out, k ∈ done ∨ k ∉ path
  found : ∀ k ∈ out, k ∈ done ∨ p.contains k = true ∧ ∃ r ∈ ids, p.Reaches r k

theorem Sorted.cons {path : NodeSet} {rest done out : List NodeId} (h : p.Sorted path rest done out)
    (hid : p.contains id = true → id ∈ out) : p.Sorted path (id :: rest) done out where
  ordered := h.ordered
  kept := h.kept
  visited k hk hc := by
    rcases List.mem_cons.mp hk with rfl | hk
    · exact hid hc
    · exact h.visited k hk hc
  off := h.off
  found k hk := (h.found k hk).imp_right fun ⟨hc, r, hr, hreach⟩ =>
    ⟨hc, r, List.mem_cons_of_mem _ hr, hreach⟩

theorem sorted_of_topSortInto {path : NodeSet} {ids done out : List NodeId} (hdone : p.Ordered done)
    (h : p.topSortInto path ids done = .ok out) : p.Sorted path ids done out := by
  fun_induction topSortInto p path ids done generalizing out with
  | case1 path done =>
    cases h
    exact ⟨hdone, fun _ h => h, by simp, fun _ h => .inl h, fun _ h => .inl h⟩
  | case2 path done id rest hd ih =>
    have hrest := ih hdone h
    exact hrest.cons fun _ => hrest.kept id hd
  | case3 path done id rest hd hn ih =>
    refine (ih hdone h).cons fun hc => ?_
    simp [contains, IdMap.contains, hn] at hc
  | case4 path done id rest hd n hn hp => cases h
  | case5 path done id rest hd n hn hp fault hf ih => cases h
  | case6 path done id rest hd n hn hp done' hf ih₁ ih₂ =>
    have hbelow := ih₁ hdone hf
    have hid : id ∉ done' := fun hm => by
      rcases hbelow.off id hm with h | h
      · exact hd h
      · exact h (IdSet.mem_insert.mpr (.inl rfl))
    have hchildren : ∀ v, p.Edge id v → p.contains v = true → v ∈ done' := by
      rintro v ⟨n', hn', hv⟩ hc
      cases hn.symm.trans hn'
      exact hbelow.visited v (mem_sorted.mpr ⟨hv, Option.isSome_iff_exists.mp hc⟩) hc
    have hrest := ih₂ ⟨hid, hchildren, hbelow.ordered⟩ h
    refine ⟨hrest.ordered, fun k hk => hrest.kept k (List.mem_cons_of_mem _ (hbelow.kept k hk)),
      ?_, fun k hk => ?_, fun k hk => ?_⟩
    · exact (hrest.cons fun _ => hrest.kept id List.mem_cons_self).visited
    · rcases hrest.off k hk with h | h
      · rcases List.mem_cons.mp h with rfl | h
        · exact .inr hp
        · exact (hbelow.off k h).imp_right fun h hk => h (IdSet.mem_insert.mpr (.inr hk))
      · exact .inr h
    · rcases hrest.found k hk with h | ⟨hc, r, hr, h⟩
      · rcases List.mem_cons.mp h with rfl | h
        · exact .inr ⟨contains_of_get? hn, k, List.mem_cons_self, .refl⟩
        · refine (hbelow.found k h).imp_right ?_
          rintro ⟨hc, r, hr, hreach⟩
          exact ⟨hc, id, List.mem_cons_self, .head ⟨n, hn, (mem_sorted.mp hr).1⟩ hreach⟩
      · exact .inr ⟨hc, r, List.mem_cons_of_mem _ hr, h⟩

/-- A search along edges that go up a rank does not come back to where it has been. -/
theorem exists_topSortInto {rank : NodeId → Nat} (hrank : ∀ u v, p.Edge u v → rank u < rank v)
    {path : NodeSet} {ids done : List NodeId} (hpath : ∀ u ∈ path, ∀ v ∈ ids, rank u < rank v) :
    ∃ out, p.topSortInto path ids done = .ok out := by
  fun_induction topSortInto p path ids done with
  | case1 path done => exact ⟨done, rfl⟩
  | case2 path done id rest hd ih => exact ih fun u hu v hv => hpath u hu v (List.mem_cons_of_mem _ hv)
  | case3 path done id rest hd hn ih =>
    exact ih fun u hu v hv => hpath u hu v (List.mem_cons_of_mem _ hv)
  | case4 path done id rest hd n hn hp => exact absurd (hpath id hp id List.mem_cons_self) (Nat.lt_irrefl _)
  | case5 path done id rest hd n hn hp fault hf ih =>
    have hbelow : ∃ out, p.topSortInto (path.insert id) (p.sorted n.children.toList) done = .ok out := by
      refine ih fun u hu v hv => ?_
      have hup := hrank id v ⟨n, hn, (mem_sorted.mp hv).1⟩
      rcases IdSet.mem_insert.mp hu with rfl | hu
      · exact hup
      · exact (hpath u hu id List.mem_cons_self).trans hup
    obtain ⟨out, hout⟩ := hbelow
    rw [hf] at hout
    cases hout
  | case6 path done id rest hd n hn hp done' hf _ ih =>
    exact ih fun u hu v hv => hpath u hu v (List.mem_cons_of_mem _ hv)

theorem Linked.exists_topSort (hp : p.Linked) : ∃ order, p.topSort = .ok order := by
  obtain ⟨rank, hrank⟩ := hp.ranked
  exact exists_topSortInto (fun u v h => hrank (hp.edge_iff.mp h)) fun u hu => (IdSet.not_mem_empty u hu).elim

/-- A topological order holds what can be reached, in order. -/
theorem ordered_of_topSortFrom {roots out : List NodeId} (h : p.topSortFrom roots = .ok out) :
    p.Ordered out := (sorted_of_topSortInto ordered_nil h).ordered

theorem mem_of_topSortFrom {roots out : List NodeId} (h : p.topSortFrom roots = .ok out) :
    k ∈ out ↔ p.contains k = true ∧ ∃ r ∈ roots, p.Reaches r k := by
  have hsorted := sorted_of_topSortInto ordered_nil h
  constructor
  · intro hk
    obtain ⟨hc, u, hu, huk⟩ := (hsorted.found k hk).resolve_left List.not_mem_nil
    obtain ⟨hu, -⟩ := mem_sorted.mp (List.mem_reverse.mp hu)
    obtain ⟨r, hr, hru⟩ := (reaches_of_mem_reach hu).resolve_left (IdSet.not_mem_empty u)
    exact ⟨hc, r, hr, hru.trans huk⟩
  · rintro ⟨hc, hr⟩
    refine hsorted.visited k ?_ hc
    rw [List.mem_reverse, mem_sorted]
    exact ⟨(mem_reachableFrom hc).mpr hr, Option.isSome_iff_exists.mp hc⟩

theorem Coherent.mem_topSort (hp : p.Coherent) {order : List NodeId} (h : p.topSort = .ok order) :
    k ∈ order ↔ p.contains k = true := by
  refine (mem_of_topSortFrom h).trans ⟨fun h => h.1, fun hc => ⟨hc, ?_⟩⟩
  obtain ⟨n, hn⟩ := Option.isSome_iff_exists.mp hc
  exact hp.reachable hn

end Plan

end JointPlan
