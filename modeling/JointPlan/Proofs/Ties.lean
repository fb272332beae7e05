import JointPlan.Proofs.Compiling
import JointPlan.Proofs.Cycles

/-!
# Ties

Two nodes with the same parents are not put in order by the edges of a plan; their names decide,
and then their numbers. The search for a topological order starts from the last name and works
towards the front, so of two nodes that it starts from the first by name ends up in front. The
children of a node are taken up from the first name on, though, and what has been finished
first ends up last: where a search comes from a parent, the last by name ends up in front. It comes
from a parent exactly if something above the two nodes sorts after both.
-/

namespace JointPlan

theorem not_sublist_swap {u v : NodeId} {l : List NodeId} (hl : l.Nodup) (h : [u, v].Sublist l) : ¬ [v, u].Sublist l := by
  induction l with
  | nil => cases h
  | cons a l ih =>
    obtain ⟨ha, hl⟩ := List.nodup_cons.mp hl
    intro h'
    cases h with
    | cons _ h =>
      cases h' with
      | cons _ h' => exact ih hl h h'
      | cons_cons _ h' => exact ha (h.subset (by simp))
    | cons_cons _ h =>
      cases h' with
      | cons _ h' => exact ha (h'.subset (by simp))
      | cons_cons _ h' => exact ha (h.subset (by simp))

theorem sublist_append_cons {u v : NodeId} {front back : List NodeId} (hu : u ∈ front) : [u, v].Sublist (front ++ v :: back) :=
  (List.singleton_sublist.mpr hu).append (List.singleton_sublist.mpr List.mem_cons_self)

namespace Plan

variable {p : Plan} {u v a b k id : NodeId} {n : Node} {ids done out : List NodeId} {path : NodeSet}

-- ---------------------------------------------------------------------------
-- Order by name
-- ---------------------------------------------------------------------------

/-- The node comes first by the name of its relation, then by its number. -/
def SortsBefore (p : Plan) (a b : NodeId) : Prop :=
  ∃ n m, p.nodes.get? a = some n ∧ p.nodes.get? b = some m ∧ precedes (n.rel.name, a) (m.rel.name, b) = true

theorem SortsBefore.antisymm (hab : p.SortsBefore a b) (hba : p.SortsBefore b a) : a = b := by
  obtain ⟨n, m, hn, hm, hle⟩ := hab
  obtain ⟨m', n', hm', hn', hge⟩ := hba
  cases hn.symm.trans hn'
  cases hm.symm.trans hm'
  exact congrArg Prod.snd (precedes_antisymm hle hge)

theorem sortsBefore_or (ha : p.contains a = true) (hb : p.contains b = true) : p.SortsBefore a b ∨ p.SortsBefore b a := by
  obtain ⟨n, hn⟩ := Option.isSome_iff_exists.mp ha
  obtain ⟨m, hm⟩ := Option.isSome_iff_exists.mp hb
  exact precedes_or.imp (fun h => ⟨n, m, hn, hm, h⟩) fun h => ⟨m, n, hm, hn, h⟩

theorem pairwise_sorted : (p.sorted ids).Pairwise p.SortsBefore := by
  rw [sorted, List.pairwise_map]
  refine pairwise_sortByName.imp_of_mem fun {x y} hx hy hxy => ?_
  have hnamed {x : String × NodeId}
      (hx : x ∈ sortByName (ids.filterMap fun id => (p.nodes.get? id).map fun n => (n.rel.name, id))) :
      ∃ n, p.nodes.get? x.2 = some n ∧ (n.rel.name, x.2) = x := by
    obtain ⟨id, -, hid⟩ := List.mem_filterMap.mp ((sortByName_perm _).mem_iff.mp hx)
    obtain ⟨n, hn, rfl⟩ := Option.map_eq_some_iff.mp hid
    exact ⟨n, hn, rfl⟩
  obtain ⟨n, hn, hnx⟩ := hnamed hx
  obtain ⟨m, hm, hmy⟩ := hnamed hy
  exact ⟨n, m, hn, hm, by rwa [hnx, hmy]⟩

/-- What sorts before a member of a sorted list stands before it. -/
theorem mem_front_of_sortsBefore {front back : List NodeId} (h : p.sorted ids = front ++ v :: back)
    (hu : u ∈ p.sorted ids) (hne : u ≠ v) (hbefore : p.SortsBefore u v) : u ∈ front := by
  have hsorted : (front ++ v :: back).Pairwise p.SortsBefore := h ▸ pairwise_sorted
  obtain ⟨-, hback, -⟩ := List.pairwise_append.mp hsorted
  rw [h, List.mem_append, List.mem_cons] at hu
  rcases hu with hu | rfl | hu
  · exact hu
  · exact absurd rfl hne
  · exact absurd (hbefore.antisymm ((List.pairwise_cons.mp hback).1 u hu)) hne

-- ---------------------------------------------------------------------------
-- The course of a search
-- ---------------------------------------------------------------------------

/-- A search puts what it finds in front. -/
theorem suffix_of_topSortInto (h : p.topSortInto path ids done = .ok out) : done <:+ out := by
  fun_induction topSortInto p path ids done generalizing out with
  | case1 path done =>
    cases h
    exact List.suffix_rfl
  | case2 path done id rest hd ih => exact ih h
  | case3 path done id rest hd hn ih => exact ih h
  | case4 => cases h
  | case5 => cases h
  | case6 path done id rest hd n hn hp done' hf ih₁ ih₂ =>
    exact (ih₁ hf).trans ((List.suffix_cons id done').trans (ih₂ h))

/-- What a search does at a node that it has not finished. -/
theorem exists_of_topSortInto_cons {rest : List NodeId} (hd : id ∉ done) (hn : p.nodes.get? id = some n)
    (h : p.topSortInto path (id :: rest) done = .ok out) :
    id ∉ path ∧ ∃ done', p.topSortInto (path.insert id) (p.sorted n.children.toList) done = .ok done' ∧
      p.topSortInto path rest (id :: done') = .ok out := by
  rw [topSortInto_cons, if_neg hd, hn, Option.elim_some] at h
  split at h
  case isTrue => cases h
  case isFalse hp => exact ⟨hp, bind_eq_ok.mp h⟩

theorem topSortInto_append {xs ys : List NodeId} (h : p.topSortInto path (xs ++ ys) done = .ok out) :
    ∃ mid, p.topSortInto path xs done = .ok mid ∧ p.topSortInto path ys mid = .ok out := by
  fun_induction topSortInto p path xs done with
  | case1 path done => exact ⟨done, rfl, h⟩
  | case2 path done id rest hd ih =>
    rw [List.cons_append, topSortInto, if_pos hd] at h
    exact ih h
  | case3 path done id rest hd hn ih =>
    rw [List.cons_append, topSortInto, if_neg hd] at h
    split at h
    · exact ih h
    · rename_i n hn'
      cases hn.symm.trans hn'
  | case4 path done id rest hd n hn hp => exact absurd hp (exists_of_topSortInto_cons hd hn h).1
  | case5 path done id rest hd n hn hp fault hf ih =>
    obtain ⟨-, done', hdone', -⟩ := exists_of_topSortInto_cons hd hn h
    cases hf.symm.trans hdone'
  | case6 path done id rest hd n hn hp done' hf _ ih =>
    obtain ⟨-, done', hdone', h⟩ := exists_of_topSortInto_cons hd hn h
    cases hf.symm.trans hdone'
    exact ih h

/-- When a search comes to `v` among the nodes it starts from, it has started from those that sort
after `v` and from no others. -/
theorem topSort_split {order : List NodeId} (horder : p.topSort = .ok order) (hv : p.Reached p.roots.toList v) :
    ∃ front back mid, (∀ k, k ∈ front ↔ p.Reached p.roots.toList k ∧ k ≠ v ∧ p.SortsBefore v k) ∧
      p.topSortInto ∅ front [] = .ok mid ∧ p.topSortInto ∅ (v :: back) mid = .ok order := by
  have hstart {k : NodeId} : k ∈ (p.sorted p.reachable.toList).reverse ↔ p.Reached p.roots.toList k := by
    rw [List.mem_reverse, mem_sorted, IdSet.mem_toList]
    constructor
    · rintro ⟨hk, n, hn⟩
      exact ⟨contains_of_get? hn, (mem_reachableFrom (contains_of_get? hn)).mp hk⟩
    · intro hk
      exact ⟨(mem_reachableFrom hk.1).mpr hk.2, Option.isSome_iff_exists.mp hk.1⟩
  obtain ⟨front, back, hsplit, hnot⟩ := List.eq_append_cons_of_mem (hstart.mpr hv)
  have hsorted : (front ++ v :: back).Pairwise fun a b => p.SortsBefore b a :=
    hsplit ▸ List.pairwise_reverse.mpr pairwise_sorted
  obtain ⟨-, hback, hfront⟩ := List.pairwise_append.mp hsorted
  have horder : p.topSortInto ∅ (front ++ v :: back) [] = .ok order := hsplit ▸ horder
  obtain ⟨mid, hmid, hrest⟩ := topSortInto_append horder
  refine ⟨front, back, mid, fun k => ⟨fun hk => ?_, fun ⟨hk, hne, hbefore⟩ => ?_⟩, hmid, hrest⟩
  · exact ⟨hstart.mp (by simp [hsplit, hk]), fun h => hnot (h ▸ hk), hfront k hk v List.mem_cons_self⟩
  · have hk := hstart.mpr hk
    rw [hsplit, List.mem_append, List.mem_cons] at hk
    rcases hk with hk | rfl | hk
    · exact hk
    · exact absurd rfl hne
    · exact absurd ((List.pairwise_cons.mp hback).1 k hk |>.antisymm hbefore) hne

/-- Wherever `v` is still to come, `u` comes before it or has been finished. -/
def Ahead (u v : NodeId) (ids done : List NodeId) : Prop := ∀ front back, ids = front ++ v :: back → u ∈ front ∨ u ∈ done

theorem Ahead.tail {rest done' : List NodeId} (h : Ahead u v (id :: rest) done) (hid : u = id → u ∈ done')
    (hdone : done ⊆ done') : Ahead u v rest done' := by
  intro front back hrest
  rcases h (id :: front) back (congrArg (id :: ·) hrest) with hmem | hmem
  · exact (List.mem_cons.mp hmem).symm.imp_right hid
  · exact .inr (hdone hmem)

section Siblings

variable (hu : p.contains u = true) (hne : u ≠ v) (hboth : ∀ x, p.Edge x v → p.Edge x u) (hbefore : p.SortsBefore u v)

include hu hne hboth hbefore

/-- The first by name comes first among the children of a node. -/
theorem ahead_children (hn : p.nodes.get? id = some n) : Ahead u v (p.sorted n.children.toList) done := by
  intro front back hsorted
  have hv : v ∈ p.sorted n.children.toList := by simp [hsorted]
  obtain ⟨n', hn', hchild⟩ := hboth id (edge_of_mem_sorted hn v hv)
  cases hn.symm.trans hn'
  have hu : u ∈ p.sorted n.children.toList := mem_sorted.mpr ⟨hchild, Option.isSome_iff_exists.mp hu⟩
  exact .inl (mem_front_of_sortsBefore hsorted hu hne hbefore)

/-- Wherever a search comes from a parent it takes up `u` before `v`, so `v` ends up in front. This
holds of the whole search if `u` comes first in what it starts from as well. -/
theorem sublist_of_topSortInto (hdone : v ∈ done → [v, u].Sublist done) (hids : Ahead u v ids done)
    (h : p.topSortInto path ids done = .ok out) (hv : v ∈ out) : [v, u].Sublist out := by
  fun_induction topSortInto p path ids done generalizing out with
  | case1 path done =>
    cases h
    exact hdone hv
  | case2 path done id rest hd ih =>
    have hrest : Ahead u v rest done := hids.tail (fun hid => hid ▸ hd) (List.Subset.refl done)
    exact ih hdone hrest h hv
  | case3 path done id rest hd hn ih =>
    have hrest : Ahead u v rest done := by
      refine hids.tail (fun hid => ?_) (List.Subset.refl done)
      subst hid
      simp [contains, IdMap.contains, hn] at hu
    exact ih hdone hrest h hv
  | case4 => cases h
  | case5 => cases h
  | case6 path done id rest hd n hn hp done' hf ih₁ ih₂ =>
    have hkept : done ⊆ done' := (suffix_of_topSortInto hf).subset
    have hrest : Ahead u v rest (id :: done') :=
      hids.tail (fun hid => hid ▸ List.mem_cons_self) fun k hk => List.mem_cons_of_mem _ (hkept hk)
    refine ih₂ (fun hmem => ?_) hrest h hv
    rcases List.mem_cons.mp hmem with rfl | hmem
    · have hu : u ∈ done := (hids [] rest rfl).resolve_left List.not_mem_nil
      exact .cons_cons _ (List.singleton_sublist.mpr (hkept hu))
    · exact .cons _ (ih₁ hdone (ahead_children hu hne hboth hbefore hn) hf hmem)

/-- A node above both sorts after `v`. The search starts from it and comes to both from a parent. -/
theorem sublist_topSort_of_later {order : List NodeId} (horder : p.topSort = .ok order) (hv : p.Reached p.roots.toList v)
    (ha : p.Reached p.roots.toList a) (hav : Relation.TransGen p.Edge a v) (hva : v ≠ a) (hlater : p.SortsBefore v a) :
    [v, u].Sublist order := by
  obtain ⟨front, back, mid, hfront, hmid, hrest⟩ := topSort_split horder hv
  have hfound := sorted_of_topSortInto ordered_nil hmid
  have hamid : a ∈ mid := hfound.visited a ((hfront a).mpr ⟨ha, hva.symm, hlater⟩) ha.1
  have hvmid : v ∈ mid := hfound.ordered.mem_of_reaches hamid hav.to_reflTransGen hv.1
  have hsub : [v, u].Sublist mid := by
    refine sublist_of_topSortInto hu hne hboth hbefore (fun h => absurd h List.not_mem_nil) (fun l r hl => ?_) hmid hvmid
    exact absurd rfl ((hfront v).mp (by simp [hl])).2.1
  exact hsub.trans (suffix_of_topSortInto hrest).sublist

end Siblings

/-- No node above both sorts after `v`. Then `v` has been finished before the search comes to `u`. -/
theorem sublist_topSort_of_none_later {order : List NodeId} (horder : p.topSort = .ok order)
    (hu : p.Reached p.roots.toList u) (hv : p.Reached p.roots.toList v) (hne : u ≠ v) (hboth : ∀ x, p.Edge x u → p.Edge x v)
    (hbefore : p.SortsBefore u v)
    (hnone : ∀ a, p.Reached p.roots.toList a → Relation.TransGen p.Edge a v → p.SortsBefore a v) :
    [u, v].Sublist order := by
  obtain ⟨front, back, mid, hfront, hmid, hrest⟩ := topSort_split horder hv
  have hfound := sorted_of_topSortInto ordered_nil hmid
  have habove {x : NodeId} (h : Relation.TransGen p.Edge x u) : Relation.TransGen p.Edge x v := by
    obtain ⟨w, hxw, hwu⟩ := Relation.TransGen.tail'_iff.mp h
    exact .tail' hxw (hboth w hwu)
  -- What the search has started from so far does not lead to either node.
  have hnot {k : NodeId} (hk : k ∉ front) (habove : ∀ x, Relation.TransGen p.Edge x k → Relation.TransGen p.Edge x v) :
      k ∉ mid := by
    intro hmem
    obtain ⟨-, r, hr, hreach⟩ := (hfound.found k hmem).resolve_left List.not_mem_nil
    obtain ⟨hr', hrv, hlater⟩ := (hfront r).mp hr
    rcases Relation.reflTransGen_iff_eq_or_transGen.mp hreach with rfl | hreach
    · exact hk hr
    · exact hrv ((hnone r hr' (habove r hreach)).antisymm hlater)
  have hvmid : v ∉ mid := hnot (fun h => ((hfront v).mp h).2.1 rfl) fun x h => h
  have humid : u ∉ mid := hnot (fun h => hne (hbefore.antisymm ((hfront u).mp h).2.2)) fun x h => habove h
  obtain ⟨n, hn⟩ := Option.isSome_iff_exists.mp hv.1
  obtain ⟨-, done', hdone', hrest⟩ := exists_of_topSortInto_cons hvmid hn hrest
  have hbelow := sorted_of_topSortInto hfound.ordered hdone'
  have hudone : u ∉ v :: done' := by
    intro hmem
    rcases List.mem_cons.mp hmem with rfl | hmem
    · exact hne rfl
    · obtain ⟨-, r, hr, hreach⟩ := (hbelow.found u hmem).resolve_left humid
      have hcycle : p.OnCycle v := habove (.head' (edge_of_mem_sorted hn r hr) hreach)
      exact (ordered_of_topSortFrom horder).not_onCycle ((mem_of_topSortFrom horder).mpr hv) hcycle
  obtain ⟨first, rfl⟩ := suffix_of_topSortInto hrest
  have huorder := (mem_of_topSortFrom horder).mpr hu
  exact sublist_append_cons ((List.mem_append.mp huorder).resolve_right hudone)

/-- Of two nodes with the same parents the first by name stands first in the topological order if all
that leads to them sorts before the other one, as it does for roots. If something that leads to
them sorts after the other one, the other one stands first. -/
theorem siblings_in_order {n m : Node}
    (hedges : ∀ a b, p.Edge a b ↔ ∃ m, p.nodes.get? b = some m ∧ a ∈ m.parents) (hacyclic : ∀ k, ¬ p.OnCycle k)
    (hn : p.nodes.get? u = some n) (hm : p.nodes.get? v = some m) (hne : u ≠ v) (hparents : n.parents = m.parents)
    (hu : p.Reached p.roots.toList u) (hv : p.Reached p.roots.toList v)
    (hbefore : precedes (n.rel.name, u) (m.rel.name, v) = true) :
    ∃ order, p.topSort = .ok order ∧
      ([u, v].Sublist order ↔ ∀ a, p.Reached p.roots.toList a → Relation.TransGen p.Edge a v → p.SortsBefore a v) ∧
      ([v, u].Sublist order ↔ ∃ a, p.Reached p.roots.toList a ∧ Relation.TransGen p.Edge a v ∧ p.SortsBefore v a) ∧
      (n.parents = ∅ → [u, v].Sublist order) := by
  have hnone : ¬ ∃ k, p.Reached p.roots.toList k ∧ p.OnCycle k := fun ⟨k, _, hcycle⟩ => hacyclic k hcycle
  obtain ⟨order, horder⟩ := exists_topSortFrom_iff.mpr hnone
  have hsorts : p.SortsBefore u v := ⟨n, m, hn, hm, hbefore⟩
  have hboth (x : NodeId) : p.Edge x u ↔ p.Edge x v := by simp [hedges, hn, hm, hparents]
  have hswap := not_sublist_swap (u := u) (v := v) (ordered_of_topSortFrom horder).nodup
  have hfirst (hall : ∀ a, p.Reached p.roots.toList a → Relation.TransGen p.Edge a v → p.SortsBefore a v) : [u, v].Sublist order :=
    sublist_topSort_of_none_later horder hu hv hne (fun x => (hboth x).mp) hsorts hall
  have hlast {a : NodeId} (ha : p.Reached p.roots.toList a) (hav : Relation.TransGen p.Edge a v) (hlater : p.SortsBefore v a) :
      [v, u].Sublist order :=
    sublist_topSort_of_later hu.1 hne (fun x => (hboth x).mpr) hsorts horder hv ha hav
      (fun h => hacyclic v (h ▸ hav)) hlater
  have hcases {a : NodeId} (hav : Relation.TransGen p.Edge a v) : p.SortsBefore a v ∨ p.SortsBefore v a := by
    obtain ⟨_, hedge, -⟩ := Relation.TransGen.head'_iff.mp hav
    exact sortsBefore_or hedge.contains hv.1
  refine ⟨order, horder, ⟨fun h a ha hav => ?_, hfirst⟩, ⟨fun h => ?_, fun ⟨a, ha, hav, hlater⟩ => hlast ha hav hlater⟩,
    fun hroot => hfirst fun a _ hav => ?_⟩
  · exact (hcases hav).resolve_right fun hlater => hswap h (hlast ha hav hlater)
  · by_contra hnone
    refine hswap (hfirst fun a ha hav => ?_) h
    exact (hcases hav).resolve_right fun hlater => hnone ⟨a, ha, hav, hlater⟩
  · obtain ⟨w, -, hwv⟩ := Relation.TransGen.tail'_iff.mp hav
    obtain ⟨m', hm', hw⟩ := (hedges w v).mp hwv
    cases hm.symm.trans hm'
    rw [← hparents, hroot] at hw
    exact absurd hw (IdSet.not_mem_empty w)

end Plan

-- ---------------------------------------------------------------------------
-- Readers of a late name
-- ---------------------------------------------------------------------------

namespace Workflow

/-- Two readers of a relation whose name sorts after theirs. -/
def twoReaders : List Call :=
  [.create "z" [.fresh "x" .integer] (.among 1 []), .limit 0 "b" 1, .limit 0 "c" 2, .concat [1, 2] "d",
   .collect 3 "e" (.singleton 1)]

/-- The nodes 1 and 2 have the same parents and are in order by name, and the topological order is the given one. -/
def sortsTo (order : List NodeId) (p : Plan) : Bool :=
  match p.nodes.get? 1, p.nodes.get? 2 with
  | some n, some m => decide (n.parents = m.parents ∧ p.topSort = .ok order) &&
      Plan.precedes (n.rel.name, 1) (m.rel.name, 2)
  | _, _ => false

theorem exists_twoReaders : ∃ (p : Plan) (n m : Node), p.WellFormed ∧ p.nodes.get? 1 = some n ∧ p.nodes.get? 2 = some m ∧
    n.parents = m.parents ∧ Plan.precedes (n.rel.name, 1) (m.rel.name, 2) = true ∧ p.topSort = .ok [0, 2, 1, 3, 4] := by
  have hwrites : writesTo twoReaders (sortsTo [0, 2, 1, 3, 4]) = true := by cbv
  obtain ⟨p, w, run, htest⟩ := exists_of_writesTo hwrites
  unfold sortsTo at htest
  split at htest
  · rename_i n m hn hm
    obtain ⟨hrest, hbefore⟩ := Bool.and_eq_true_iff.mp htest
    obtain ⟨hparents, horder⟩ := of_decide_eq_true hrest
    have hbuilt : p.Built := ⟨_, w, run⟩
    exact ⟨p, n, m, hbuilt.simple.coherent.wellFormed, hn, hm, hparents, hbefore, horder⟩
  · cases htest

end Workflow

namespace Plan

theorem siblings_in_order_twoReaders : ∃ (p : Plan) (n m : Node), p.WellFormed ∧ p.nodes.get? 1 = some n ∧
    p.nodes.get? 2 = some m ∧ n.parents = m.parents ∧ precedes (n.rel.name, 1) (m.rel.name, 2) = true ∧
    ∃ order, p.topSort = .ok order ∧
      ([1, 2].Sublist order ↔ ∀ a, p.Reached p.roots.toList a → Relation.TransGen p.Edge a 2 → p.SortsBefore a 2) ∧
      ([2, 1].Sublist order ↔ ∃ a, p.Reached p.roots.toList a ∧ Relation.TransGen p.Edge a 2 ∧ p.SortsBefore 2 a) ∧
      (n.parents = ∅ → [1, 2].Sublist order) := by
  obtain ⟨p, n, m, hp, hn, hm, hparents, hbefore, -⟩ := Workflow.exists_twoReaders
  exact ⟨p, n, m, hp, hn, hm, hparents, hbefore, siblings_in_order hp.edges hp.acyclic hn hm (by decide) hparents
    ⟨contains_of_get? hn, hp.reachable 1 n hn⟩ ⟨contains_of_get? hm, hp.reachable 2 m hm⟩ hbefore⟩

/-- The first by name does not stand first. -/
theorem siblings_out_of_order : ∃ (p : Plan) (u v : NodeId) (n m : Node) (order : List NodeId), p.WellFormed ∧
    p.nodes.get? u = some n ∧ p.nodes.get? v = some m ∧ u ≠ v ∧ n.parents = m.parents ∧
    precedes (n.rel.name, u) (m.rel.name, v) = true ∧ p.topSort = .ok order ∧ ¬ [u, v].Sublist order := by
  obtain ⟨p, n, m, hp, hn, hm, hparents, hbefore, horder⟩ := Workflow.exists_twoReaders
  exact ⟨p, 1, 2, n, m, _, hp, hn, hm, by decide, hparents, hbefore, horder, by decide⟩

end Plan

end JointPlan
