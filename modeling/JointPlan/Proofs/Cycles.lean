import JointPlan.Proofs.Traversal

/-!
# Traversals of any plan

Of a plan that has been read from a file nothing is known. There can be children that are not in
it, edges that only one of their ends holds, and cycles. The traversals come to an end on all of
these. The search for a topological order keeps the nodes that lead to where it is and fails when
it meets one of them again; this node then lies on a cycle. So it succeeds exactly where no cycle
can be reached, and what it comes back with is an order. A depth-first walk goes past cycles.
-/

namespace JointPlan

namespace Plan

variable {p : Plan} {u v k : NodeId} {roots : List NodeId}

/-- The node is in the plan and can be reached from one of `roots`. -/
def Reached (p : Plan) (roots : List NodeId) (k : NodeId) : Prop :=
  p.contains k = true ∧ ∃ r ∈ roots, p.Reaches r k

/-- Children lead from the node back to it. -/
def OnCycle (p : Plan) (k : NodeId) : Prop := Relation.TransGen p.Edge k k

/-- What leads to a node of the plan is in the plan. -/
theorem Reaches.contains (h : p.Reaches u v) (hv : p.contains v = true) : p.contains u = true := by
  rcases Relation.ReflTransGen.cases_head h with rfl | ⟨_, hedge, -⟩
  · exact hv
  · exact hedge.contains

section Reached

variable {ids rest : List NodeId} {id : NodeId}

theorem Reached.cons (h : p.Reached rest k) : p.Reached (id :: rest) k :=
  have ⟨hk, r, hr, hreach⟩ := h
  ⟨hk, r, List.mem_cons_of_mem _ hr, hreach⟩

theorem reached_head (hk : p.contains k = true) : p.Reached (k :: rest) k := ⟨hk, k, List.mem_cons_self, .refl⟩

theorem Reached.of_edges (h : p.Reached ids k) (hedges : ∀ r ∈ ids, p.Edge id r) : p.Reached (id :: rest) k :=
  have ⟨hk, r, hr, hreach⟩ := h
  ⟨hk, id, List.mem_cons_self, .head (hedges r hr) hreach⟩

theorem edge_of_mem_sorted {n : Node} (hn : p.nodes.get? id = some n) : ∀ r ∈ p.sorted n.children.toList, p.Edge id r :=
  fun _ hr => ⟨n, hn, (mem_sorted.mp hr).1⟩

end Reached

-- ---------------------------------------------------------------------------
-- Steps
-- ---------------------------------------------------------------------------

section Steps

variable {rest done : List NodeId} {seen path : NodeSet} {id : NodeId}

theorem reach_cons : p.reach (id :: rest) seen = if id ∈ seen then p.reach rest seen else
    (p.nodes.get? id).elim ((p.reach rest seen).insert id) fun n =>
      p.reach (n.children.toList ++ rest) (seen.insert id) := by
  rw [reach]
  split
  · rfl
  · split <;> simp [*]

theorem dfs_cons : p.dfs (id :: rest) seen = if id ∈ seen then p.dfs rest seen else
    (p.nodes.get? id).elim (p.dfs rest seen) fun n =>
      id :: p.dfs (p.sorted n.children.toList ++ rest) (seen.insert id) := by
  rw [dfs]
  split
  · rfl
  · split <;> simp [*]

theorem topSortInto_cons : p.topSortInto path (id :: rest) done =
    if id ∈ done then p.topSortInto path rest done else
      (p.nodes.get? id).elim (p.topSortInto path rest done) fun n =>
        if id ∈ path then .error (.cycle n.rel.name)
        else p.topSortInto (path.insert id) (p.sorted n.children.toList) done >>= fun done =>
          p.topSortInto path rest (id :: done) := by
  rw [topSortInto]
  split
  · rfl
  split
  · simp [*]
  simp only [*, Option.elim_some]
  split
  · rfl
  · split <;> simp_all [bind, Except.bind]

end Steps

-- ---------------------------------------------------------------------------
-- Topological order
-- ---------------------------------------------------------------------------

/-- A search fails at a node on a cycle, when all that is on its path leads to where it goes on. -/
theorem onCycle_of_topSortInto {path : NodeSet} {ids done : List NodeId} {fault : Fault}
    (hpath : ∀ a ∈ path, ∀ b ∈ ids, Relation.TransGen p.Edge a b)
    (h : p.topSortInto path ids done = .error fault) :
    ∃ k n, p.nodes.get? k = some n ∧ p.Reached ids k ∧ p.OnCycle k ∧ fault = .cycle n.rel.name := by
  fun_induction topSortInto p path ids done with
  | case1 => cases h
  | case2 path done id rest hd ih =>
    obtain ⟨k, n, hn, hk, hcycle⟩ := ih (fun a ha b hb => hpath a ha b (List.mem_cons_of_mem _ hb)) h
    exact ⟨k, n, hn, hk.cons, hcycle⟩
  | case3 path done id rest hd hn ih =>
    obtain ⟨k, n, hn, hk, hcycle⟩ := ih (fun a ha b hb => hpath a ha b (List.mem_cons_of_mem _ hb)) h
    exact ⟨k, n, hn, hk.cons, hcycle⟩
  | case4 path done id rest hd n hn hp =>
    cases h
    exact ⟨id, n, hn, reached_head (contains_of_get? hn), hpath id hp id List.mem_cons_self, rfl⟩
  | case5 path done id rest hd n hn hp fault' hf ih =>
    cases h
    have hpath' : ∀ a ∈ path.insert id, ∀ b ∈ p.sorted n.children.toList, Relation.TransGen p.Edge a b := by
      intro a ha b hb
      rcases IdSet.mem_insert.mp ha with rfl | ha
      · exact .single (edge_of_mem_sorted hn b hb)
      · exact (hpath a ha id List.mem_cons_self).tail (edge_of_mem_sorted hn b hb)
    obtain ⟨k, m, hm, hk, hcycle⟩ := ih hpath' hf
    exact ⟨k, m, hm, hk.of_edges (edge_of_mem_sorted hn), hcycle⟩
  | case6 path done id rest hd n hn hp done' hf _ ih =>
    obtain ⟨k, n, hn, hk, hcycle⟩ := ih (fun a ha b hb => hpath a ha b (List.mem_cons_of_mem _ hb)) h
    exact ⟨k, n, hn, hk.cons, hcycle⟩

theorem onCycle_of_topSortFrom {fault : Fault} (h : p.topSortFrom roots = .error fault) :
    ∃ k n, p.nodes.get? k = some n ∧ p.Reached roots k ∧ p.OnCycle k ∧ fault = .cycle n.rel.name := by
  obtain ⟨k, n, hn, ⟨hk, u, hu, huk⟩, hcycle⟩ := onCycle_of_topSortInto (by simp) h
  obtain ⟨hu, -⟩ := mem_sorted.mp (List.mem_reverse.mp hu)
  obtain ⟨r, hr, hru⟩ := (reaches_of_mem_reach hu).resolve_left (IdSet.not_mem_empty u)
  exact ⟨k, n, hn, ⟨hk, r, hr, hru.trans huk⟩, hcycle⟩

/-- Edges do not lead out of an order. -/
theorem Ordered.mem_of_reaches {l : List NodeId} (h : p.Ordered l) (hu : u ∈ l) (huv : p.Reaches u v)
    (hv : p.contains v = true) : v ∈ l := by
  induction huv with
  | refl => exact hu
  | tail _ hedge ih => exact h.mem_of_edge (ih hedge.contains) hedge hv

theorem Ordered.not_onCycle {l : List NodeId} (h : p.Ordered l) (hk : k ∈ l) : ¬ p.OnCycle k := by
  induction l with
  | nil => cases hk
  | cons u rest ih =>
    rcases List.mem_cons.mp hk with rfl | hk
    · intro hcycle
      obtain ⟨w, hkw, hwk⟩ := Relation.TransGen.head'_iff.mp hcycle
      have hw : w ∈ rest := h.2.1 w hkw (Reaches.contains hwk hkw.contains)
      exact h.1 (h.2.2.mem_of_reaches hw hwk hkw.contains)
    · exact ih h.2.2 hk

theorem exists_topSortFrom_iff :
    (∃ order, p.topSortFrom roots = .ok order) ↔ ¬ ∃ k, p.Reached roots k ∧ p.OnCycle k := by
  constructor
  · rintro ⟨order, h⟩ ⟨k, hk, hcycle⟩
    exact (ordered_of_topSortFrom h).not_onCycle ((mem_of_topSortFrom h).mpr hk) hcycle
  · intro hnone
    cases h : p.topSortFrom roots with
    | ok order => exact ⟨order, rfl⟩
    | error fault =>
      obtain ⟨k, n, -, hk, hcycle, -⟩ := onCycle_of_topSortFrom h
      exact absurd ⟨k, hk, hcycle⟩ hnone

-- ---------------------------------------------------------------------------
-- Depth-first order
-- ---------------------------------------------------------------------------

section DepthFirst

variable {stack : List NodeId} {seen : NodeSet}

theorem reached_of_mem_dfs (h : k ∈ p.dfs stack seen) : k ∉ seen ∧ p.Reached stack k := by
  fun_induction dfs p stack seen with
  | case1 => cases h
  | case2 seen id rest hs ih => exact (ih h).imp_right .cons
  | case3 seen id rest hs hn ih => exact (ih h).imp_right .cons
  | case4 seen id rest hs n hn ih =>
    rcases List.mem_cons.mp h with rfl | h
    · exact ⟨hs, reached_head (contains_of_get? hn)⟩
    · obtain ⟨hk, hc, r, hr, hreach⟩ := ih h
      refine ⟨fun hseen => hk (IdSet.mem_insert.mpr (.inr hseen)), ?_⟩
      rcases List.mem_append.mp hr with hr | hr
      · exact Reached.of_edges ⟨hc, r, hr, hreach⟩ (edge_of_mem_sorted hn)
      · exact Reached.cons ⟨hc, r, hr, hreach⟩

theorem nodup_dfs : (p.dfs stack seen).Nodup := by
  fun_induction dfs p stack seen with
  | case1 => exact .nil
  | case2 seen id rest hs ih => exact ih
  | case3 seen id rest hs hn ih => exact ih
  | case4 seen id rest hs n hn ih =>
    exact List.nodup_cons.mpr ⟨fun h => (reached_of_mem_dfs h).1 (IdSet.mem_insert.mpr (.inl rfl)), ih⟩

theorem mem_dfs_of_mem (hk : k ∈ stack) (hc : p.contains k = true) : k ∈ seen ∨ k ∈ p.dfs stack seen := by
  fun_induction dfs p stack seen with
  | case1 => cases hk
  | case2 seen id rest hs ih =>
    rcases List.mem_cons.mp hk with rfl | hk
    · exact .inl hs
    · exact ih hk
  | case3 seen id rest hs hn ih =>
    rcases List.mem_cons.mp hk with rfl | hk
    · simp [contains, IdMap.contains, hn] at hc
    · exact ih hk
  | case4 seen id rest hs n hn ih =>
    rcases List.mem_cons.mp hk with rfl | hk
    · exact .inr List.mem_cons_self
    · rcases ih (List.mem_append_right _ hk) with h | h
      · rcases IdSet.mem_insert.mp h with rfl | h
        · exact .inr List.mem_cons_self
        · exact .inl h
      · exact .inr (List.mem_cons_of_mem _ h)

/-- No edge leads out of what has been seen, when at the start none leads from there to a node
other than those on the stack. -/
theorem mem_dfs_of_edge (hseen : ∀ a b, a ∈ seen → p.Edge a b → p.contains b = true → b ∈ seen ∨ b ∈ stack)
    (hu : u ∈ seen ∨ u ∈ p.dfs stack seen) (huv : p.Edge u v) (hv : p.contains v = true) :
    v ∈ seen ∨ v ∈ p.dfs stack seen := by
  fun_induction dfs p stack seen with
  | case1 seen => simpa using hseen u v (by simpa using hu) huv hv
  | case2 seen id rest hs ih => exact ih (by grind) hu
  | case3 seen id rest hs hn ih =>
    have hmissing : p.contains id ≠ true := by simp [contains, IdMap.contains, hn]
    exact ih (by grind) hu
  | case4 seen id rest hs n hn ih =>
    have hclosed : ∀ a b, a ∈ seen.insert id → p.Edge a b → p.contains b = true →
        b ∈ seen.insert id ∨ b ∈ p.sorted n.children.toList ++ rest := by
      intro a b ha hab hb
      rcases IdSet.mem_insert.mp ha with rfl | ha
      · obtain ⟨n', hn', hchild⟩ := hab
        cases hn.symm.trans hn'
        exact .inr (List.mem_append_left _ (mem_sorted.mpr ⟨hchild, Option.isSome_iff_exists.mp hb⟩))
      · grind [IdSet.mem_insert]
    grind [IdSet.mem_insert]

/-- A walk on an empty record finds all that can be reached. -/
theorem mem_dfs : k ∈ p.dfs stack ∅ ↔ p.Reached stack k := by
  refine ⟨fun h => (reached_of_mem_dfs h).2, ?_⟩
  rintro ⟨hk, r, hr, hreach⟩
  have hempty {j : NodeId} (h : j ∈ (∅ : NodeSet) ∨ j ∈ p.dfs stack ∅) : j ∈ p.dfs stack ∅ :=
    h.resolve_left (IdSet.not_mem_empty j)
  induction hreach with
  | refl => exact hempty (mem_dfs_of_mem hr hk)
  | tail _ hedge ih => exact hempty (mem_dfs_of_edge (by simp) (.inr (ih hedge.contains)) hedge hk)

end DepthFirst

theorem mem_depthFirst : k ∈ p.depthFirst ↔ p.Reached p.roots.toList k := by
  refine mem_dfs.trans (and_congr_right fun hk => ?_)
  simp only [mem_sorted]
  constructor
  · rintro ⟨r, ⟨hr, -⟩, hreach⟩
    exact ⟨r, hr, hreach⟩
  · rintro ⟨r, hr, hreach⟩
    exact ⟨r, ⟨hr, Option.isSome_iff_exists.mp (Reaches.contains hreach hk)⟩, hreach⟩

theorem map_depthFirstNodes : p.depthFirstNodes.map some = p.depthFirst.map p.nodes.get? := by
  have hall : ∀ k ∈ p.depthFirst, ∃ n, p.nodes.get? k = some n := fun k hk =>
    Option.isSome_iff_exists.mp (mem_depthFirst.mp hk).1
  unfold depthFirstNodes
  generalize p.depthFirst = l at hall
  induction l with
  | nil => rfl
  | cons k l ih =>
    obtain ⟨⟨n, hn⟩, hrest⟩ := List.forall_mem_cons.mp hall
    rw [List.filterMap_cons_some hn, List.map_cons, List.map_cons, hn, ih hrest]

-- ---------------------------------------------------------------------------
-- Both traversals
-- ---------------------------------------------------------------------------

/-- On every plan the search for a topological order succeeds exactly where no cycle can be reached. It
then lists what can be reached, each node once and before its children. Where it fails it names
a node on a cycle. A depth-first walk hands out every node that can be reached once, cycles or not. -/
theorem traversals (p : Plan) (roots : List NodeId) :
    ((∃ order, p.topSortFrom roots = .ok order) ↔ ¬ ∃ k, p.Reached roots k ∧ p.OnCycle k) ∧
    (∀ order, p.topSortFrom roots = .ok order → order.Nodup ∧ (∀ k, k ∈ order ↔ p.Reached roots k) ∧
      ∀ u ∈ order, ∀ v, p.Edge u v → p.contains v = true → [u, v].Sublist order) ∧
    (∀ fault, p.topSortFrom roots = .error fault → ∃ k n, p.nodes.get? k = some n ∧ p.Reached roots k ∧
      p.OnCycle k ∧ fault = .cycle n.rel.name) ∧
    p.depthFirst.Nodup ∧ (∀ k, k ∈ p.depthFirst ↔ p.Reached p.roots.toList k) ∧
    p.depthFirstNodes.map some = p.depthFirst.map p.nodes.get? := by
  refine ⟨exists_topSortFrom_iff, fun order h => ?_, fun fault => onCycle_of_topSortFrom, nodup_dfs,
    fun k => mem_depthFirst, map_depthFirstNodes⟩
  have hordered := ordered_of_topSortFrom h
  exact ⟨hordered.nodup, fun k => mem_of_topSortFrom h, fun u hu v => hordered.sublist hu⟩

/-- Two nodes feed each other, and one of them has a child that is not there. -/
def looped : Plan where
  nodes := ((∅ : IdMap Node).insert 0 ⟨0, .store, .blank "a", .unary 1, .singleton 1, .ofList [1, 7]⟩).insert 1
    ⟨1, .read, .blank "b", .unary 0, .singleton 0, .singleton 0⟩
  roots := .singleton 1
  nextId := 2

theorem traversals_looped : looped.topSortFrom [1] = .error (.cycle "b") ∧
    (∃ k n, looped.nodes.get? k = some n ∧ looped.Reached [1] k ∧ looped.OnCycle k ∧ Fault.cycle "b" = .cycle n.rel.name) ∧
    looped.depthFirst = [1, 0] ∧ (∀ k, k ∈ looped.depthFirst ↔ looped.Reached [1] k) := by
  obtain ⟨-, -, hcycle, -, hwalk, -⟩ := traversals looped [1]
  have hget : looped.nodes.get? 0 = some ⟨0, .store, .blank "a", .unary 1, .singleton 1, .ofList [1, 7]⟩ ∧
      looped.nodes.get? 1 = some ⟨1, .read, .blank "b", .unary 0, .singleton 0, .singleton 0⟩ ∧
      looped.nodes.get? 7 = none := ⟨rfl, rfl, rfl⟩
  have hlists : (IdSet.ofList [1, 7]).toList = [1, 7] ∧ (IdSet.singleton 0).toList = [0] := ⟨rfl, rfl⟩
  have hsorted : looped.sorted [1, 7] = [1] ∧ looped.sorted [0] = [0] ∧
      looped.sorted looped.roots.toList = [1] := by decide
  have hreach : looped.reachableFrom [1] = ((IdSet.insert ∅ 1).insert 0).insert 7 := by
    simp [reachableFrom, reach_cons, reach, hget, hlists]
  have hstart : looped.sorted (looped.reachableFrom [1]).toList = [0, 1] := by
    rw [hreach]
    decide
  have hfault : looped.topSortFrom [1] = .error (.cycle "b") := by
    simp [topSortFrom, hstart, topSortInto_cons, topSortInto, hget, hlists, hsorted, Relation.blank,
      bind, Except.bind]
  refine ⟨hfault, hcycle _ hfault, ?_, hwalk⟩
  simp [depthFirst, dfs_cons, dfs, hget, hlists, hsorted]

end Plan

end JointPlan
