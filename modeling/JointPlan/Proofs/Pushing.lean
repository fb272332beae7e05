import JointPlan.Proofs.Surgery

/-!
# Moving a node above its parent

The edit that moves a node above its parent goes through the inputs of the parent
one by one and puts a copy in front of each. An input may occur several times, so
between the steps the plan is not coherent. The steps are followed as functions on
plans and summed up when all of them are done.
-/

namespace JointPlan

namespace Inputs

theorem replaceAt?_eq {i : Inputs} {position : Nat} {new : NodeId} (h : position < i.ids.length) :
    i.replaceAt? position new = some (i.mapIdx fun k x => if k = position then new else x) := by
  cases i with
  | none => simp [ids] at h
  | unary input =>
    obtain rfl : position = 0 := by simpa [ids] using h
    rfl
  | binary left right =>
    obtain rfl | rfl : position = 0 ∨ position = 1 := by simp [ids] at h; omega
    · rfl
    · rfl
  | nary ids =>
    refine (if_pos h).trans ?_
    refine congrArg (some ∘ nary) (List.ext_getElem? fun k => ?_)
    rw [List.getElem?_set, List.getElem?_mapIdx]
    by_cases hk : position = k
    · subst hk
      simp_all [Inputs.ids]
    · simp [hk, Ne.symm hk]

theorem mapIdx_mapIdx {i : Inputs} {f g : Nat → NodeId → NodeId} :
    (i.mapIdx f).mapIdx g = i.mapIdx fun k x => g k (f k x) := by
  cases i with
  | nary ids =>
    simp only [mapIdx, nary.injEq]
    exact List.mapIdx_mapIdx
  | _ => rfl

/-- What `f` does beyond the last input does not matter. -/
theorem mapIdx_congr {i : Inputs} {f g : Nat → NodeId → NodeId}
    (h : ∀ k x, k < i.ids.length → f k x = g k x) : i.mapIdx f = i.mapIdx g := by
  cases i with
  | none => rfl
  | unary input => simp [mapIdx, h 0 input (by simp [ids])]
  | binary left right => simp [mapIdx, h 0 left (by simp [ids]), h 1 right (by simp [ids])]
  | nary inputs =>
    simp only [mapIdx, nary.injEq]
    refine List.ext_getElem (by simp) fun k hk _ => ?_
    simp only [List.getElem_mapIdx]
    exact h k _ (by simpa [ids] using hk)

@[simp] theorem mapIdx_id {i : Inputs} : i.mapIdx (fun _ x => x) = i := by
  cases i with
  | nary inputs =>
    simp only [mapIdx, nary.injEq]
    exact List.mapIdx_eq_iff.mpr (by simp)
  | _ => rfl

end Inputs

namespace Plan

variable {p q : Plan} {top bottom k u x : NodeId} {b t n : Node} {S : Set NodeId}

/-- The readers of `bottom` read `top` instead. -/
def rerouted (p : Plan) (top bottom : NodeId) (b : Node) : Plan := p.adjust fun k n =>
  let n := if k = top then { n with children := n.children.erase bottom ∪ b.children } else n
  if k ∈ b.children then n.swapParent bottom top else n

/-- The readers of `bottom` read `top` instead, and `bottom` is gone. -/
def bypassed (p : Plan) (top bottom : NodeId) (b : Node) : Plan :=
  let moved := p.rerouted top bottom b
  { moved with nodes := moved.nodes.erase bottom }

theorem get?_bypassed : (p.bypassed top bottom b).nodes.get? k =
    if k = bottom then none else (p.nodes.get? k).map fun n =>
      let n := if k = top then { n with children := n.children.erase bottom ∪ b.children } else n
      if k ∈ b.children then n.swapParent bottom top else n := by
  rw [bypassed, IdMap.get?_erase, rerouted, get?_adjust]

theorem Sound.bypassed (hp : p.Sound) : (p.bypassed top bottom b).Sound := by
  intro k m hm
  rw [get?_bypassed] at hm
  split at hm
  · cases hm
  · obtain ⟨n, hn, rfl⟩ := Option.map_eq_some_iff.mp hm
    have := hp k n hn
    dsimp only
    split_ifs <;> exact ⟨this.numbered, this.sized⟩

theorem Linked.inputs_below (hp : p.Linked) (hn : p.nodes.get? k = some n) :
    ∀ x ∈ n.inputs.ids, x < p.nextId ∧ x ≠ k := by
  intro x hx
  have hfeeds : p.Feeds x k := ⟨n, hn, hx⟩
  exact ⟨hp.source_lt hfeeds, hp.ne_of_feeds hfeeds⟩

/-- What feeds a node is not among its readers. -/
theorem Linked.not_mem_children (hp : p.Linked) (hb : p.nodes.get? bottom = some b)
    (hfed : b.inputs = .unary top) : top ∉ b.children := fun h =>
  hp.not_feeds_back ((feeds_unary_iff hb hfed).mpr rfl) ((hp.children hb).mp h)

theorem Linked.get?_bypassed_top (hp : p.Linked) (ht : p.nodes.get? top = some t)
    (hb : p.nodes.get? bottom = some b) (hfed : b.inputs = .unary top) :
    (p.bypassed top bottom b).nodes.get? top =
      some { t with children := t.children.erase bottom ∪ b.children } := by
  have hne : top ≠ bottom := hp.ne_of_feeds ((feeds_unary_iff hb hfed).mpr rfl)
  rw [get?_bypassed, if_neg hne, ht, Option.map_some, if_neg (hp.not_mem_children hb hfed), if_pos rfl]

theorem feeds_bypassed : (p.bypassed top bottom b).Feeds u k ↔ k ≠ bottom ∧
    if k ∈ b.children then (u = top ∧ p.Feeds bottom k) ∨ (u ≠ bottom ∧ p.Feeds u k)
    else p.Feeds u k := by
  unfold Feeds
  rw [get?_bypassed]
  by_cases hk : k = bottom
  · simp [hk]
  · cases hn : p.nodes.get? k with
    | none => simp [hk]
    | some n =>
      have hinputs : (if k = top then { n with children := n.children.erase bottom ∪ b.children } else n).inputs =
          n.inputs := by split <;> rfl
      by_cases hc : k ∈ b.children
      · simp [hk, hc, Node.swapParent, hinputs, Inputs.mem_ids_replace]
      · simp [hk, hc, hinputs]

/-- A node with one input can be taken out. -/
theorem Linked.bypassed (hp : p.Linked) (ht : p.nodes.get? top = some t) (hb : p.nodes.get? bottom = some b)
    (hfed : b.inputs = .unary top) : (p.bypassed top bottom b).Linked := by
  have hbottom {u : NodeId} : p.Feeds u bottom ↔ u = top := feeds_unary_iff hb hfed
  have hchildren {v : NodeId} : v ∈ b.children ↔ p.Feeds bottom v := hp.children hb
  have hne : top ≠ bottom := hp.ne_of_feeds (hbottom.mpr rfl)
  have htop := hp.not_mem_children hb hfed
  have hcases {k : NodeId} {m : Node} (hm : (p.bypassed top bottom b).nodes.get? k = some m) :
      k ≠ bottom ∧ ∃ n, p.nodes.get? k = some n ∧ m.id = n.id ∧
        m.inputs = (if k ∈ b.children then n.inputs.replace bottom top else n.inputs) ∧
        m.parents = (if k ∈ b.children then (n.parents.erase bottom).insert top else n.parents) ∧
        m.children = if k = top then n.children.erase bottom ∪ b.children else n.children := by
    rw [get?_bypassed] at hm
    split at hm
    · cases hm
    · obtain ⟨n, hn, rfl⟩ := Option.map_eq_some_iff.mp hm
      refine ⟨‹_›, n, hn, ?_⟩
      dsimp only
      split_ifs <;> exact ⟨rfl, rfl, rfl, rfl⟩
  constructor
  case keyed =>
    intro k m hm
    obtain ⟨-, n, hn, hid, -⟩ := hcases hm
    exact hid.trans (hp.keyed hn)
  case below =>
    intro k m hm
    obtain ⟨-, n, hn, -⟩ := hcases hm
    exact hp.below hn
  case bounded => exact hp.bounded
  case closed =>
    intro u v h
    obtain ⟨-, h⟩ := feeds_bypassed.mp h
    have hold : u ≠ bottom ∧ ∃ n, p.nodes.get? u = some n := by
      split_ifs at h with hv
      · rcases h with ⟨rfl, -⟩ | ⟨hub, h⟩
        · exact ⟨hne, t, ht⟩
        · exact ⟨hub, hp.closed h⟩
      · exact ⟨fun hub => hv (hchildren.mpr (hub ▸ h)), hp.closed h⟩
    obtain ⟨hub, n, hn⟩ := hold
    exact ⟨_, by rw [get?_bypassed, if_neg hub, hn]; rfl⟩
  case parents =>
    intro k m u hm
    obtain ⟨-, n, hn, -, hinputs, hparents, -⟩ := hcases hm
    rw [hinputs, hparents]
    split
    · exact hp.mem_swapped_parents hn (hchildren.mp ‹_›)
    · exact hp.parents hn
  case children =>
    intro k m v hm
    obtain ⟨hk, n, hn, -, -, -, hc⟩ := hcases hm
    have hkv := hp.children (v := v) hn
    have hkb := hbottom (u := k)
    have hbv := hchildren (v := v)
    have := hp.not_feeds_self (k := bottom)
    rw [hc, feeds_bypassed]
    split_ifs <;> grind [IdSet.mem_union, IdSet.mem_erase]
  case ranked =>
    obtain ⟨rank, hrank⟩ := hp.ranked
    refine ⟨rank, fun {u v} h => ?_⟩
    obtain ⟨-, h⟩ := feeds_bypassed.mp h
    split_ifs at h
    · rcases h with ⟨rfl, hbv⟩ | ⟨-, h⟩
      · exact (hrank (hbottom.mpr rfl)).trans (hrank hbv)
      · exact hrank h
    · exact hrank h

/-- The old node `k` when a copy has been put between `top` and one of its inputs. -/
def liftedNode (top new : NodeId) (position : Nat) (input k : NodeId) (n : Node) : Node :=
  let n := if k = input then (n.dropChild top).addChild new else n
  if k = top then
    { n with
      parents := (n.parents.erase input).insert new
      inputs := n.inputs.mapIdx fun i x => if i = position then new else x }
  else n

/-- A copy of `b` between `top` and its input at a position. -/
def lifted (p : Plan) (top : NodeId) (b : Node) (position : Nat) (input : NodeId) : Plan where
  nodes := (p.nodes.map (liftedNode top p.nextId position input)).insert p.nextId
    { b with id := p.nextId, rel := b.rel.rename s!"{b.rel.name}_{position}",
             inputs := .unary input, parents := .singleton input, children := .singleton top }
  roots := p.roots
  nextId := p.nextId + 1

theorem Touched.lifted {position : Nat} {input : NodeId} (h : Touched S p q) :
    Touched S (p.lifted top b position input) (q.lifted top b position input) := by
  have hnext := nextId_eq_of_skeleton_eq h.skeleton
  have hnode (k : NodeId) (n : Node) : (liftedNode top p.nextId position input k n).skeleton =
      liftedNode top p.nextId position input k n.skeleton := by
    unfold liftedNode
    split_ifs <;> rfl
  constructor
  · have hroots : q.roots = p.roots := roots_eq_of_skeleton_eq h.skeleton
    refine ext_get? (fun k => ?_) hroots (congrArg (· + 1) hnext)
    have hk : (q.nodes.get? k).map Node.skeleton = (p.nodes.get? k).map Node.skeleton := by
      rw [← get?_skeleton, ← get?_skeleton, h.skeleton]
    simp only [get?_skeleton, Plan.lifted, IdMap.get?_insert, IdMap.get?_map, hnext]
    split
    · rfl
    · simp only [Option.map_map, Function.comp_def, hnode]
      simpa only [Option.map_map, Function.comp_def] using
        congrArg (Option.map (liftedNode top p.nextId position input k)) hk
  · intro k hk
    simp only [Plan.lifted, IdMap.get?_insert, IdMap.get?_map, hnext, h.elsewhere k hk]

theorem outline_lifted {position : Nat} {input : NodeId} (h : q.outline = p.outline) :
    (q.lifted top b position input).outline = (p.lifted top b position input).outline := by
  have hnext := nextId_eq_of_outline_eq h
  have hroots : q.roots = p.roots := roots_eq_of_outline_eq h
  have hnode (k : NodeId) (n : Node) : (liftedNode top p.nextId position input k n).outline =
      liftedNode top p.nextId position input k n.outline := by
    unfold liftedNode
    split_ifs <;> rfl
  refine ext_get? (fun k => ?_) hroots (congrArg (· + 1) hnext)
  have hk : (q.nodes.get? k).map Node.outline = (p.nodes.get? k).map Node.outline := by
    rw [← get?_outline, ← get?_outline, h]
  simp only [get?_outline, Plan.lifted, IdMap.get?_insert, IdMap.get?_map, hnext]
  split
  · rfl
  · simp only [Option.map_map, Function.comp_def, hnode]
    simpa only [Option.map_map, Function.comp_def] using
      congrArg (Option.map (liftedNode top p.nextId position input k)) hk

theorem Sound.lifted {position : Nat} {input : NodeId} (hp : p.Sound) (hb : b.Sound) :
    (p.lifted top b position input).Sound := by
  intro k m hm
  rw [Plan.lifted, IdMap.get?_insert, IdMap.get?_map] at hm
  split at hm
  · cases hm
    exact ⟨b.rel.numbered_rename _, fun ds hds => (b.rel.length_rename _).trans (hb.sized ds hds)⟩
  · obtain ⟨n, hn, rfl⟩ := Option.map_eq_some_iff.mp hm
    have := hp k n hn
    unfold liftedNode
    split_ifs <;> exact ⟨this.numbered, this.sized⟩

/-- Copies of `b` between `top` and the inputs from the first one on. -/
def liftedAll (p : Plan) (top : NodeId) (b : Node) (inputs : List NodeId) : Plan :=
  inputs.zipIdx.foldl (fun p e => p.lifted top b e.2 e.1) p

theorem liftedAll_concat {inputs : List NodeId} {input : NodeId} :
    p.liftedAll top b (inputs ++ [input]) =
      (p.liftedAll top b inputs).lifted top b inputs.length input := by
  simp [liftedAll, List.zipIdx_append]

theorem nextId_liftedAll {inputs : List NodeId} :
    (p.liftedAll top b inputs).nextId = p.nextId + inputs.length := by
  induction inputs using List.reverseRecOn with
  | nil => rfl
  | append_singleton inputs input ih => rw [liftedAll_concat, lifted, ih, List.length_append]; rfl

theorem roots_liftedAll {inputs : List NodeId} : (p.liftedAll top b inputs).roots = p.roots := by
  induction inputs using List.reverseRecOn with
  | nil => rfl
  | append_singleton inputs input ih => rw [liftedAll_concat, lifted, ih]

/-- The old node `k` when copies have been put between `top` and `inputs`. -/
def liftedAllNode (top first : NodeId) (inputs : List NodeId) (k : NodeId) (n : Node) : Node :=
  if k = top then
    { n with
      parents := n.parents.diff (.ofList inputs) ∪ freshIds first inputs.length
      inputs := n.inputs.mapIdx fun i x => if i < inputs.length then first + i else x }
  else if k ∈ inputs then { n with children := n.children.erase top ∪ copiesOf first inputs k }
  else n

/-- One more copy at the end. -/
theorem liftedNode_liftedAllNode {top first input k : Nat} {inputs : List Nat}
    (htop : top < first) (hinput : input < first) (hne : input ≠ top) :
    liftedNode top (first + inputs.length) inputs.length input k
        (liftedAllNode top first inputs k n) =
      liftedAllNode top first (inputs ++ [input]) k n := by
  have hcopies {v : Nat} : v ∈ copiesOf first (inputs ++ [input]) k ↔
      v ∈ copiesOf first inputs k ∨ (v = first + inputs.length ∧ k = input) := by
    simp only [mem_copiesOf]
    grind
  unfold liftedNode liftedAllNode
  by_cases hkt : k = top
  · subst hkt
    simp only [if_true, hne.symm, if_false, List.length_append, List.length_singleton,
      Inputs.mapIdx_mapIdx, Node.mk.injEq, true_and, and_true]
    constructor
    · refine Inputs.mapIdx_congr fun i x hi => ?_
      grind
    · ext u
      simp only [IdSet.mem_insert, IdSet.mem_erase, IdSet.mem_union, IdSet.mem_diff,
        IdSet.mem_ofList, mem_freshIds, List.mem_append, List.mem_singleton]
      grind
  · by_cases hki : k = input
    · subst hki
      simp only [hkt, if_false, if_true, List.mem_append, List.mem_singleton, or_true]
      have hempty (h : k ∉ inputs) : copiesOf first inputs k = ∅ := by
        ext v
        grind [mem_copiesOf, IdSet.not_mem_empty]
      split <;> simp only [Node.addChild, Node.dropChild, Node.mk.injEq, true_and] <;> ext v <;>
        grind [IdSet.mem_insert, IdSet.mem_erase, IdSet.mem_union, mem_copiesOf, IdSet.not_mem_empty]
    · have hsame : copiesOf first (inputs ++ [input]) k = copiesOf first inputs k := by
        ext v
        simp [hcopies, hki]
      simp only [hkt, hki, if_false, List.mem_append, List.mem_singleton, or_false, hsame]

theorem get?_liftedAll {inputs : List NodeId} (hp : ∀ {k n}, p.nodes.get? k = some n → k < p.nextId)
    (htop : top < p.nextId) (hinputs : ∀ x ∈ inputs, x < p.nextId ∧ x ≠ top) :
    (p.liftedAll top b inputs).nodes.get? k =
      if p.nextId ≤ k then
        inputs[k - p.nextId]?.map fun input =>
          { b with id := k, rel := b.rel.rename s!"{b.rel.name}_{k - p.nextId}",
                   inputs := .unary input, parents := .singleton input, children := .singleton top }
      else (p.nodes.get? k).map (liftedAllNode top p.nextId inputs k) := by
  induction inputs using List.reverseRecOn with
  | nil =>
    have hid : liftedAllNode top p.nextId [] k = fun n => n := by
      funext n
      have hparents : n.parents.diff (.ofList []) ∪ freshIds p.nextId 0 = n.parents := by
        ext u
        simp
      simp [liftedAllNode, hparents]
    simp only [liftedAll, List.zipIdx_nil, List.foldl_nil, hid, Option.map_id']
    split
    · cases hk : p.nodes.get? k with
      | none => rfl
      | some n => exact absurd (hp hk) (Nat.not_lt.mpr ‹_›)
    · rfl
  | append_singleton inputs input ih =>
    obtain ⟨hinput, hne⟩ := hinputs input (by simp)
    rw [liftedAll_concat, lifted, IdMap.get?_insert, IdMap.get?_map,
      ih fun x hx => hinputs x (by simp [hx]), nextId_liftedAll]
    by_cases hk : k = p.nextId + inputs.length
    · subst hk
      simp
    · by_cases hnew : p.nextId ≤ k
      · have hold : (inputs ++ [input])[k - p.nextId]? = inputs[k - p.nextId]? := by
          rcases Nat.lt_or_gt_of_ne hk with h | h
          · exact List.getElem?_append_left (Nat.sub_lt_left_of_lt_add hnew h)
          · have hlen : inputs.length + 1 ≤ k - p.nextId := Nat.le_sub_of_add_le' h
            rw [List.getElem?_eq_none (by simpa using hlen),
              List.getElem?_eq_none (Nat.le_of_succ_le hlen)]
        have hki : k ≠ input := (hinput.trans_le hnew).ne'
        have hkt : k ≠ top := (htop.trans_le hnew).ne'
        have hsame (n : Node) : liftedNode top (p.nextId + inputs.length) inputs.length input k n = n := by
          simp [liftedNode, hki, hkt]
        simp only [hk, hnew, if_false, if_true, hold, Option.map_map, Function.comp_def, hsame]
      · simp only [hk, hnew, if_false, Option.map_map, Function.comp_def,
          liftedNode_liftedAllNode htop hinput hne]

/-- The readers of `bottom` led to `top` and all copies in place: `bottom` has been moved. -/
theorem liftedAll_bypassed {t : Node} (hp : p.Linked) (ht : p.nodes.get? top = some t)
    (hb : p.nodes.get? bottom = some b) (hfed : b.inputs = .unary top) :
    (p.bypassed top bottom b).liftedAll top b t.inputs.ids =
      p.pushed top bottom t b fun i => b.rel.rename s!"{b.rel.name}_{i}" := by
  have htop_child := hp.not_mem_children hb hfed
  have hbelow {k : NodeId} {n : Node} (h : (p.bypassed top bottom b).nodes.get? k = some n) :
      k < p.nextId := by
    rw [get?_bypassed] at h
    split at h
    · cases h
    · obtain ⟨m, hm, -⟩ := Option.map_eq_some_iff.mp h
      exact hp.below hm
  refine ext_get? (fun k => ?_) roots_liftedAll nextId_liftedAll
  rw [get?_liftedAll hbelow (hp.below ht) (hp.inputs_below ht), get?_bypassed, pushed,
    IdMap.get?_tabulate, show (p.bypassed top bottom b).nextId = p.nextId from rfl]
  by_cases hnew : p.nextId ≤ k
  · rw [if_pos hnew, if_pos hnew]
    split
    · rfl
    · rw [List.getElem?_eq_none (Nat.le_sub_of_add_le' (Nat.not_lt.mp ‹_›))]
      rfl
  · rw [if_neg hnew, if_neg hnew, if_pos (Nat.lt_add_right _ (Nat.not_le.mp hnew))]
    split
    · rfl
    · cases hn : p.nodes.get? k with
      | none => rfl
      | some n =>
        simp only [Option.map_some, Option.some.injEq, liftedAllNode, pushedNode]
        by_cases hk : k = top
        · subst hk
          cases ht.symm.trans hn
          have hparents : t.parents.diff (.ofList t.inputs.ids) = ∅ := by
            ext u
            simp [hp.parents ht]
          simp only [if_true, htop_child, if_false, hparents, Node.mk.injEq, true_and, and_true]
          refine ⟨Inputs.mapIdx_congr fun i x hi => if_pos hi, ?_⟩
          ext u
          simp
        · simp only [hk, if_false]
          split_ifs <;> rfl

/-- A finished edit that has moved the node `b` above its parent `t`. -/
structure Pushed (p : Plan) (top bottom : NodeId) (t b : Node) (q : Plan) : Prop where
  room : p.nextId + t.inputs.ids.length < Word.limit
  upper : p.nodes.get? top = some t
  lower : p.nodes.get? bottom = some b
  fed : b.inputs = .unary top
  single : b.children.size ≤ 1
  outline : q.outline = (p.pushed top bottom t b fun i => b.rel.rename s!"{b.rel.name}_{i}").outline
  touched : p.Sound → Touched ({k | p.nextId ≤ k} ∪ {top} ∪ {c | c ∈ b.children})
    (p.pushed top bottom t b fun i => b.rel.rename s!"{b.rel.name}_{i}") q
  sound : p.Sound → q.Sound

namespace Pushed

variable (h : p.Pushed top bottom t b q)

include h

theorem coherent (hp : p.Coherent) : q.Coherent :=
  (hp.pushed h.upper h.lower h.fed h.room).of_outline_eq h.outline

theorem get?_old (hp : p.Coherent) (hs : p.Sound) (hn : p.nodes.get? k = some n) (hk : k ≠ bottom) :
    ∃ m, q.nodes.get? k = some m ∧
      m.skeleton = (pushedNode top bottom p.nextId t b k n).skeleton := by
  obtain ⟨m, hm, hs⟩ := get?_of_skeleton_eq (h.touched hs).skeleton.symm (get?_pushed_old hp.toLinked hn hk)
  exact ⟨m, hm, hs.symm⟩

end Pushed

end Plan

namespace Edit

open Plan

variable {p q r : Plan} {id top bottom : NodeId} {t b n : Node} {copies : List NodeId}

-- ---------------------------------------------------------------------------
-- Taking a node out
-- ---------------------------------------------------------------------------

theorem reroute_bind {α : Type} {x : Edit α} (ht : p.nodes.get? top = some t)
    (hall : ∀ c ∈ b.children, ∃ n, p.nodes.get? c = some n) (htop : top ∉ b.children) : (do
      modifyNode top fun t => { t with children := t.children.erase bottom ∪ b.children }
      b.children.toList.forM fun child => modifyNode child (Node.swapParent bottom top)
      x : Edit α) p = x (p.rerouted top bottom b) := by
  have hfound : ∀ c ∈ b.children.toList, ∃ n, (p.set top
      { t with children := t.children.erase bottom ∪ b.children }).nodes.get? c = some n := by
    intro c hc
    rw [get?_set]
    split
    · exact ⟨_, rfl⟩
    · exact hall c (IdSet.mem_toList.mp hc)
  rw [modifyNode_bind ht, forM_modifyNode_bind (.inl (IdSet.nodup_toList _)) hfound]
  refine congrArg x (ext_get? (fun k => ?_) rfl rfl)
  simp only [rerouted, get?_adjust, get?_set, IdSet.mem_toList]
  by_cases hk : k = top
  · subst hk
    simp [ht, htop]
  · cases p.nodes.get? k <;> simp [hk]

theorem removeNode_cases (id : NodeId) (hp : p.Linked) : FailsOr (fun r => ∃ parent m n, p.nodes.get? parent = some m ∧
    p.nodes.get? id = some n ∧ n.inputs = .unary parent ∧ r = n.children.toList.forM refreshStorage
      { p.bypassed parent id n with roots := p.roots.erase id }) p (removeNode id p) := by
  refine .bind expectUnary_leads fun _ _ => .bind node_leads fun n hfound => ?_
  obtain ⟨hn, -⟩ := run_node.mp hfound
  change FailsOr _ p (EStateM.run _ p)
  split
  · rename_i parent _ hin
    obtain ⟨m, hm⟩ := hp.closed (u := parent) (v := id) ⟨n, hn, by simp [hin]⟩
    refine .done ⟨parent, m, n, hm, hn, hin, ?_⟩
    exact reroute_bind hm (fun c hc => ((hp.children hn).mp hc).imp fun _ h => h.1) (hp.not_mem_children hn hin)
  · exact .inl ⟨_, rfl⟩

/-- A node with one parent can be taken out. -/
theorem removeNode_eq (ht : p.nodes.get? top = some t) (hb : p.nodes.get? id = some b) (harity : b.op.arity = .unary)
    (hfed : b.inputs = .unary top) (hsize : b.parents.size = 1)
    (hall : ∀ c ∈ b.children, ∃ n, p.nodes.get? c = some n) (htop : top ∉ b.children) :
    removeNode id p = b.children.toList.forM refreshStorage
      { p.bypassed top id b with roots := p.roots.erase id } := by
  unfold removeNode
  rw [bind_of_ok (a := ()) (run_expectUnary.mpr ⟨⟨b, hb, harity⟩, rfl⟩), bind_of_ok (run_node.mpr ⟨hb, rfl⟩)]
  simp only [hsize, hfed]
  rw [reroute_bind ht hall htop]
  rfl

-- ---------------------------------------------------------------------------
-- Moving a node
-- ---------------------------------------------------------------------------

/-- One copy. -/
theorem pushCopy_eq {position : Nat} {input : NodeId} {i : Node} (ht : p.nodes.get? top = some t)
    (hi : p.nodes.get? input = some i) (htop : top ≠ p.nextId) (hinput : input ≠ p.nextId)
    (hne : input ≠ top) (hposition : position < t.inputs.ids.length) (room : p.nextId + 1 < Word.limit) :
    pushCopy top n position input p = (do refresh p.nextId; return p.nextId : Edit NodeId)
      (p.lifted top n position input) := by
  unfold pushCopy
  rw [bind_of_ok (addOrphan_eq room), modifyNode_bind (by rw [get?_joined_none, if_pos rfl]),
    modifyNode_bind (n := i) (by simp [get?_set, get?_joined_none, hinput, hi]),
    modifyNode_bind (n := t) (by simp [get?_set, get?_joined_none, htop, hne.symm, ht]),
    bind_of_ok (run_node.mpr ⟨by rw [get?_set, if_pos rfl], rfl⟩), Inputs.replaceAt?_eq hposition]
  dsimp only
  rw [modifyNode_bind (by rw [get?_set, if_pos rfl])]
  refine congrArg (refresh p.nextId >>= fun _ => (pure p.nextId : Edit NodeId))
    (ext_get? (fun k => ?_) rfl rfl)
  simp only [lifted, get?_set, get?_joined_none, IdMap.get?_insert, IdMap.get?_map]
  by_cases hk : k = p.nextId
  · simp [hk, htop.symm, hinput.symm]
  · by_cases hkt : k = top
    · subst hkt
      simp [hk, ht, liftedNode, hne.symm]
    · by_cases hki : k = input
      · subst hki
        simp [hk, hkt, hi, liftedNode]
      · cases p.nodes.get? k <;> simp [hk, hkt, hki, liftedNode]

theorem pushCopy_eq_error {position : Nat} {input : NodeId} (full : ¬ p.nextId + 1 < Word.limit) :
    pushCopy top n position input p = .error .exhausted p := bind_of_error (addOrphan_eq_error full)

/-- Nodes stand where they stood before the copies. -/
theorem exists_get?_of_liftedAll {k : NodeId} {inputs : List NodeId}
    (hbelow : ∀ {k n}, p.nodes.get? k = some n → k < p.nextId) (htop : top < p.nextId)
    (hinputs : ∀ x ∈ inputs, x < p.nextId ∧ x ≠ top) (h : r.outline = (p.liftedAll top b inputs).outline)
    (hn : p.nodes.get? k = some n) :
    ∃ m, r.nodes.get? k = some m ∧ m.inputs.ids.length = n.inputs.ids.length := by
  have hk := get?_liftedAll (b := b) (k := k) hbelow htop hinputs
  rw [if_neg (Nat.not_le.mpr (hbelow hn)), hn, Option.map_some] at hk
  obtain ⟨m, hm, hs⟩ := get?_of_outline_eq h.symm hk
  refine ⟨m, hm, ?_⟩
  rw [← Node.inputs_eq_of_outline_eq hs, liftedAllNode]
  split_ifs <;> simp

/-- The copies in front of the inputs that are still to come. -/
theorem run_pushCopies (hbelow : ∀ {k n}, p.nodes.get? k = some n → k < p.nextId)
    (ht : p.nodes.get? top = some t)
    (hinputs : ∀ x ∈ t.inputs.ids, (∃ n, p.nodes.get? x = some n) ∧ x ≠ top)
    {done rest : List NodeId} (hids : t.inputs.ids = done ++ rest)
    (h : r.outline = (p.liftedAll top b done).outline)
    (hsound : p.Sound → b.Sound → Touched {k | p.nextId ≤ k} (p.liftedAll top b done) r ∧ r.Sound)
    (hr : r.nextId < Word.limit)
    (run : ((rest.zipIdx done.length).mapM
      fun (input, position) => pushCopy top b position input : Edit (List NodeId)) r = .ok copies q) :
    q.outline = (p.liftedAll top b t.inputs.ids).outline ∧
      (p.Sound → b.Sound → Touched {k | p.nextId ≤ k} (p.liftedAll top b t.inputs.ids) q ∧ q.Sound) ∧
      q.nextId < Word.limit := by
  induction rest generalizing done r copies with
  | nil =>
    obtain ⟨-, rfl⟩ := run_mapM_nil.mp run
    rw [hids, List.append_nil]
    exact ⟨h, hsound, hr⟩
  | cons input rest ih =>
    obtain ⟨copy, r', copies', hcopy, run, -⟩ := run_mapM_cons.mp run
    have hnext : r.nextId = p.nextId + done.length :=
      (nextId_eq_of_outline_eq h).trans nextId_liftedAll
    have hle : p.nextId ≤ r.nextId := hnext ▸ Nat.le_add_right _ _
    have hdone : ∀ x ∈ done, x < p.nextId ∧ x ≠ top := by
      intro x hx
      obtain ⟨⟨n, hn⟩, hxt⟩ := hinputs x (by simp [hids, hx])
      exact ⟨hbelow hn, hxt⟩
    obtain ⟨⟨i, hi⟩, hne⟩ := hinputs input (by simp [hids])
    obtain ⟨t', ht', hlength⟩ := exists_get?_of_liftedAll hbelow (hbelow ht) hdone h ht
    obtain ⟨i', hi', -⟩ := exists_get?_of_liftedAll hbelow (hbelow ht) hdone h hi
    have hcopy : pushCopy top b done.length input r = .ok copy r' := hcopy
    have hlimit : r.nextId + 1 < Word.limit := by
      by_contra full
      cases (pushCopy_eq_error full).symm.trans hcopy
    rw [pushCopy_eq ht' hi' ((hbelow ht).trans_le hle).ne ((hbelow hi).trans_le hle).ne hne
      (by simp [hlength, hids]) hlimit] at hcopy
    obtain ⟨_, _, hrefresh, hpure⟩ := run_bind.mp hcopy
    obtain ⟨-, rfl⟩ := run_pure.mp hpure
    have hdrawn := refresh_redraws.of_ok hrefresh
    have hr' := (nextId_eq_of_outline_eq hdrawn).trans_lt hlimit
    have hids' : t.inputs.ids = (done ++ [input]) ++ rest := by simp [hids]
    refine ih hids' ?_ (fun hp hb => ?_) hr' (by simpa using run)
    · rw [liftedAll_concat]
      exact hdrawn.trans (outline_lifted h)
    · obtain ⟨htouched, hs⟩ := hsound hp hb
      obtain ⟨htouched', hs'⟩ := touched_of_refresh (hs.lifted hb) hrefresh
      rw [liftedAll_concat]
      exact ⟨htouched.lifted.trans (htouched'.mono (by simpa using hle)), hs'⟩

theorem bypass_bind {α : Type} {x : Node → Edit α} (hp : p.Linked) (ht : p.nodes.get? top = some t)
    (hb : p.nodes.get? bottom = some b) (hfed : b.inputs = .unary top) : (do
      modifyNode top fun t => { t with children := t.children.erase bottom ∪ b.children }
      b.children.toList.forM fun child => modifyNode child (Node.swapParent bottom top)
      modify fun p => { p with nodes := p.nodes.erase bottom }
      x (← node top) : Edit α) p =
      x { t with children := t.children.erase bottom ∪ b.children } (p.bypassed top bottom b) := by
  have hall : ∀ c ∈ b.children, ∃ n, p.nodes.get? c = some n := fun c hc =>
    ((hp.children hb).mp hc).imp fun _ h => h.1
  rw [reroute_bind ht hall (hp.not_mem_children hb hfed), bind_of_ok (a := ()) (run_modify.mpr rfl)]
  have hnode := run_node.mpr ⟨hp.get?_bypassed_top ht hb hfed, rfl⟩
  exact (bind_of_ok hnode).trans rfl

/-- What is left to do once the moved node has been taken out. -/
def placeCopies (top : NodeId) (t b : Node) : Edit (List NodeId) := do
  let copies ← t.inputs.ids.zipIdx.mapM fun (input, position) => pushCopy top b position input
  refresh top
  b.children.toList.forM refreshStorage
  return copies

theorem run_checkPushDown {u : Unit} : checkPushDown top bottom p = .ok u q ↔ p = q ∧ ∃ b,
    p.nodes.get? bottom = some b ∧ b.op.arity = .unary ∧ b.children.size ≤ 1 ∧ b.inputs = .unary top := by
  simp only [checkPushDown, run_bind, run_expectUnary, run_node, run_guard, run_check, not_lt, not_not,
    ne_eq]
  constructor
  · rintro ⟨_, _, ⟨⟨b, hb, harity⟩, rfl⟩, b', _, ⟨hb', rfl⟩, hsingle, hfed, rfl⟩
    cases hb.symm.trans hb'
    exact ⟨rfl, b, hb, harity, hsingle, hfed⟩
  · rintro ⟨rfl, b, hb, harity, hsingle, hfed⟩
    exact ⟨(), p, ⟨⟨b, hb, harity⟩, rfl⟩, b, p, ⟨hb, rfl⟩, hsingle, hfed, rfl⟩

theorem pushDown_eq (hp : p.Linked) (ht : p.nodes.get? top = some t) (hb : p.nodes.get? bottom = some b)
    (harity : b.op.arity = .unary) (hsingle : b.children.size ≤ 1) (hfed : b.inputs = .unary top) :
    pushDown top bottom p = placeCopies top t b (p.bypassed top bottom b) := by
  unfold pushDown
  rw [bind_of_ok (a := ()) (run_checkPushDown.mpr ⟨rfl, b, hb, harity, hsingle, hfed⟩),
    bind_of_ok (run_node.mpr ⟨hb, rfl⟩)]
  exact bypass_bind hp ht hb hfed

theorem pushDown_cases (top bottom : NodeId) (hp : p.Linked) : FailsOr (fun r => ∃ t b, p.nodes.get? top = some t ∧
    p.nodes.get? bottom = some b ∧ b.inputs = .unary top ∧ b.children.size ≤ 1 ∧
      r = placeCopies top t b (p.bypassed top bottom b)) p (pushDown top bottom p) := by
  refine .bind checkPushDown_leads fun _ hcheck => .bind node_leads fun b hfound => .done ?_
  obtain ⟨-, b', hb', -, hsingle, hfed⟩ := run_checkPushDown.mp hcheck
  obtain ⟨hb, -⟩ := run_node.mp hfound
  cases hb.symm.trans hb'
  obtain ⟨t, ht⟩ := hp.closed (u := top) (v := bottom) ⟨b, hb, by simp [hfed]⟩
  exact ⟨t, b, ht, hb, hfed, hsingle, bypass_bind hp ht hb hfed⟩

/-- The whole move. -/
theorem pushed_of_pushDown (hp : p.Linked) (run : pushDown top bottom p = .ok copies q) :
    ∃ t b, p.Pushed top bottom t b q := by
  have h := pushDown_cases top bottom hp
  rw [run] at h
  obtain ⟨t, b, ht, hb, hfed, hsingle, heq⟩ := h.of_ok
  obtain ⟨_, q₁, hcopies, heq⟩ := run_bind.mp heq.symm
  obtain ⟨_, q₂, hrefresh, heq⟩ := run_bind.mp heq
  obtain ⟨_, q, hstorage, hpure⟩ := run_bind.mp heq
  obtain ⟨rfl, rfl⟩ := run_pure.mp hpure
  have hlinked := hp.bypassed ht hb hfed
  have htop := hp.get?_bypassed_top ht hb hfed
  have hinputs : ∀ x ∈ t.inputs.ids, (∃ n, (p.bypassed top bottom b).nodes.get? x = some n) ∧ x ≠ top := by
    intro x hx
    exact ⟨hlinked.closed ⟨_, htop, hx⟩, fun h => hlinked.not_feeds_self (k := top) ⟨_, htop, h ▸ hx⟩⟩
  obtain ⟨h₁, hs₁, hlimit⟩ := run_pushCopies (p := p.bypassed top bottom b) hlinked.below htop
    hinputs (show _ = [] ++ _ from rfl) rfl (fun hs _ => ⟨.refl, hs⟩) hp.bounded hcopies
  change q₁.outline = ((p.bypassed top bottom b).liftedAll top b t.inputs.ids).outline at h₁
  change _ → _ → Touched _ ((p.bypassed top bottom b).liftedAll top b t.inputs.ids) q₁ ∧ _ at hs₁
  rw [liftedAll_bypassed hp ht hb hfed] at h₁ hs₁
  have hloop : Renews {c | c ∈ b.children} (b.children.toList.forM refreshStorage) :=
    .forM fun c hc => Renews.refreshStorage.mono (by simpa using hc)
  have h₂ : Renewed ({k | p.nextId ≤ k} ∪ {top} ∪ {c | c ∈ b.children}) q₁ q :=
    ((Renews.refresh hrefresh).mono
      (Set.subset_union_of_subset_left Set.subset_union_right _)).trans
      ((hloop hstorage).mono Set.subset_union_right)
  have hnext : q₁.nextId = p.nextId + t.inputs.ids.length := nextId_eq_of_outline_eq h₁
  refine ⟨t, b, hnext ▸ hlimit, ht, hb, hfed, hsingle, h₂.outline.trans h₁, fun hs => ?_, fun hs => ?_⟩
  · obtain ⟨ht₁, hs₁⟩ := hs₁ hs.bypassed (hs _ _ hb)
    exact (ht₁.mono (Set.subset_union_of_subset_left Set.subset_union_left _)).trans (h₂.touched hs₁)
  · exact h₂.sound (hs₁ hs.bypassed (hs _ _ hb)).2

end Edit

end JointPlan
