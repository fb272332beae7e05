import JointPlan.Proofs.Coherence

/-!
# Changes of shape

The ways in which the graph of a plan is changed, as functions on plans: a node added
behind its inputs, a node spliced in below another one, a copy of a node for one of its
children, and a node moved above its parent. Each keeps the edges of a plan linked, and
a coherent plan coherent.
-/

namespace JointPlan

namespace IdSet

/-- The members of `s` that are not in `t`. -/
def diff (s t : IdSet) : IdSet := ⟨s.toList.filter (· ∉ t), s.ascending.filter _⟩

@[simp] theorem mem_diff {a : Nat} {s t : IdSet} : a ∈ s.diff t ↔ a ∈ s ∧ a ∉ t := by
  rw [← mem_toList]
  simp [diff]

@[simp] theorem insert_empty {a : Nat} : (∅ : IdSet).insert a = singleton a := rfl

theorem diff_singleton {a : Nat} {s : IdSet} : s.diff (singleton a) = s.erase a := by
  ext b
  simp

theorem insert_diff_self {a : Nat} {s : IdSet} : (s.diff s).insert a = singleton a := by
  ext b
  simp

theorem eq_of_size_le_one {s : IdSet} (h : s.size ≤ 1) {a b : Nat} (ha : a ∈ s) (hb : b ∈ s) : a = b := by
  rw [← mem_toList] at ha hb
  rw [size] at h
  generalize s.toList = l at h ha hb
  match l with
  | [] => cases ha
  | [c] => rw [List.mem_singleton.mp ha, List.mem_singleton.mp hb]
  | _ :: _ :: _ => simp at h

theorem size_le_one {s : IdSet} (h : ∀ a ∈ s, ∀ b ∈ s, a = b) : s.size ≤ 1 := by
  have hl : ∀ a ∈ s.toList, ∀ b ∈ s.toList, a = b := fun a ha b hb =>
    h a (mem_toList.mp ha) b (mem_toList.mp hb)
  have hnodup := nodup_toList s
  rw [size]
  generalize s.toList = l at hl hnodup
  match l with
  | [] | [_] => simp
  | a :: b :: _ => simp [hl a (by simp) b (by simp)] at hnodup

theorem exists_mem_of_size_pos {s : IdSet} (h : 0 < s.size) : ∃ a, a ∈ s := by
  obtain ⟨a, ha⟩ := List.exists_mem_of_length_pos h
  exact ⟨a, mem_toList.mp ha⟩

theorem isEmpty_eq_false_iff {s : IdSet} : s.isEmpty = false ↔ ∃ a, a ∈ s := by
  rw [← Bool.not_eq_true, isEmpty_iff]
  constructor
  · intro h
    by_contra hnone
    exact h (ext fun a => ⟨fun ha => (hnone ⟨a, ha⟩).elim, fun ha => (not_mem_empty a ha).elim⟩)
  · rintro ⟨a, ha⟩ rfl
    exact not_mem_empty a ha

end IdSet

namespace Inputs

theorem mem_ids_replace {i : Inputs} {old new u : NodeId} :
    u ∈ (i.replace old new).ids ↔ (u = new ∧ old ∈ i.ids) ∨ (u ≠ old ∧ u ∈ i.ids) := by
  rw [replace, ids_map, List.mem_map]
  constructor
  · rintro ⟨x, hx, rfl⟩
    split
    · rename_i h
      exact .inl ⟨rfl, h ▸ hx⟩
    · exact .inr ⟨‹_›, hx⟩
  · rintro (⟨rfl, h⟩ | ⟨hne, h⟩)
    · exact ⟨old, h, if_pos rfl⟩
    · exact ⟨u, h, if_neg hne⟩

@[simp] theorem fits_map {i : Inputs} {f : NodeId → NodeId} {a : Arity} : (i.map f).fits a = i.fits a := by
  cases i <;> cases a <;> rfl

/-- Change every input; `f` is told its position. -/
def mapIdx (f : Nat → NodeId → NodeId) : Inputs → Inputs
  | .none => .none
  | .unary input => .unary (f 0 input)
  | .binary left right => .binary (f 0 left) (f 1 right)
  | .nary inputs => .nary (inputs.mapIdx f)

@[simp] theorem ids_mapIdx {i : Inputs} {f : Nat → NodeId → NodeId} :
    (i.mapIdx f).ids = i.ids.mapIdx f := by
  cases i <;> rfl

@[simp] theorem fits_mapIdx {i : Inputs} {f : Nat → NodeId → NodeId} {a : Arity} :
    (i.mapIdx f).fits a = i.fits a := by
  cases i <;> cases a <;> rfl

end Inputs

namespace IdMap

variable {α : Type}

/-- The map that is given by a function on the keys below a bound. -/
def tabulate (bound : Nat) (f : Nat → Option α) : IdMap α where
  entries := (List.range bound).filterMap fun k => (f k).map (k, ·)
  ascending := by
    rw [List.map_filterMap]
    refine List.pairwise_lt_range.filterMap _ fun i j hij a ha b hb => ?_
    cases hi : f i <;> cases hj : f j <;> simp_all

theorem get?_tabulate {bound : Nat} {f : Nat → Option α} (k : Nat) :
    (tabulate bound f).get? k = if k < bound then f k else none := by
  ext v
  rw [← mem_entries_iff, tabulate, List.mem_filterMap]
  split
  · rename_i hk
    constructor
    · rintro ⟨j, -, hj⟩
      obtain ⟨w, hw, heq⟩ := Option.map_eq_some_iff.mp hj
      cases heq
      exact hw
    · intro hv
      exact ⟨k, List.mem_range.mpr hk, by rw [hv]; rfl⟩
  · rename_i hk
    simp only [reduceCtorEq, iff_false, not_exists, not_and]
    intro j hj hjk
    obtain ⟨w, -, heq⟩ := Option.map_eq_some_iff.mp hjk
    cases heq
    exact hk (List.mem_range.mp hj)

end IdMap

namespace Plan

variable {p : Plan} {parent u v k : NodeId} {cs : NodeSet} {op : Op} {rel : Relation} {n : Node}

/-- A node that reads `new` in place of `old` lists it as a parent in its place. -/
theorem Linked.mem_swapped_parents {old new : NodeId} (hp : p.Linked) (hn : p.nodes.get? k = some n)
    (h : p.Feeds old k) : u ∈ (n.parents.erase old).insert new ↔ u ∈ (n.inputs.replace old new).ids := by
  have hold : old ∈ n.inputs.ids := (feeds_iff hn).mp h
  simp only [IdSet.mem_insert, IdSet.mem_erase, Inputs.mem_ids_replace, hp.parents hn, hold, and_true,
    and_comm (a := u ∈ _)]

-- ---------------------------------------------------------------------------
-- Adding a node
-- ---------------------------------------------------------------------------

/-- The node `k` when `new` reads `inputs`. -/
def fedNode (new : NodeId) (inputs : Inputs) (k : NodeId) (n : Node) : Node :=
  if k ∈ inputs.ids then n.addChild new else n

section FedNode

variable {new : NodeId} {inputs : Inputs}

@[simp] theorem fedNode_id : (fedNode new inputs k n).id = n.id := by unfold fedNode; split <;> rfl

@[simp] theorem fedNode_op : (fedNode new inputs k n).op = n.op := by unfold fedNode; split <;> rfl

@[simp] theorem fedNode_rel : (fedNode new inputs k n).rel = n.rel := by unfold fedNode; split <;> rfl

@[simp] theorem fedNode_inputs : (fedNode new inputs k n).inputs = n.inputs := by
  unfold fedNode; split <;> rfl

@[simp] theorem fedNode_parents : (fedNode new inputs k n).parents = n.parents := by
  unfold fedNode; split <;> rfl

theorem mem_fedNode_children : v ∈ (fedNode new inputs k n).children ↔
    v ∈ n.children ∨ v = new ∧ k ∈ inputs.ids := by
  unfold fedNode
  split <;> simp_all [Node.addChild, or_comm]

end FedNode

/-- The plan with a new node that is fed by `inputs`. -/
def joined (p : Plan) (op : Op) (rel : Relation) (inputs : Inputs) : Plan where
  nodes := (p.nodes.map (fedNode p.nextId inputs)).insert p.nextId
    { id := p.nextId, op, rel, inputs, parents := .ofList inputs.ids, children := ∅ }
  roots := p.roots
  nextId := p.nextId + 1

section Joined

variable {inputs : Inputs} {m : Node}

theorem get?_joined (k : NodeId) : (p.joined op rel inputs).nodes.get? k =
    if k = p.nextId then
      some { id := p.nextId, op, rel, inputs, parents := .ofList inputs.ids, children := ∅ }
    else (p.nodes.get? k).map (fedNode p.nextId inputs k) := by
  rw [joined, IdMap.get?_insert, IdMap.get?_map]

theorem get?_joined_eq_some (h : (p.joined op rel inputs).nodes.get? k = some m) :
    (k = p.nextId ∧
      m = { id := p.nextId, op, rel, inputs, parents := .ofList inputs.ids, children := ∅ }) ∨
    (k ≠ p.nextId ∧ ∃ n, p.nodes.get? k = some n ∧ m = fedNode p.nextId inputs k n) := by
  rw [get?_joined] at h
  split at h
  · exact .inl ⟨‹_›, (Option.some.inj h).symm⟩
  · obtain ⟨n, hn, rfl⟩ := Option.map_eq_some_iff.mp h
    exact .inr ⟨‹_›, n, hn, rfl⟩

theorem feeds_joined : (p.joined op rel inputs).Feeds u v ↔
    if v = p.nextId then u ∈ inputs.ids else p.Feeds u v := by
  unfold Feeds
  rw [get?_joined]
  by_cases hv : v = p.nextId
  · simp [hv]
  · cases hn : p.nodes.get? v <;> simp [hv]

theorem Linked.joined (hp : p.Linked) (hin : ∀ u ∈ inputs.ids, ∃ n, p.nodes.get? u = some n)
    (room : p.nextId + 1 < Word.limit) : (p.joined op rel inputs).Linked := by
  have hself : p.nextId ∉ inputs.ids := fun h => by
    obtain ⟨n, hn⟩ := hin _ h
    exact hp.ne_nextId hn rfl
  constructor
  case keyed =>
    intro k m hm
    rcases get?_joined_eq_some hm with ⟨rfl, rfl⟩ | ⟨-, n, hn, rfl⟩
    · rfl
    · exact fedNode_id.trans (hp.keyed hn)
  case below =>
    intro k m hm
    rcases get?_joined_eq_some hm with ⟨rfl, rfl⟩ | ⟨-, n, hn, rfl⟩
    · exact Nat.lt_succ_self _
    · exact (hp.below hn).trans (Nat.lt_succ_self _)
  case bounded => exact room
  case closed =>
    intro u v h
    have hold : ∃ n, p.nodes.get? u = some n := by
      rw [feeds_joined] at h
      split at h
      · exact hin u h
      · exact hp.closed h
    obtain ⟨n, hn⟩ := hold
    exact ⟨_, by rw [get?_joined, if_neg (hp.ne_nextId hn), hn, Option.map_some]⟩
  case parents =>
    intro k m u hm
    rcases get?_joined_eq_some hm with ⟨rfl, rfl⟩ | ⟨-, n, hn, rfl⟩
    · simp
    · simpa using hp.parents hn
  case children =>
    intro k m v hm
    rw [feeds_joined]
    rcases get?_joined_eq_some hm with ⟨rfl, rfl⟩ | ⟨hk, n, hn, rfl⟩
    · have := hp.not_nextId_feeds (v := v)
      simp only [IdSet.not_mem_empty, false_iff]
      split <;> assumption
    · have := hp.children (v := v) hn
      have := hp.not_feeds_nextId (u := k)
      rw [mem_fedNode_children]
      grind
  case ranked =>
    obtain ⟨rank, hrank⟩ := hp.ranked
    refine ⟨fun k => if k = p.nextId then (inputs.ids.map rank).sum + 1 else rank k, fun {u v} h => ?_⟩
    have hu : u ≠ p.nextId := by
      rintro rfl
      rw [feeds_joined] at h
      split at h
      · exact hself h
      · exact hp.not_nextId_feeds h
    rw [feeds_joined] at h
    simp only [hu, if_false]
    split at h
    · rw [if_pos ‹_›]
      exact Nat.lt_succ_of_le (List.single_le_sum (by simp) _ (List.mem_map_of_mem h))
    · rw [if_neg ‹_›]
      exact hrank h

end Joined

-- ---------------------------------------------------------------------------
-- Splicing in a node
-- ---------------------------------------------------------------------------

/-- The node `k` when `new` stands between `parent` and its children `cs`. -/
def relinked (parent new : NodeId) (cs : NodeSet) (k : NodeId) (n : Node) : Node :=
  let n := if k = parent then { n with children := (n.children.diff cs).insert new } else n
  if k ∈ cs then n.swapParent parent new else n

section Relinked

variable {new : NodeId}

@[simp] theorem relinked_id : (relinked parent new cs k n).id = n.id := by
  unfold relinked
  split_ifs <;> rfl

@[simp] theorem relinked_op : (relinked parent new cs k n).op = n.op := by
  unfold relinked
  split_ifs <;> rfl

@[simp] theorem relinked_rel : (relinked parent new cs k n).rel = n.rel := by
  unfold relinked
  split_ifs <;> rfl

theorem relinked_inputs : (relinked parent new cs k n).inputs =
    if k ∈ cs then n.inputs.replace parent new else n.inputs := by
  unfold relinked
  split_ifs <;> rfl

theorem relinked_parents : (relinked parent new cs k n).parents =
    if k ∈ cs then (n.parents.erase parent).insert new else n.parents := by
  unfold relinked
  split_ifs <;> rfl

theorem relinked_children : (relinked parent new cs k n).children =
    if k = parent then (n.children.diff cs).insert new else n.children := by
  unfold relinked
  split_ifs <;> rfl

end Relinked

/-- The node `new` between `parent` and its children `cs`. -/
def spliceAt (p : Plan) (new parent : NodeId) (cs : NodeSet) (op : Op) (rel : Relation) : Plan :=
  { p with
    nodes := (p.nodes.map (relinked parent new cs)).insert new
      { id := new, op, rel, inputs := .unary parent, parents := .singleton parent, children := cs } }

/-- A new node between `parent` and its children `cs`. -/
def splice (p : Plan) (parent : NodeId) (cs : NodeSet) (op : Op) (rel : Relation) : Plan :=
  p.reserve.spliceAt p.nextId parent cs op rel

section Splice

variable {new : NodeId}

theorem get?_spliceAt (k : NodeId) : (p.spliceAt new parent cs op rel).nodes.get? k =
    if k = new then
      some { id := new, op, rel, inputs := .unary parent, parents := .singleton parent, children := cs }
    else (p.nodes.get? k).map (relinked parent new cs k) := by
  rw [spliceAt, IdMap.get?_insert, IdMap.get?_map]

theorem feeds_spliceAt : (p.spliceAt new parent cs op rel).Feeds u v ↔
    if v = new then u = parent
    else if v ∈ cs then (u = new ∧ p.Feeds parent v) ∨ (u ≠ parent ∧ p.Feeds u v)
    else p.Feeds u v := by
  unfold Feeds
  rw [get?_spliceAt]
  by_cases hv : v = new
  · simp [hv, Inputs.ids]
  · cases hn : p.nodes.get? v with
    | none => simp [hv]
    | some n =>
      by_cases hc : v ∈ cs
      · simp [hv, hc, relinked_inputs, Inputs.mem_ids_replace]
      · simp [hv, hc, relinked_inputs]

/-- What a lookup finds when a node has been spliced in. -/
theorem get?_spliceAt_eq_some {m : Node} (hm : (p.spliceAt new parent cs op rel).nodes.get? k = some m) :
    (k = new ∧ m = { id := new, op, rel, inputs := .unary parent, parents := .singleton parent, children := cs }) ∨
    (k ≠ new ∧ ∃ n, p.nodes.get? k = some n ∧ m = relinked parent new cs k n) := by
  rw [get?_spliceAt] at hm
  split at hm
  · exact .inl ⟨‹_›, (Option.some.inj hm).symm⟩
  · obtain ⟨n, hn, rfl⟩ := Option.map_eq_some_iff.mp hm
    exact .inr ⟨‹_›, n, hn, rfl⟩

theorem get?_splice (k : NodeId) : (p.splice parent cs op rel).nodes.get? k =
    if k = p.nextId then
      some { id := p.nextId, op, rel, inputs := .unary parent, parents := .singleton parent,
             children := cs }
    else (p.nodes.get? k).map (relinked parent p.nextId cs k) := get?_spliceAt k

theorem feeds_splice : (p.splice parent cs op rel).Feeds u v ↔
    if v = p.nextId then u = parent
    else if v ∈ cs then (u = p.nextId ∧ p.Feeds parent v) ∨ (u ≠ parent ∧ p.Feeds u v)
    else p.Feeds u v := feeds_spliceAt

theorem get?_splice_eq_some {m : Node} (hm : (p.splice parent cs op rel).nodes.get? k = some m) :
    (k = p.nextId ∧ m = { id := p.nextId, op, rel, inputs := .unary parent, parents := .singleton parent, children := cs }) ∨
    (k ≠ p.nextId ∧ ∃ n, p.nodes.get? k = some n ∧ m = relinked parent p.nextId cs k n) :=
  get?_spliceAt_eq_some hm

theorem Linked.reserve (hp : p.Linked) (room : p.nextId + 1 < Word.limit) : p.reserve.Linked :=
  { hp with below := fun hn => (hp.below hn).trans (Nat.lt_succ_self _), bounded := room }

/-- A node without edges can be spliced in. -/
theorem Linked.spliceAt (hp : p.Linked) (hn : p.nodes.get? parent = some n)
    (hcs : ∀ c ∈ cs, c ∈ n.children) (hnew : new < p.nextId) (hne : parent ≠ new)
    (hin : ∀ u, ¬ p.Feeds u new) (hout : ∀ v, ¬ p.Feeds new v) :
    (p.spliceAt new parent cs op rel).Linked := by
  have hfed : ∀ c ∈ cs, p.Feeds parent c := fun c hc => (hp.children hn).mp (hcs c hc)
  have hcs_new : new ∉ cs := fun h => hin parent (hfed _ h)
  have hparent_cs : parent ∉ cs := fun h => hp.not_feeds_self (hfed _ h)
  constructor
  case keyed =>
    intro k m hm
    rcases get?_spliceAt_eq_some hm with ⟨rfl, rfl⟩ | ⟨-, n, hn, rfl⟩
    · rfl
    · exact relinked_id.trans (hp.keyed hn)
  case below =>
    intro k m hm
    rcases get?_spliceAt_eq_some hm with ⟨rfl, rfl⟩ | ⟨-, n, hn, rfl⟩
    · exact hnew
    · exact hp.below hn
  case bounded => exact hp.bounded
  case closed =>
    intro u v h
    rw [feeds_spliceAt] at h
    rw [get?_spliceAt]
    by_cases hu : u = new
    · exact ⟨_, if_pos hu⟩
    · have hold : ∃ m, p.nodes.get? u = some m := by
        split_ifs at h
        · exact ⟨n, h ▸ hn⟩
        · exact hp.closed (h.resolve_left fun h => hu h.1).2
        · exact hp.closed h
      obtain ⟨m, hm⟩ := hold
      exact ⟨_, by rw [if_neg hu, hm]; rfl⟩
  case parents =>
    intro k m u hm
    rcases get?_spliceAt_eq_some hm with ⟨rfl, rfl⟩ | ⟨-, n, hn, rfl⟩
    · simp [Inputs.ids]
    · rw [relinked_parents, relinked_inputs]
      split
      · exact hp.mem_swapped_parents hn (hfed k ‹_›)
      · exact hp.parents hn
  case children =>
    intro k m v hm
    rw [feeds_spliceAt]
    rcases get?_spliceAt_eq_some hm with ⟨rfl, rfl⟩ | ⟨hk, n', hn', rfl⟩
    · have := hout v
      grind
    · rw [relinked_children]
      have := hp.children (v := v) hn'
      have := hin k
      grind [IdSet.mem_insert, IdSet.mem_diff]
  case ranked =>
    obtain ⟨rank, hrank⟩ := hp.ranked
    refine ⟨fun k => if k = new then 2 * rank parent + 1 else 2 * rank k, ?_⟩
    intro u v h
    rw [feeds_spliceAt] at h
    have huv : p.Feeds u v → rank u < rank v := hrank
    have hparent : p.Feeds parent v → rank parent < rank v := hrank
    have := hout v
    grind

theorem Coherent.splice (hp : p.Coherent) (hn : p.nodes.get? parent = some n)
    (hcs : ∀ c ∈ cs, c ∈ n.children) (hop : op.arity = .unary) (room : p.nextId + 1 < Word.limit) :
    (p.splice parent cs op rel).Coherent := by
  have hlinked : (p.splice parent cs op rel).Linked :=
    (hp.toLinked.reserve room).spliceAt hn hcs (Nat.lt_succ_self _) (hp.ne_nextId hn)
      (fun _ => hp.not_feeds_nextId) fun _ => hp.not_nextId_feeds
  refine { hlinked with fits := ?fits, fed := ?fed, roots := ?roots }
  case fits =>
    intro k m hm
    rcases get?_splice_eq_some hm with ⟨rfl, rfl⟩ | ⟨-, n, hn, rfl⟩
    · simp [hop, Inputs.fits]
    · rw [relinked_inputs, relinked_op]
      split
      · exact Inputs.fits_map.trans (hp.fits hn)
      · exact hp.fits hn
  case fed =>
    intro k m hm hc
    rcases get?_splice_eq_some hm with ⟨rfl, rfl⟩ | ⟨-, n, hn, rfl⟩
    · simp [Inputs.ids]
    · rw [relinked_op] at hc
      rw [relinked_inputs]
      split
      · simpa [Inputs.replace] using hp.fed hn hc
      · exact hp.fed hn hc
  case roots =>
    intro k
    rw [show (p.splice parent cs op rel).roots = p.roots from rfl, hp.roots, get?_splice]
    by_cases hk : k = p.nextId
    · have hnone : p.nodes.get? k = none := hk ▸ hp.get?_nextId
      have hop' : op ≠ .create := by rintro rfl; simp [Op.arity] at hop
      simp [hk, hop', hp.get?_nextId]
    · simp [hk]

end Splice

-- ---------------------------------------------------------------------------
-- Copying a node
-- ---------------------------------------------------------------------------

/-- The node `k` when the copy `new` of `n` has taken over one child of `id`. -/
def forkedNode (id child new : NodeId) (n : Node) (k : NodeId) (m : Node) : Node :=
  let m := if k ∈ n.parents then m.addChild new else m
  let m := if k = id then m.dropChild child else m
  if k = child then m.swapParent id new else m

/-- A copy of the node `n` under `id` that takes over one of its children. -/
def forked (p : Plan) (id child : NodeId) (n : Node) (rel : Relation) : Plan where
  nodes := (p.nodes.map (forkedNode id child p.nextId n)).insert p.nextId
    { n with id := p.nextId, rel, children := .singleton child }
  roots := if n.isRoot then p.roots.insert p.nextId else p.roots
  nextId := p.nextId + 1

section Forked

variable {id child new : NodeId} {m : Node}

@[simp] theorem forkedNode_id : (forkedNode id child new n k m).id = m.id := by
  unfold forkedNode
  split_ifs <;> rfl

@[simp] theorem forkedNode_op : (forkedNode id child new n k m).op = m.op := by
  unfold forkedNode
  split_ifs <;> rfl

@[simp] theorem forkedNode_rel : (forkedNode id child new n k m).rel = m.rel := by
  unfold forkedNode
  split_ifs <;> rfl

theorem forkedNode_inputs : (forkedNode id child new n k m).inputs =
    if k = child then m.inputs.replace id new else m.inputs := by
  unfold forkedNode
  split_ifs <;> rfl

theorem forkedNode_parents : (forkedNode id child new n k m).parents =
    if k = child then (m.parents.erase id).insert new else m.parents := by
  unfold forkedNode
  split_ifs <;> rfl

theorem mem_forkedNode_children : v ∈ (forkedNode id child new n k m).children ↔
    (v = new ∧ k ∈ n.parents ∨ v ∈ m.children) ∧ ¬ (k = id ∧ v = child) := by
  unfold forkedNode
  split_ifs <;> simp_all [Node.addChild, Node.dropChild, Node.swapParent]

theorem get?_forked_eq_some (h : (p.forked id child n rel).nodes.get? k = some m) :
    (k = p.nextId ∧ m = { n with id := p.nextId, rel, children := .singleton child }) ∨
    (k ≠ p.nextId ∧ ∃ m', p.nodes.get? k = some m' ∧ m = forkedNode id child p.nextId n k m') := by
  rw [forked, IdMap.get?_insert, IdMap.get?_map] at h
  split at h
  · exact .inl ⟨‹_›, (Option.some.inj h).symm⟩
  · obtain ⟨m', hm', rfl⟩ := Option.map_eq_some_iff.mp h
    exact .inr ⟨‹_›, m', hm', rfl⟩

theorem Linked.get?_forked_self (hp : p.Linked) (hn : p.nodes.get? id = some n) (hc : child ∈ n.children) :
    (p.forked id child n rel).nodes.get? id = some { n with children := n.children.erase child } := by
  have hne : id ≠ child := fun h => hp.not_feeds_self ((hp.children hn).mp (h ▸ hc))
  have hself : id ∉ n.parents := fun h => hp.not_feeds_self (hp.feeds_of_mem_parents hn h)
  rw [forked, IdMap.get?_insert, if_neg (hp.ne_nextId hn), IdMap.get?_map, hn]
  simp [forkedNode, hself, hne, Node.dropChild]

theorem feeds_forked : (p.forked id child n rel).Feeds u v ↔
    if v = p.nextId then u ∈ n.inputs.ids
    else if v = child then (u = p.nextId ∧ p.Feeds id v) ∨ (u ≠ id ∧ p.Feeds u v)
    else p.Feeds u v := by
  unfold Feeds
  rw [forked, IdMap.get?_insert, IdMap.get?_map]
  by_cases hv : v = p.nextId
  · simp [hv]
  · cases hn : p.nodes.get? v with
    | none => simp [hv]
    | some m =>
      by_cases hc : v = child
      · subst hc
        simp [hv, forkedNode_inputs, Inputs.mem_ids_replace]
      · simp [hv, hc, forkedNode_inputs]

theorem Linked.forked (hp : p.Linked) (hn : p.nodes.get? id = some n)
    (hc : child ∈ n.children) (room : p.nextId + 1 < Word.limit) :
    (p.forked id child n rel).Linked := by
  have hfed : p.Feeds id child := (hp.children hn).mp hc
  have hchild : child ≠ p.nextId := fun h => hp.not_feeds_nextId (h ▸ hfed)
  have hinputs : ∀ {u}, u ∈ n.inputs.ids ↔ p.Feeds u id := (feeds_iff hn).symm
  constructor
  case keyed =>
    intro k m hm
    rcases get?_forked_eq_some hm with ⟨rfl, rfl⟩ | ⟨-, m', hm', rfl⟩
    · rfl
    · exact forkedNode_id.trans (hp.keyed hm')
  case below =>
    intro k m hm
    rcases get?_forked_eq_some hm with ⟨rfl, rfl⟩ | ⟨-, m', hm', rfl⟩
    · exact Nat.lt_succ_self _
    · exact (hp.below hm').trans (Nat.lt_succ_self _)
  case bounded => exact room
  case closed =>
    intro u v h
    rw [feeds_forked] at h
    rw [Plan.forked, IdMap.get?_insert, IdMap.get?_map]
    by_cases hu : u = p.nextId
    · exact ⟨_, if_pos hu⟩
    · have hold : ∃ m, p.nodes.get? u = some m := by
        split_ifs at h
        · exact hp.closed (hinputs.mp h)
        · exact hp.closed (h.resolve_left fun h => hu h.1).2
        · exact hp.closed h
      obtain ⟨m, hm⟩ := hold
      exact ⟨_, by rw [if_neg hu, hm]; rfl⟩
  case parents =>
    intro k m u hm
    rcases get?_forked_eq_some hm with ⟨rfl, rfl⟩ | ⟨-, m', hm', rfl⟩
    · have := hp.parents (u := u) hn
      exact this
    · rw [forkedNode_parents, forkedNode_inputs]
      split
      · rename_i hk
        subst hk
        exact hp.mem_swapped_parents hm' hfed
      · exact hp.parents hm'
  case children =>
    intro k m v hm
    rw [feeds_forked]
    rcases get?_forked_eq_some hm with ⟨rfl, rfl⟩ | ⟨hk, m', hm', rfl⟩
    · have := hp.not_nextId_feeds (v := v)
      have := hp.not_nextId_feeds (v := id)
      have := @hinputs
      grind [IdSet.mem_singleton]
    · rw [mem_forkedNode_children]
      have := hp.children (v := v) hm'
      have := hp.parents (u := k) hn
      have := hp.not_feeds_nextId (u := k)
      have := @hinputs
      grind
  case ranked =>
    obtain ⟨rank, hrank⟩ := hp.ranked
    refine ⟨fun k => if k = p.nextId then rank id else rank k, ?_⟩
    intro u v h
    rw [feeds_forked] at h
    have hid : p.Feeds u id → rank u < rank id := hrank
    have huv : p.Feeds u v → rank u < rank v := hrank
    have hrank_child : rank id < rank child := hrank hfed
    have := hp.not_nextId_feeds (v := v)
    have := hp.not_nextId_feeds (v := id)
    have := @hinputs
    grind

theorem Coherent.forked (hp : p.Coherent) (hn : p.nodes.get? id = some n)
    (hc : child ∈ n.children) (room : p.nextId + 1 < Word.limit) :
    (p.forked id child n rel).Coherent := by
  refine { hp.toLinked.forked hn hc room with fits := ?fits, fed := ?fed, roots := ?roots }
  case fits =>
    intro k m hm
    rcases get?_forked_eq_some hm with ⟨rfl, rfl⟩ | ⟨-, m', hm', rfl⟩
    · have := hp.fits hn
      exact this
    · rw [forkedNode_inputs, forkedNode_op]
      split
      · exact Inputs.fits_map.trans (hp.fits hm')
      · exact hp.fits hm'
  case fed =>
    intro k m hm hop
    rcases get?_forked_eq_some hm with ⟨rfl, rfl⟩ | ⟨-, m', hm', rfl⟩
    · have := hp.fed hn hop
      exact this
    · rw [forkedNode_op] at hop
      rw [forkedNode_inputs]
      split
      · simpa [Inputs.replace] using hp.fed hm' hop
      · exact hp.fed hm' hop
  case roots =>
    intro k
    have hroot := hp.isRoot_iff hn
    have hold : k ∈ p.roots ↔ _ := hp.roots
    rw [Plan.forked, IdMap.get?_insert, IdMap.get?_map]
    by_cases hk : k = p.nextId
    · split_ifs <;> simp_all [hp.roots, hp.get?_nextId]
    · split_ifs <;> simp_all

end Forked

-- ---------------------------------------------------------------------------
-- Moving a node above its parent
-- ---------------------------------------------------------------------------

/-- So many numbers from `first` on. -/
def freshIds (first count : Nat) : NodeSet := .ofList ((List.range count).map (first + ·))

@[simp] theorem mem_freshIds {first count v : Nat} :
    v ∈ freshIds first count ↔ first ≤ v ∧ v < first + count := by
  simp only [freshIds, IdSet.mem_ofList, List.mem_map, List.mem_range]
  constructor
  · rintro ⟨i, hi, rfl⟩
    omega
  · rintro ⟨hv, hlt⟩
    exact ⟨v - first, by omega, by omega⟩

/-- The copies that read the input `k` of `top`, where the first copy is `first`. -/
def copiesOf (first : NodeId) (inputs : List NodeId) (k : NodeId) : NodeSet :=
  .ofList ((List.range inputs.length).filter (inputs[·]? = some k) |>.map (first + ·))

theorem mem_copiesOf {first : NodeId} {inputs : List NodeId} :
    v ∈ copiesOf first inputs k ↔ first ≤ v ∧ inputs[v - first]? = some k := by
  simp only [copiesOf, IdSet.mem_ofList, List.mem_map, List.mem_filter, List.mem_range,
    decide_eq_true_eq]
  constructor
  · rintro ⟨i, ⟨-, hi⟩, rfl⟩
    exact ⟨Nat.le_add_right _ _, by rwa [Nat.add_sub_cancel_left]⟩
  · rintro ⟨hv, hi⟩
    exact ⟨v - first, ⟨(List.getElem?_eq_some_iff.mp hi).1, hi⟩, Nat.add_sub_cancel' hv⟩

/-- The old node `k` when `bottom` has been moved above its parent `top`. -/
def pushedNode (top bottom first : NodeId) (t b : Node) (k : NodeId) (n : Node) : Node :=
  if k = top then
    { n with
      inputs := n.inputs.mapIdx fun i _ => first + i
      parents := freshIds first n.inputs.ids.length
      children := n.children.erase bottom ∪ b.children }
  else
    let n := if k ∈ t.inputs.ids then
        { n with children := n.children.erase top ∪ copiesOf first t.inputs.ids k }
      else n
    if k ∈ b.children then n.swapParent bottom top else n

/-- The node `bottom` moved above its parent `top`: a copy for each input of `top`,
with its own relation. -/
def pushed (p : Plan) (top bottom : NodeId) (t b : Node) (rel : Nat → Relation) : Plan where
  nodes := .tabulate (p.nextId + t.inputs.ids.length) fun k =>
    if p.nextId ≤ k then
      t.inputs.ids[k - p.nextId]?.map fun input =>
        { b with id := k, rel := rel (k - p.nextId), inputs := .unary input,
                 parents := .singleton input, children := .singleton top }
    else if k = bottom then none
    else (p.nodes.get? k).map (pushedNode top bottom p.nextId t b k)
  roots := p.roots
  nextId := p.nextId + t.inputs.ids.length

section Pushed

variable {top bottom first : NodeId} {t b : Node} {rels : Nat → Relation} {m : Node}

@[simp] theorem pushedNode_id : (pushedNode top bottom first t b k n).id = n.id := by
  unfold pushedNode
  split_ifs <;> rfl

@[simp] theorem pushedNode_op : (pushedNode top bottom first t b k n).op = n.op := by
  unfold pushedNode
  split_ifs <;> rfl

@[simp] theorem pushedNode_rel : (pushedNode top bottom first t b k n).rel = n.rel := by
  unfold pushedNode
  split_ifs <;> rfl

theorem pushedNode_inputs : (pushedNode top bottom first t b k n).inputs =
    if k = top then n.inputs.mapIdx fun i _ => first + i
    else if k ∈ b.children then n.inputs.replace bottom top else n.inputs := by
  unfold pushedNode
  split_ifs <;> rfl

theorem pushedNode_parents : (pushedNode top bottom first t b k n).parents =
    if k = top then freshIds first n.inputs.ids.length
    else if k ∈ b.children then (n.parents.erase bottom).insert top else n.parents := by
  unfold pushedNode
  split_ifs <;> rfl

theorem pushedNode_children : (pushedNode top bottom first t b k n).children =
    if k = top then n.children.erase bottom ∪ b.children
    else if k ∈ t.inputs.ids then n.children.erase top ∪ copiesOf first t.inputs.ids k
    else n.children := by
  unfold pushedNode
  split_ifs <;> rfl

/-- What a lookup finds: a copy, or an old node. -/
theorem get?_pushed_eq_some (hp : p.Linked)
    (h : (p.pushed top bottom t b rels).nodes.get? k = some m) :
    (∃ i input, k = p.nextId + i ∧ t.inputs.ids[i]? = some input ∧
      m = { b with id := k, rel := rels i, inputs := .unary input, parents := .singleton input,
                   children := .singleton top }) ∨
    (k < p.nextId ∧ k ≠ bottom ∧
      ∃ n, p.nodes.get? k = some n ∧ m = pushedNode top bottom p.nextId t b k n) := by
  rw [pushed, IdMap.get?_tabulate] at h
  split_ifs at h with hk hnew hbottom
  · obtain ⟨input, hi, rfl⟩ := Option.map_eq_some_iff.mp h
    exact .inl ⟨k - p.nextId, input, (Nat.add_sub_cancel' hnew).symm, hi, rfl⟩
  · obtain ⟨n, hn, rfl⟩ := Option.map_eq_some_iff.mp h
    exact .inr ⟨hp.below hn, hbottom, n, hn, rfl⟩

theorem get?_pushed_copy {i : Nat} {input : NodeId} (hi : t.inputs.ids[i]? = some input) :
    (p.pushed top bottom t b rels).nodes.get? (p.nextId + i) =
      some { b with id := p.nextId + i, rel := rels i, inputs := .unary input,
                    parents := .singleton input, children := .singleton top } := by
  have hlt := (List.getElem?_eq_some_iff.mp hi).1
  rw [pushed, IdMap.get?_tabulate, if_pos (Nat.add_lt_add_left hlt _), if_pos (Nat.le_add_right _ _),
    Nat.add_sub_cancel_left, hi]
  rfl

theorem get?_pushed_old (hp : p.Linked) (hn : p.nodes.get? k = some n) (hk : k ≠ bottom) :
    (p.pushed top bottom t b rels).nodes.get? k = some (pushedNode top bottom p.nextId t b k n) := by
  have hlt := hp.below hn
  rw [pushed, IdMap.get?_tabulate, if_pos (Nat.lt_add_right _ hlt), if_neg (Nat.not_le.mpr hlt),
    if_neg hk, hn]
  rfl

theorem feeds_pushed (hp : p.Linked) (ht : p.nodes.get? top = some t) :
    (p.pushed top bottom t b rels).Feeds u v ↔
    if p.nextId ≤ v then t.inputs.ids[v - p.nextId]? = some u
    else if v = bottom then False
    else if v = top then p.nextId ≤ u ∧ u < p.nextId + t.inputs.ids.length
    else if v ∈ b.children then (u = top ∧ p.Feeds bottom v) ∨ (u ≠ bottom ∧ p.Feeds u v)
    else p.Feeds u v := by
  constructor
  · rintro ⟨m, hm, hu⟩
    rcases get?_pushed_eq_some hp hm with ⟨i, input, rfl, hi, rfl⟩ | ⟨hv, hvb, n, hn, rfl⟩
    · simp only [Inputs.ids, List.mem_singleton] at hu
      simp [hu, hi]
    · rw [if_neg (Nat.not_le.mpr hv), if_neg hvb]
      rw [pushedNode_inputs] at hu
      split_ifs at hu ⊢ with hvt hvc
      · subst hvt
        cases hn.symm.trans ht
        rw [Inputs.ids_mapIdx, List.mem_mapIdx] at hu
        obtain ⟨i, hi, rfl⟩ := hu
        exact ⟨Nat.le_add_right _ _, Nat.add_lt_add_left hi _⟩
      · rcases Inputs.mem_ids_replace.mp hu with ⟨h, hold⟩ | ⟨hne, hold⟩
        · exact .inl ⟨h, n, hn, hold⟩
        · exact .inr ⟨hne, n, hn, hold⟩
      · exact ⟨n, hn, hu⟩
  · intro h
    split_ifs at h with hnew hvb hvt hvc
    · have : (p.pushed top bottom t b rels).nodes.get? _ = _ := get?_pushed_copy h
      rw [Nat.add_sub_cancel' hnew] at this
      exact ⟨_, this, by simp [Inputs.ids]⟩
    · subst hvt
      refine ⟨_, get?_pushed_old hp ht hvb, ?_⟩
      rw [pushedNode_inputs, if_pos rfl, Inputs.ids_mapIdx, List.mem_mapIdx]
      exact ⟨u - p.nextId, Nat.sub_lt_left_of_lt_add h.1 h.2, Nat.add_sub_cancel' h.1⟩
    · obtain ⟨rfl, n, hn, hold⟩ | ⟨hne, n, hn, hold⟩ := h
      · refine ⟨_, get?_pushed_old hp hn hvb, ?_⟩
        rw [pushedNode_inputs, if_neg hvt, if_pos hvc]
        exact Inputs.mem_ids_replace.mpr (.inl ⟨rfl, hold⟩)
      · refine ⟨_, get?_pushed_old hp hn hvb, ?_⟩
        rw [pushedNode_inputs, if_neg hvt, if_pos hvc]
        exact Inputs.mem_ids_replace.mpr (.inr ⟨hne, hold⟩)
    · obtain ⟨n, hn, hu⟩ := h
      refine ⟨_, get?_pushed_old hp hn hvb, ?_⟩
      rwa [pushedNode_inputs, if_neg hvt, if_neg hvc]

/-- A copy lists `top` as its only reader, and the lists of the old nodes are changed with the edges. -/
theorem Linked.children_pushed (hp : p.Linked) (ht : p.nodes.get? top = some t)
    (hb : p.nodes.get? bottom = some b) (hfed : b.inputs = .unary top)
    (hm : (p.pushed top bottom t b rels).nodes.get? k = some m) :
    v ∈ m.children ↔ (p.pushed top bottom t b rels).Feeds k v := by
  have hbottom {u : NodeId} : p.Feeds u bottom ↔ u = top := feeds_unary_iff hb hfed
  have hinput {i : Nat} {u : NodeId} (hi : t.inputs.ids[i]? = some u) : p.Feeds u top :=
    (feeds_iff ht).mpr (List.mem_of_getElem? hi)
  rw [feeds_pushed hp ht]
  rcases get?_pushed_eq_some hp hm with ⟨i, input, rfl, hi, rfl⟩ | ⟨hk, hkb, n, hn, rfl⟩
  · have hlt := (List.getElem?_eq_some_iff.mp hi).1
    have htop_lt := hp.below ht
    have hfresh {v : NodeId} : ¬ p.Feeds (p.nextId + i) v := fun h =>
      Nat.not_lt.mpr (Nat.le_add_right _ _) (hp.source_lt h)
    have hcopy_top : p.nextId + i ≠ top := (htop_lt.trans_le (Nat.le_add_right _ _)).ne'
    rw [IdSet.mem_singleton]
    split_ifs with hv hvb hvt hvc
    · exact iff_of_false (htop_lt.trans_le hv).ne' fun h => hfresh (hinput h)
    · exact iff_of_false (hvb ▸ (hp.ne_of_feeds (hbottom.mpr rfl)).symm) id
    · exact iff_of_true hvt ⟨Nat.le_add_right _ _, Nat.add_lt_add_left hlt _⟩
    · exact iff_of_false hvt (not_or.mpr ⟨fun h => hcopy_top h.1, fun h => hfresh h.2⟩)
    · exact iff_of_false hvt hfresh
  · have hkv := hp.children (v := v) hn
    have hlt {u : NodeId} (h : p.Feeds u v) : v < p.nextId := by
      obtain ⟨n', hn', -⟩ := h
      exact hp.below hn'
    have hcycle : ¬ p.Feeds bottom top := hp.not_feeds_back (hbottom.mpr rfl)
    have hself := hp.not_feeds_self (k := k)
    have hself_v := hp.not_feeds_self (k := v)
    have hkb' := hbottom (u := k)
    have hkt' := feeds_iff (u := k) ht
    have hbv := hp.children (v := v) hb
    have hin := hinput (i := v - p.nextId) (u := k)
    have := hlt (u := k)
    have := hlt (u := bottom)
    rw [pushedNode_children]
    split_ifs <;> grind [IdSet.mem_union, IdSet.mem_erase, mem_copiesOf]

theorem Linked.ranked_pushed (hp : p.Linked) (ht : p.nodes.get? top = some t)
    (hb : p.nodes.get? bottom = some b) (hfed : b.inputs = .unary top) :
    ∃ rank : NodeId → Nat, ∀ {u v}, (p.pushed top bottom t b rels).Feeds u v → rank u < rank v := by
  obtain ⟨rank, hrank⟩ := hp.ranked
  have hinput {i : Nat} {u : NodeId} (hi : t.inputs.ids[i]? = some u) : p.Feeds u top :=
    (feeds_iff ht).mpr (List.mem_of_getElem? hi)
  -- a copy stands right below the input it reads
  refine ⟨fun k => if p.nextId ≤ k then
    (t.inputs.ids[k - p.nextId]?.map fun u => 2 * rank u + 1).getD 0 else 2 * rank k, ?_⟩
  intro u v h
  rw [feeds_pushed hp ht] at h
  dsimp only
  split_ifs at h with hv hvb hvt hvc
  · rw [if_neg (Nat.not_le.mpr (hp.source_lt (hinput h))), if_pos hv, h]
    exact Nat.lt_succ_self _
  · have hi := Nat.sub_lt_left_of_lt_add h.1 h.2
    have := hrank (hinput (List.getElem?_eq_getElem hi))
    rw [if_pos h.1, if_neg hv, List.getElem?_eq_getElem hi, hvt, Option.map_some, Option.getD_some]
    omega
  · have huv : rank u < rank v := by
      rcases h with ⟨rfl, h⟩ | ⟨-, h⟩
      · exact (hrank ((feeds_unary_iff hb hfed).mpr rfl)).trans (hrank h)
      · exact hrank h
    have hu : u < p.nextId := by
      rcases h with ⟨rfl, -⟩ | ⟨-, h⟩
      · exact hp.below ht
      · exact hp.source_lt h
    rw [if_neg (Nat.not_le.mpr hu), if_neg hv]
    omega
  · have := hrank h
    rw [if_neg (Nat.not_le.mpr (hp.source_lt h)), if_neg hv]
    omega

theorem Linked.pushed (hp : p.Linked) (ht : p.nodes.get? top = some t)
    (hb : p.nodes.get? bottom = some b) (hfed : b.inputs = .unary top)
    (room : p.nextId + t.inputs.ids.length < Word.limit) :
    (p.pushed top bottom t b rels).Linked := by
  have hdown : p.Feeds top bottom := (feeds_unary_iff hb hfed).mpr rfl
  have hchildren {v : NodeId} : v ∈ b.children ↔ p.Feeds bottom v := hp.children hb
  constructor
  case keyed =>
    intro k m hm
    rcases get?_pushed_eq_some hp hm with ⟨i, input, rfl, hi, rfl⟩ | ⟨-, -, n, hn, rfl⟩
    · rfl
    · exact pushedNode_id.trans (hp.keyed hn)
  case below =>
    intro k m hm
    rcases get?_pushed_eq_some hp hm with ⟨i, input, rfl, hi, rfl⟩ | ⟨hk, -, n, hn, rfl⟩
    · exact Nat.add_lt_add_left (List.getElem?_eq_some_iff.mp hi).1 _
    · exact Nat.lt_add_right _ hk
  case bounded => exact room
  case closed =>
    intro u v h
    rw [feeds_pushed hp ht] at h
    have hnode {u : NodeId} (hu : ∃ n, p.nodes.get? u = some n) (hub : u ≠ bottom) :
        ∃ n, (p.pushed top bottom t b rels).nodes.get? u = some n := by
      obtain ⟨n, hn⟩ := hu
      exact ⟨_, get?_pushed_old hp hn hub⟩
    split_ifs at h with hv hvb hvt hvc
    · have hinput : p.Feeds u top := (feeds_iff ht).mpr (List.mem_of_getElem? h)
      exact hnode (hp.closed hinput) fun hub => hp.not_feeds_back hdown (hub ▸ hinput)
    · have hi := Nat.sub_lt_left_of_lt_add h.1 h.2
      have : (p.pushed top bottom t b rels).nodes.get? _ = _ :=
        get?_pushed_copy (List.getElem?_eq_getElem hi)
      rw [Nat.add_sub_cancel' h.1] at this
      exact ⟨_, this⟩
    · rcases h with ⟨rfl, -⟩ | ⟨hub, h⟩
      · exact hnode ⟨t, ht⟩ (hp.ne_of_feeds hdown)
      · exact hnode (hp.closed h) hub
    · exact hnode (hp.closed h) fun hub => hvc (hchildren.mpr (hub ▸ h))
  case parents =>
    intro k m u hm
    rcases get?_pushed_eq_some hp hm with ⟨i, input, rfl, hi, rfl⟩ | ⟨hk, hkb, n, hn, rfl⟩
    · simp [Inputs.ids]
    · rw [pushedNode_parents, pushedNode_inputs]
      split_ifs with hkt hkc
      · rw [mem_freshIds, Inputs.ids_mapIdx, List.mem_mapIdx]
        constructor
        · rintro ⟨hle, hlt⟩
          exact ⟨u - p.nextId, Nat.sub_lt_left_of_lt_add hle hlt, Nat.add_sub_cancel' hle⟩
        · rintro ⟨i, hi, rfl⟩
          exact ⟨Nat.le_add_right _ _, Nat.add_lt_add_left hi _⟩
      · exact hp.mem_swapped_parents hn (hchildren.mp hkc)
      · exact hp.parents hn
  case children => exact fun hm => hp.children_pushed ht hb hfed hm
  case ranked => exact hp.ranked_pushed ht hb hfed

theorem Coherent.pushed (hp : p.Coherent) (ht : p.nodes.get? top = some t)
    (hb : p.nodes.get? bottom = some b) (hfed : b.inputs = .unary top)
    (room : p.nextId + t.inputs.ids.length < Word.limit) :
    (p.pushed top bottom t b rels).Coherent := by
  have hlinked := hp.toLinked
  refine { hlinked.pushed ht hb hfed room with fits := ?fits, fed := ?fed, roots := ?roots }
  case fits =>
    intro k m hm
    rcases get?_pushed_eq_some hlinked hm with ⟨i, input, rfl, hi, rfl⟩ | ⟨hk, hkb, n, hn, rfl⟩
    · have := hp.fits hb
      rw [hfed] at this
      cases ha : b.op.arity <;> simp_all [Inputs.fits]
    · rw [pushedNode_inputs, pushedNode_op]
      split_ifs
      · exact Inputs.fits_mapIdx.trans (hp.fits hn)
      · exact Inputs.fits_map.trans (hp.fits hn)
      · exact hp.fits hn
  case fed =>
    intro k m hm hop
    rcases get?_pushed_eq_some hlinked hm with ⟨i, input, rfl, hi, rfl⟩ | ⟨hk, hkb, n, hn, rfl⟩
    · simp [Inputs.ids]
    · rw [pushedNode_op] at hop
      rw [pushedNode_inputs]
      split_ifs
      · simpa [List.mapIdx_eq_nil_iff] using hp.fed hn hop
      · simpa [Inputs.replace] using hp.fed hn hop
      · exact hp.fed hn hop
  case roots =>
    intro k
    have hb_op : b.op ≠ .create := fun h => by
      have := hp.fits hb
      simp [hfed, h, Inputs.fits, Op.arity] at this
    rw [show (p.pushed top bottom t b rels).roots = p.roots from rfl, hp.roots]
    constructor
    · rintro ⟨n, hn, hop⟩
      have hk : k ≠ bottom := fun h => hb_op (by rw [h, hb] at hn; cases hn; exact hop)
      exact ⟨_, get?_pushed_old hlinked hn hk, pushedNode_op.trans hop⟩
    · rintro ⟨m, hm, hop⟩
      rcases get?_pushed_eq_some hlinked hm with ⟨i, input, rfl, hi, rfl⟩ | ⟨-, -, n, hn, rfl⟩
      · exact absurd hop hb_op
      · exact ⟨n, hn, pushedNode_op.symm.trans hop⟩

end Pushed

end Plan

end JointPlan
