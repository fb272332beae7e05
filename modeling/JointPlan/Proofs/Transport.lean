import JointPlan.Proofs.Frames
import JointPlan.Proofs.Meaning

/-!
# Values through a change of shape

How what the nodes of a plan yield carries over when the plan is changed. A `Rule` says which
values a node may yield for the values it reads; bags are one kind of value, and schemas are
another. `Plan.Obeys` keeps apart what a node yields and what its readers find there. While an
aggregate is being split the two differ, at the node where the change is not yet complete; a
plan computes what its assignment says once they agree everywhere.

`Plan.Serves` is what a change owes to those who read the results of a plan: the
leaves are still there and yield the same rows.
-/

namespace JointPlan

/-- What a node may yield for the values it reads. Only its operator matters, up to the columns that
it is bound to, and of a root its relation. -/
structure Rule (α : Type) where
  allows : Node → List α → α → Prop
  congr : ∀ {n m : Node} {ins : List α} {a : α}, m.op.bare = n.op.bare → (n.op = .create → m.rel = n.rel) →
    allows n ins a → allows m ins a

namespace Rule

variable {α : Type} {R : Rule α} {ins : List α} {op op' : Op} {a : α}

/-- The operator yields `a`, at whichever node it stands. -/
def Yields (R : Rule α) (ins : List α) (op : Op) (a : α) : Prop := ∀ n : Node, n.op = op → R.allows n ins a

theorem yields_of_allows {n : Node} (h : R.allows n ins a) (hop : n.op ≠ .create) : R.Yields ins n.op a :=
  fun _ hm => R.congr (congrArg _ hm) (fun hc => absurd hc hop) h

theorem Yields.of_bare_eq (h : R.Yields ins op a) (hop : op.bare = op'.bare) (hc : op ≠ .create) :
    R.Yields ins op' a := by
  intro n hn
  have h := h { n with op } rfl
  exact R.congr (by rw [hn, hop]) (fun h => absurd h hc) h

/-- The operators, one after the other, turn one value into another. -/
inductive Leads (R : Rule α) : List Op → α → α → Prop
  | nil {a : α} : Leads R [] a a
  | cons {op : Op} {ops : List Op} {a b c : α} (first : op.arity = .unary → R.Yields [a] op b) (rest : Leads R ops b c) :
      Leads R (op :: ops) a c

/-- Every node yields the rows that its operator makes of the rows it reads. -/
def bags (I : Interpretation) : Rule Bag where
  allows n ins b := b = n.meaning I ins
  congr hop hrel h := by rw [h, Node.meaning_eq_of_bare_eq hop hrel]

theorem bags_yields (I : Interpretation) (hop : op.arity = .unary) (b : Bag) :
    (bags I).Yields [b] op (op.transform I b) := by
  rintro n rfl
  change _ = n.meaning I [b]
  rw [Node.meaning_of_ne_create (Op.ne_create_of_unary hop), Op.meaning_unary hop]

theorem bags_leads (I : Interpretation) (ops : List Op) (b : Bag) :
    (bags I).Leads ops b (ops.foldl (fun b op => op.transform I b) b) := by
  induction ops generalizing b with
  | nil => exact .nil
  | cons op ops ih => exact .cons (fun hop => bags_yields I hop b) (ih _)

end Rule

namespace Plan

variable {I : Interpretation} {p q : Plan} {k : NodeId} {n : Node}

-- ---------------------------------------------------------------------------
-- What the readers find
-- ---------------------------------------------------------------------------

section Read

variable {α : Type} {m : Node} {a : NodeId → α}

/-- A node is spliced in; the readers that are handed over find at it what they found at its
parent, and those that stay find `y` there. -/
theorem Linked.map_relinked {parent : NodeId} {cs : NodeSet} (hp : p.Linked) (hn : p.nodes.get? parent = some n)
    (hm : p.nodes.get? k = some m) {y : α} (hy : y = a parent ∨ cs = n.children) :
    (relinked parent p.nextId cs k m).inputs.ids.map
      (Function.update (Function.update a parent y) p.nextId (a parent)) = m.inputs.ids.map a := by
  have hnew : ∀ u ∈ m.inputs.ids, u ≠ p.nextId := fun u hu => by
    obtain ⟨c, hc⟩ := hp.closed ⟨m, hm, hu⟩
    exact hp.ne_nextId hc
  rw [relinked_inputs]
  split
  · rw [Inputs.replace, Inputs.ids_map, List.map_map]
    refine List.map_congr_left fun u hu => ?_
    by_cases hup : u = parent
    · simp [hup]
    · simp [hup, hnew u hu]
  · rename_i hkc
    refine List.map_congr_left fun u hu => ?_
    by_cases hup : u = parent
    · -- a reader that is left to the parent
      subst hup
      have hy : y = a u := hy.resolve_right fun h => hkc (h ▸ (hp.children hn).mpr ⟨m, hm, hu⟩)
      simp [hnew u hu, hy]
    · simp [hup, hnew u hu]

/-- A node gets a copy for one of its readers. -/
theorem Linked.map_forkedNode {id child : NodeId} (hp : p.Linked) (hm : p.nodes.get? k = some m) :
    (forkedNode id child p.nextId n k m).inputs.ids.map (Function.update a p.nextId (a id)) =
      m.inputs.ids.map a := by
  have hold : ∀ u ∈ m.inputs.ids, Function.update a p.nextId (a id) u = a u := fun u hu => by
    obtain ⟨c, hc⟩ := hp.closed ⟨m, hm, hu⟩
    exact Function.update_of_ne (hp.ne_nextId hc) ..
  rw [forkedNode_inputs]
  split
  · rw [Inputs.replace, Inputs.ids_map, List.map_map]
    refine List.map_congr_left fun u hu => ?_
    by_cases hui : u = id
    · simp [hui]
    · simpa [hui] using hold u hu
  · exact List.map_congr_left hold

/-- A node is moved above its parent, which from then on stands in for it. -/
theorem Linked.map_pushedNode {top bottom : NodeId} {t b : Node} {a' : NodeId → α} (hp : p.Linked)
    (ht : p.nodes.get? top = some t) (honly : ∀ c ∈ t.children, c = bottom) (hm : p.nodes.get? k = some m)
    (hkt : k ≠ top) (hkb : k ≠ bottom) (hold : ∀ u < p.nextId, u ≠ top → a' u = a u)
    (htop : a' top = a bottom) :
    (pushedNode top bottom p.nextId t b k m).inputs.ids.map a' = m.inputs.ids.map a := by
  have hreads : ∀ u ∈ m.inputs.ids, a' u = a u := fun u hu => by
    obtain ⟨c, hc⟩ := hp.closed ⟨m, hm, hu⟩
    refine hold u (hp.below hc) fun h => hkb (honly k ?_)
    exact (hp.children ht).mpr ⟨m, hm, h ▸ hu⟩
  rw [pushedNode_inputs, if_neg hkt]
  split
  · rw [Inputs.replace, Inputs.ids_map, List.map_map]
    refine List.map_congr_left fun u hu => ?_
    by_cases hub : u = bottom
    · simp [hub, htop]
    · simpa [hub] using hreads u hu
  · exact List.map_congr_left hreads

end Read

-- ---------------------------------------------------------------------------
-- What the nodes yield
-- ---------------------------------------------------------------------------

section Obeys

variable {α : Type} {R : Rule α} {v r : NodeId → α} {s y : α}

/-- Every node yields, in `v`, what the rule allows for what it reads in `r`. -/
def Obeys (R : Rule α) (p : Plan) (v r : NodeId → α) : Prop :=
  ∀ k n, p.nodes.get? k = some n → R.allows n (n.inputs.ids.map r) (v k)

theorem Obeys.of_skeleton_eq (h : p.Obeys R v r) (hs : q.skeleton = p.skeleton) : q.Obeys R v r := by
  intro k n hn
  obtain ⟨m, hm, hnm⟩ := get?_of_skeleton_eq hs hn
  rw [Node.inputs_eq_of_skeleton_eq hnm]
  exact R.congr (Node.bare_eq_of_skeleton_eq hnm) (fun hc => (Node.rel_eq_of_skeleton_eq hnm.symm hc).symm) (h k m hm)

/-- Only the values of nodes matter. -/
theorem Obeys.congr {v' r' : NodeId → α} (h : p.Obeys R v r) (hp : p.Linked)
    (hv : ∀ k n, p.nodes.get? k = some n → v' k = v k) (hr : ∀ k n, p.nodes.get? k = some n → r' k = r k) :
    p.Obeys R v' r' := by
  intro k n hn
  have hins : n.inputs.ids.map r' = n.inputs.ids.map r := by
    refine List.map_congr_left fun u hu => ?_
    obtain ⟨m, hm⟩ := hp.closed ⟨n, hn, hu⟩
    exact hr u m hm
  rw [hv k n hn, hins]
  exact h k n hn

/-- Where a rule leaves no choice there is one assignment that obeys it. -/
theorem Linked.eq_of_obeys {v' : NodeId → α} (hp : p.Linked) (h : p.Obeys R v v) (h' : p.Obeys R v' v')
    (hR : ∀ {n ins a b}, R.allows n ins a → R.allows n ins b → a = b) (hn : p.nodes.get? k = some n) : v k = v' k := by
  obtain ⟨rank, hrank⟩ := hp.ranked
  induction hr : rank k using Nat.strong_induction_on generalizing k n with
  | _ r ih =>
    subst hr
    have hins : n.inputs.ids.map v = n.inputs.ids.map v' := by
      refine List.map_congr_left fun u hu => ?_
      obtain ⟨m, hm⟩ := hp.closed ⟨n, hn, hu⟩
      exact ih (rank u) (hrank ⟨n, hn, hu⟩) hm rfl
    exact hR (hins ▸ h k n hn) (h' k n hn)

/-- A node is spliced in; its readers find what they found before, and it finds `y`,
which the readers that are left to its parent find as well. -/
theorem Obeys.splice {parent : NodeId} {cs : NodeSet} {op : Op} {rel : Relation} (h : p.Obeys R v r) (hp : p.Coherent)
    (hn : p.nodes.get? parent = some n) (hy : y = r parent ∨ cs = n.children) (hop : R.Yields [y] op s) :
    (p.splice parent cs op rel).Obeys R (Function.update v p.nextId s)
      (Function.update (Function.update r parent y) p.nextId (r parent)) := by
  intro k m hm
  rcases get?_splice_eq_some hm with ⟨rfl, rfl⟩ | ⟨hk, m', hm', rfl⟩
  · simpa [hp.ne_nextId hn] using hop _ rfl
  · rw [Function.update_of_ne hk, hp.map_relinked hn hm' hy]
    exact R.congr (by simp) (fun _ => by simp) (h k m' hm')

/-- A node gets a copy for one of its readers. -/
theorem Obeys.forked {id child : NodeId} {rel : Relation} (h : p.Obeys R v r) (hp : p.Coherent)
    (hn : p.nodes.get? id = some n) (hop : R.Yields (n.inputs.ids.map r) n.op (v id)) :
    (p.forked id child n rel).Obeys R (Function.update v p.nextId (v id)) (Function.update r p.nextId (r id)) := by
  intro k m hm
  rcases get?_forked_eq_some hm with ⟨rfl, rfl⟩ | ⟨hk, m', hm', rfl⟩
  · have hold : n.inputs.ids.map (Function.update r p.nextId (r id)) = n.inputs.ids.map r := by
      refine List.map_congr_left fun u hu => ?_
      obtain ⟨c, hc⟩ := hp.closed ⟨n, hn, hu⟩
      exact Function.update_of_ne (hp.ne_nextId hc) ..
    rw [Function.update_self, hold]
    exact hop _ rfl
  · rw [Function.update_of_ne hk, hp.map_forkedNode hm']
    exact R.congr (by simp) (fun _ => by simp) (h k m' hm')

/-- A node gets another operator, and its readers do not see it yet. -/
theorem Obeys.set_op {id input : NodeId} {op : Op} (h : p.Obeys R v r) (hin : n.inputs = .unary input)
    (hop : R.Yields [r input] op s) : (p.set id { n with op }).Obeys R (Function.update v id s) r := by
  intro k m hm
  rw [get?_set] at hm
  split at hm
  · rename_i hk
    cases hm
    rw [hk, Function.update_self]
    simpa [hin] using hop { n with op } rfl
  · rename_i hk
    rw [Function.update_of_ne hk]
    exact h k m hm

section Push

variable [Inhabited α] {top bottom : NodeId} {t b : Node} {rels : Nat → Relation}

/-- The values `old`, with those of `copies` from the number `first` on. -/
def withCopies (first : NodeId) (copies : List α) (old : NodeId → α) (k : NodeId) : α :=
  if first ≤ k then copies[k - first]?.getD default else old k

section Copies

variable {first k : Nat} {copies : List α} {old : NodeId → α}

theorem withCopies_old (hk : k < first) : withCopies first copies old k = old k := if_neg (Nat.not_le.mpr hk)

theorem withCopies_copy {i : Nat} (hi : i < copies.length) :
    withCopies first copies old (first + i) = copies[i] := by
  simp [withCopies, hi]

theorem update_withCopies : Function.update (withCopies first copies old) (first + copies.length) s =
    withCopies first (copies ++ [s]) old := by
  refine funext fun k : Nat => ?_
  by_cases hk : k = first + copies.length
  · simp [hk, withCopies]
  · rw [Function.update_of_ne hk, withCopies, withCopies]
    split
    · rename_i hle
      have hle : (first : Nat) ≤ k := hle
      have hne : k - first ≠ copies.length := by omega
      rw [List.getElem?_append]
      split
      · rfl
      · rw [List.getElem?_eq_none (by omega), List.getElem?_eq_none (by simp; omega)]
    · rfl

end Copies

/-- A node is moved above its parent, which from then on yields what was read at the node. -/
theorem Obeys.pushed {copies : List α} (h : p.Obeys R v r) (hp : p.Coherent) (ht : p.nodes.get? top = some t)
    (honly : ∀ c ∈ t.children, c = bottom)
    (heach : List.Forall₂ (fun u out => R.Yields [r u] b.op out) t.inputs.ids copies)
    (hall : R.Yields copies t.op (r bottom)) :
    (p.pushed top bottom t b rels).Obeys R (withCopies p.nextId copies (Function.update v top (r bottom)))
      (withCopies p.nextId copies (Function.update r top (r bottom))) := by
  have hold : ∀ u < p.nextId, u ≠ top →
      withCopies p.nextId copies (Function.update r top (r bottom)) u = r u := by
    intro u hu hne
    rw [withCopies_old hu, Function.update_of_ne hne]
  have htop : withCopies p.nextId copies (Function.update r top (r bottom)) top = r bottom := by
    rw [withCopies_old (hp.below ht), Function.update_self]
  intro k m hm
  rcases get?_pushed_eq_some hp.toLinked hm with ⟨i, input, rfl, hi, rfl⟩ | ⟨hk, hkb, n, hn, rfl⟩
  · obtain ⟨hlt, hne⟩ := hp.inputs_below ht input (List.mem_of_getElem? hi)
    obtain ⟨hlen, rfl⟩ := List.getElem?_eq_some_iff.mp hi
    have hi' : i < copies.length := heach.length_eq ▸ hlen
    simp only [Inputs.ids_unary, List.map_cons, List.map_nil, hold _ hlt hne, withCopies_copy hi']
    exact heach.get hlen hi' _ rfl
  · by_cases hkt : k = top
    · subst hkt
      cases ht.symm.trans hn
      have hcopies : (pushedNode k bottom p.nextId t b k t).inputs.ids.map
          (withCopies p.nextId copies (Function.update r k (r bottom))) = copies := by
        rw [pushedNode_inputs, if_pos rfl]
        refine List.ext_getElem (by simp [heach.length_eq]) fun i hi hi' => ?_
        simp [withCopies_copy hi']
      rw [withCopies_old hk, Function.update_self, hcopies]
      exact hall _ pushedNode_op
    · rw [withCopies_old hk, Function.update_of_ne hkt, hp.map_pushedNode ht honly hn hkt hkb hold htop]
      exact R.congr (by simp) (fun _ => by simp) (h k n hn)

end Push

end Obeys

-- ---------------------------------------------------------------------------
-- Bags
-- ---------------------------------------------------------------------------

theorem Coherent.bag_obeys (hp : p.Coherent) : p.Obeys (.bags I) (p.bag I) (p.bag I) := hp.bag_models

theorem Coherent.bag_eq {v : NodeId → Bag} (hp : p.Coherent) (h : p.Obeys (.bags I) v v) (hn : p.nodes.get? k = some n) :
    p.bag I k = v k := hp.bag_unique h hn

/-- A node that hands on its input is spliced in. -/
theorem Spliced.bag {parent : NodeId} {cs : NodeSet} {op : Op} {rel : Relation} (h : p.Spliced parent cs op rel q)
    (hp : p.Coherent) (hs : p.Sound) (hop : ∀ b, op.transform I b = b) (hk : p.nodes.get? k = some n) :
    q.bag I k = p.bag I k := by
  obtain ⟨m, hm, -⟩ := h.subset
  have hyields : (Rule.bags I).Yields [p.bag I parent] op (p.bag I parent) := by
    simpa only [hop] using Rule.bags_yields I h.arity (p.bag I parent)
  have hobeys := (hp.bag_obeys.splice hp hm (.inl rfl) hyields).of_skeleton_eq (h.touched hs).skeleton
  rw [Function.update_eq_self] at hobeys
  obtain ⟨m', hm', -⟩ := h.get?_old hp hs hk
  rw [(h.coherent hp).bag_eq hobeys hm', Function.update_of_ne (hp.ne_nextId hk)]

theorem Forked.bag {id child : NodeId} {rel : Relation} (h : p.Forked id child n rel q) (hp : p.Coherent) (hs : p.Sound)
    (hop : n.op ≠ .create) {m : Node} (hk : p.nodes.get? k = some m) : q.bag I k = p.bag I k := by
  have hyields := Rule.yields_of_allows (hp.bag_obeys (I := I) id n h.node) hop
  have hobeys := (hp.bag_obeys.forked hp h.node hyields).of_skeleton_eq (h.touched hs).skeleton
  obtain ⟨m', hm', -⟩ := h.get?_old hp hs hk
  rw [(h.coherent hp).bag_eq hobeys hm', Function.update_of_ne (hp.ne_nextId hk)]

-- ---------------------------------------------------------------------------
-- Leaves
-- ---------------------------------------------------------------------------

/-- Every leaf is a leaf of the new plan, with the same operator and the same rows. -/
def Serves (p q : Plan) : Prop :=
  ∀ k n, p.nodes.get? k = some n → n.children = ∅ →
    ∃ m, q.nodes.get? k = some m ∧ m.children = ∅ ∧ m.op.bare = n.op.bare ∧
      ∀ I, q.bag I k = p.bag I k

theorem Serves.refl : Serves p p := fun _ n hn hleaf => ⟨n, hn, hleaf, rfl, fun _ => rfl⟩

theorem Serves.trans {s : Plan} (h₁ : Serves p q) (h₂ : Serves q s) : Serves p s := by
  intro k n hn hleaf
  obtain ⟨m, hm, hleaf', hop, hbag⟩ := h₁ k n hn hleaf
  obtain ⟨o, ho, hleaf'', hop', hbag'⟩ := h₂ k m hm hleaf'
  exact ⟨o, ho, hleaf'', hop'.trans hop, fun I => (hbag' I).trans (hbag I)⟩

theorem Serves.of_skeleton_eq (h : q.skeleton = p.skeleton) : Serves p q := by
  intro k n hn hleaf
  obtain ⟨m, hm, hs⟩ := get?_of_skeleton_eq h.symm hn
  refine ⟨m, hm, ?_, (Node.bare_eq_of_skeleton_eq hs).symm, fun I => ?_⟩
  · rw [← Node.children_eq_of_skeleton_eq hs, hleaf]
  · rw [bag_eq_of_skeleton_eq h]

/-- A change that does not give children to leaves. -/
theorem Framed.serves {S T : Set NodeId} (h : Framed S T p q)
    (hT : ∀ k n, p.nodes.get? k = some n → n.children = ∅ → k ∉ T)
    (hold : ∀ k n, p.nodes.get? k = some n → n.children = ∅ →
      (∃ m, q.nodes.get? k = some m ∧ m.op.bare = n.op.bare) ∧ ∀ I, q.bag I k = p.bag I k) :
    Serves p q := by
  intro k n hn hleaf
  obtain ⟨⟨m, hm, hop⟩, hbag⟩ := hold k n hn hleaf
  have hchildren := h.children k (hT k n hn hleaf)
  rw [hm, hn, Option.map_some, Option.map_some, Option.some.injEq] at hchildren
  exact ⟨m, hm, hchildren.trans hleaf, hop, hbag⟩

theorem Coherent.ne_of_leaf (hp : p.Coherent) {u v : NodeId} (hn : p.nodes.get? k = some n)
    (hleaf : n.children = ∅) (huv : p.Feeds u v) : k ≠ u := by
  rintro rfl
  exact IdSet.not_mem_empty v (hleaf ▸ (hp.children hn).mpr huv)

theorem Spliced.serves {parent child : NodeId} {cs : NodeSet} {op : Op} {rel : Relation}
    (h : p.Spliced parent cs op rel q) (hp : p.Coherent) (hs : p.Sound) (hop : op.isBoundary = true)
    (hchild : child ∈ cs) : Serves p q := by
  obtain ⟨n, hn, hcs⟩ := h.subset
  have hfeeds : p.Feeds parent child := (hp.children hn).mp (hcs child hchild)
  refine (h.framed hs).serves (fun k m hm hleaf => ?_) fun k m hm _ => ⟨?_, fun I => ?_⟩
  · simp only [Set.mem_insert_iff, Set.mem_singleton_iff, not_or]
    exact ⟨hp.ne_nextId hm, hp.ne_of_leaf hm hleaf hfeeds⟩
  · obtain ⟨m', hm', hskeleton⟩ := h.get?_old hp hs hm
    exact ⟨m', hm', by rw [Node.bare_eq_of_skeleton_eq hskeleton, relinked_op]⟩
  · exact h.bag hp hs (Op.transform_boundary hop) hm

theorem Forked.serves {id child : NodeId} {rel : Relation} (h : p.Forked id child n rel q)
    (hp : p.Coherent) (hs : p.Sound) (hop : n.op ≠ .create) : Serves p q := by
  have hfeeds : p.Feeds id child := (hp.children h.node).mp h.member
  refine (h.framed hs).serves (fun k m hm hleaf => ?_) fun k m hm _ => ⟨?_, fun I => ?_⟩
  · simp only [Set.mem_union, Set.mem_insert_iff, Set.mem_singleton_iff, Set.mem_ofPred_eq, not_or]
    exact ⟨⟨hp.ne_nextId hm, hp.ne_of_leaf hm hleaf hfeeds⟩, fun hk =>
      hp.ne_of_leaf hm hleaf (hp.feeds_of_mem_parents h.node hk) rfl⟩
  · obtain ⟨m', hm', hskeleton⟩ := h.get?_old hp hs hm
    exact ⟨m', hm', by rw [Node.bare_eq_of_skeleton_eq hskeleton, forkedNode_op]⟩
  · exact h.bag hp hs hop hm

end Plan

end JointPlan
