import JointPlan.Proofs.Transport
import JointPlan.Proofs.Traversal

/-!
# Moving work above a concatenation

Swapping a row-wise operator with a concatenation and splitting an aggregate around
it are one kind of change: the node gets an operator to be run on each input, some
operators are appended below it, and then it is moved above the concatenation. Which
operators these are is said by `Op.Splits`. What has to be known about them is a law of
bags: the appended ones take the union of what the first yields on each input to what the
old operator yields on the union of all inputs.

The move is right only if nothing else reads the concatenation. A sweep sees to this
by forking concatenations before it comes to their readers; `Sweeping` is the
invariant that this stays true, in which the nodes still to be visited take part.
-/

namespace JointPlan

namespace Op

/-- The work of `op` is divided. It is done by `part` on each of many inputs, and by `rest`, one after
the other, on what comes of that. -/
inductive Splits : Op → Op → List Op → Prop
  | rowWise {op : Op} (h : op.isRowWise = true) : Splits op op []
  | sum {groups groups' : List Column} {c c' : Column} {out : String}
      (hgroups : positions groups' = List.range groups.length) (hc : c'.index = groups.length) :
      Splits (.sum groups c out) (.sum groups c out) [.sum groups' c' out]
  | count {groups groups' : List Column} {c' : Column} {out : String}
      (hgroups : positions groups' = List.range groups.length) (hc : c'.index = groups.length) :
      Splits (.count groups out) (.count groups out) [.sum groups' c' out]
  | numRows {c' : Column} {out : String} (hc : c'.index = 0) :
      Splits (.numRows out) (.numRows out) [.sum [] c' out]
  | distinct {cs cs' : List Column} (hcs : positions cs' = List.range cs.length) :
      Splits (.distinct cs) (.distinct cs) [.distinct cs']
  | mean {groups groups' : List Column} {c total size : Column} {out sumName countName : String}
      (hgroups : positions groups' = List.range groups.length) (htotal : total.index = groups.length)
      (hsize : size.index = groups.length + 1) :
      Splits (.mean groups c out none) (.sumCount groups c sumName countName) [.mean groups' total out (some size)]
  | stdDev {groups groups₁ groups₂ cs : List Column} {c total squares size : Column}
      {out sumName squaresName countName varianceName : String}
      (hgroups₁ : positions groups₁ = List.range groups.length)
      (hcs : positions cs = (List.range 3).map (groups.length + ·))
      (hgroups₂ : positions groups₂ = List.range groups.length) (htotal : total.index = groups.length)
      (hsquares : squares.index = groups.length + 1) (hsize : size.index = groups.length + 2) :
      Splits (.stdDev groups c out) (.sumSquaresCount groups c sumName squaresName countName)
        [.columnSums groups₁ cs, .variance groups₂ total squares size varianceName, .squareRoot out]

variable {op part : Op} {rest : List Op}

/-- Done in parts the work comes to the same rows. -/
theorem Splits.law (h : Splits op part rest) (I : Interpretation) (bags : List Bag) :
    rest.foldl (fun b op => op.transform I b) (bags.map (part.transform I)).sum = op.transform I bags.sum := by
  cases h <;> simp only [List.foldl_cons, List.foldl_nil]
  case rowWise h => exact (transform_sum h bags).symm
  case sum hgroups hc => exact transform_sum_of_sum hgroups hc
  case count hgroups hc => exact transform_sum_of_count hgroups hc
  case numRows hc => exact transform_sum_of_numRows hc
  case distinct hcs => exact transform_distinct_of_distinct hcs
  case mean hgroups htotal hsize => exact transform_mean_of_sumCount hgroups htotal hsize
  case stdDev hgroups₁ hcs hgroups₂ htotal hsquares hsize =>
    exact transform_squareRoot_of_sumSquaresCount hgroups₂ hgroups₁ hcs htotal hsquares hsize

theorem Splits.plain (h : Splits op part rest) : ∀ o ∈ part :: rest, o.isInner = true ∧ o ≠ .concat := by
  cases h with
  | rowWise h => cases op <;> simp_all [isRowWise, isInner]
  | _ => simp [isInner]

end Op

namespace Plan

-- ---------------------------------------------------------------------------
-- Appending operators
-- ---------------------------------------------------------------------------

/-- Operators appended below `X`, one below the other and all in front of the readers
that `X` had. -/
inductive Appended : Plan → NodeId → List Op → Plan → Prop
  | nil {p : Plan} {X : NodeId} : Appended p X [] p
  | cons {p q s : Plan} {X : NodeId} {n : Node} {op : Op} {ops : List Op} {rel : Relation}
      (hn : p.nodes.get? X = some n) (first : p.Spliced X n.children op rel q)
      (rest : Appended q p.nextId ops s) : Appended p X (op :: ops) s

variable {I : Interpretation} {p q : Plan} {k X : NodeId} {n m : Node} {op : Op} {ops : List Op}

namespace Appended

theorem coherent (h : Appended p X ops q) (hp : p.Coherent) : q.Coherent := by
  induction h with
  | nil => exact hp
  | cons _ first _ ih => exact ih (first.coherent hp)

theorem sound (h : Appended p X ops q) (hp : p.Sound) : q.Sound := by
  induction h with
  | nil => exact hp
  | cons _ first _ ih => exact ih (first.sound hp)

theorem nextId_le (h : Appended p X ops q) : p.nextId ≤ q.nextId := by
  induction h with
  | nil => exact Nat.le_refl _
  | cons _ first _ ih =>
    rw [first.nextId_eq] at ih
    exact (Nat.le_succ _).trans ih

/-- Only the readers that `X` had, and `X` itself, see the change. -/
theorem framed (h : Appended p X ops q) (hp : p.Coherent) (hs : p.Sound) :
    Framed ({k | p.nextId ≤ k} ∪ {c | p.Feeds X c}) ({k | p.nextId ≤ k} ∪ {X}) p q := by
  induction h with
  | nil => exact .refl
  | @cons p q s X n op ops rel hn first rest ih =>
    have hnext := first.nextId_eq
    have hle : {k | q.nextId ≤ k} ⊆ {k | p.nextId ≤ k} := fun k hk =>
      ((Nat.le_succ p.nextId).trans_eq hnext.symm).trans hk
    have hreaders : {c | q.Feeds p.nextId c} ⊆ {c | p.Feeds X c} := by
      intro c hc
      have := (feeds_iff_of_skeleton_eq (first.touched hs).skeleton).mp hc
      rw [feeds_splice] at this
      have := hp.ne_nextId hn
      have := hp.not_nextId_feeds (v := c)
      grind
    refine ((first.framed hs).mono ?_ ?_).trans ((ih (first.coherent hp) (first.sound hs)).mono ?_ ?_)
    · exact Set.union_subset_union (by simp) fun c hc => (hp.children hn).mp hc
    · rintro k (rfl | rfl) <;> simp
    · exact Set.union_subset_union hle hreaders
    · exact Set.union_subset (hle.trans Set.subset_union_left) (by simp)

/-- Where the operators of the plan come from. -/
theorem ops_of (h : Appended p X ops q) (hs : p.Sound) (hm : q.nodes.get? k = some m) :
    (∃ n, p.nodes.get? k = some n ∧ m.op.bare = n.op.bare) ∨ ∃ op ∈ ops, m.op.bare = op.bare := by
  induction h with
  | nil => exact .inl ⟨m, hm, rfl⟩
  | @cons p q s X n op ops rel hn first rest ih =>
    rcases ih (first.sound hs) hm with ⟨n', hn', hop⟩ | ⟨op', hop', hbare⟩
    · obtain ⟨o, ho, hskeleton⟩ := get?_of_skeleton_eq (first.touched hs).skeleton hn'
      have hbare := Node.bare_eq_of_skeleton_eq hskeleton
      rcases get?_splice_eq_some ho with ⟨-, rfl⟩ | ⟨-, o', ho', rfl⟩
      · exact .inr ⟨op, List.mem_cons_self, hop.trans hbare⟩
      · exact .inl ⟨o', ho', hop.trans (hbare.trans (by rw [relinked_op]))⟩
    · exact .inr ⟨op', List.mem_cons_of_mem _ hop', hbare⟩

theorem get?_old (h : Appended p X ops q) (hp : p.Coherent) (hs : p.Sound) (hn : p.nodes.get? k = some n) :
    ∃ m, q.nodes.get? k = some m ∧ m.op.bare = n.op.bare := by
  induction h generalizing n with
  | nil => exact ⟨n, hn, rfl⟩
  | cons _ first _ ih =>
    obtain ⟨m, hm, hskeleton⟩ := first.get?_old hp hs hn
    obtain ⟨o, ho, hop⟩ := ih (first.coherent hp) (first.sound hs) hm
    exact ⟨o, ho, by rw [hop, Node.bare_eq_of_skeleton_eq hskeleton, relinked_op]⟩

/-- The readers of `X` find what they found, and the appended operators turn what is
to be found at `X` into it. -/
theorem obeys {α : Type} {R : Rule α} {v r : NodeId → α} {y : α} (h : Appended p X ops q) (hp : p.Coherent) (hs : p.Sound)
    (hobeys : p.Obeys R v r) (hleads : R.Leads ops y (r X)) :
    ∃ v' r', q.Obeys R v' r' ∧ (∀ k < p.nextId, v' k = v k) ∧
      (∀ k < p.nextId, k ≠ X → r' k = r k) ∧ r' X = y ∧
      ∀ k n, q.nodes.get? k = some n → p.nextId ≤ k → r' k = v' k := by
  induction h generalizing v r y with
  | nil =>
    cases hleads
    exact ⟨v, r, hobeys, fun _ _ => rfl, fun _ _ _ => rfl, rfl, fun k n hn hk =>
      absurd (hp.below hn) (Nat.not_lt.mpr hk)⟩
  | @cons p q s X n op ops rel hn first rest ih =>
    have hnext := first.nextId_eq
    have hX := hp.ne_nextId hn
    cases hleads with
    | cons hop hleads =>
      have hspliced := (hobeys.splice hp hn (.inr rfl) (hop first.arity)).of_skeleton_eq (first.touched hs).skeleton
      obtain ⟨v', r', hobeys', hv', hr', hnew, hrest⟩ := ih (first.coherent hp) (first.sound hs) hspliced
        (by simpa using hleads)
      have hlt {k : Nat} (hk : k < p.nextId) : k < q.nextId := hnext ▸ Nat.lt_succ_of_lt hk
      refine ⟨v', r', hobeys', fun k hk => ?_, fun k hk hkX => ?_, ?_, fun k m hm hk => ?_⟩
      · rw [hv' k (hlt hk), Function.update_of_ne hk.ne]
      · rw [hr' k (hlt hk) hk.ne, Function.update_of_ne hk.ne, Function.update_of_ne hkX]
      · rw [hr' X (hlt (hp.below hn)) hX, Function.update_of_ne hX, Function.update_self]
      · rcases Nat.eq_or_lt_of_le hk with rfl | hk
        · rw [hnew, hv' _ (hnext ▸ Nat.lt_succ_self _), Function.update_self]
        · exact hrest k m hm (hnext ▸ hk)

end Appended

-- ---------------------------------------------------------------------------
-- The invariant of the sweep
-- ---------------------------------------------------------------------------

/-- What holds when the nodes in `rest` are still to be visited: a concatenation that
has had its turn and enters MPC has one reader. -/
structure Sweeping (p : Plan) (rest : List NodeId) : Prop extends p.Orderly where
  ordered : p.Ordered rest
  pending : ∀ u ∈ rest, p.contains u = true
  narrow : ∀ k n, p.nodes.get? k = some n → n.op = .concat → k ∉ rest → 1 < n.children.size →
    p.isUpperBoundary k ≠ .ok true

variable {rest : List NodeId} {S T : Set NodeId}

theorem Ordered.congr {l : List NodeId} (h : p.Ordered l)
    (hl : ∀ u ∈ l, (q.nodes.get? u).map Node.children = (p.nodes.get? u).map Node.children)
    (hcontains : ∀ u ∈ l, ∀ w, p.Edge u w → q.contains w = true → p.contains w = true) :
    q.Ordered l := by
  induction l with
  | nil => trivial
  | cons a l ih =>
    refine ⟨h.1, fun w haw hw => ?_, ih h.2.2 (fun u hu => hl u (List.mem_cons_of_mem _ hu))
      fun u hu => hcontains u (List.mem_cons_of_mem _ hu)⟩
    have haw' : p.Edge a w := by
      obtain ⟨n, hn, hw⟩ := haw
      have := hl a List.mem_cons_self
      rw [hn, Option.map_some] at this
      obtain ⟨m, hm, hmn⟩ := Option.map_eq_some_iff.mp this.symm
      exact ⟨m, hm, hmn ▸ hw⟩
    exact h.2.1 w haw' (hcontains a List.mem_cons_self w haw' hw)

namespace Sweeping

/-- All nodes are to be visited. -/
theorem start {order : List NodeId} (hp : p.Orderly) (horder : p.topSort = .ok order) :
    p.Sweeping order where
  toOrderly := hp
  ordered := ordered_of_topSortFrom horder
  pending _ hu := (hp.coherent.mem_topSort horder).mp hu
  narrow _ _ hn _ hk := absurd ((hp.coherent.mem_topSort horder).mpr (contains_of_get? hn)) hk

theorem mem_of_feeds_head (h : p.Sweeping (X :: rest)) (hXk : p.Feeds X k) : k ∈ rest := by
  have ⟨m, hm, _⟩ := hXk
  exact h.ordered.2.1 k (h.coherent.edge_iff.mpr hXk) (contains_of_get? hm)

theorem below_of_mem (h : p.Sweeping rest) (hk : k ∈ rest) : k < p.nextId := by
  obtain ⟨n, hn⟩ := Option.isSome_iff_exists.mp (h.pending k hk)
  exact h.coherent.below hn

/-- Nothing is done at a node. -/
theorem skip (h : p.Sweeping (X :: rest))
    (hX : ∀ n, p.nodes.get? X = some n → n.op = .concat → 1 < n.children.size →
      p.isUpperBoundary X ≠ .ok true) : p.Sweeping rest where
  toOrderly := h.toOrderly
  ordered := h.ordered.2.2
  pending u hu := h.pending u (List.mem_cons_of_mem _ hu)
  narrow k n hn hop hk hsize := by
    by_cases hkX : k = X
    · exact hkX ▸ hX n (hkX ▸ hn) hop hsize
    · exact h.narrow k n hn hop (by simp [hkX, hk]) hsize

/-- A change that is confined to nodes that are `late`, to new ones, and to the children
of nodes that do not need MPC. -/
theorem rework (h : p.Sweeping (X :: rest)) (late : Set NodeId) (hX : X ∈ late)
    (hlate : ∀ u w, u ∈ late → p.Feeds u w → w ∈ late) (hframe : Framed S T p q)
    (hS : S ⊆ {k | p.nextId ≤ k} ∪ late) (hT : ∀ u ∈ T, u ∉ late → u < p.nextId →
      p.requiresMpc u = .ok false) (hT' : ∀ u ∈ rest, u ∉ T)
    (orderly : q.Orderly)
    (hnarrow : ∀ k n, q.nodes.get? k = some n → n.op = .concat → k ∉ rest →
      k ∈ late ∨ p.nextId ≤ k → n.children.size ≤ 1) : q.Sweeping rest where
  toOrderly := orderly
  ordered := by
    refine h.ordered.2.2.congr (fun u hu => hframe.children u (hT' u hu)) fun u hu w huw _ => ?_
    have ⟨m, hm, _⟩ := h.coherent.edge_iff.mp huw
    exact contains_of_get? hm
  pending u hu := by
    have hu' := h.pending u (List.mem_cons_of_mem _ hu)
    have := congrArg Option.isSome (hframe.children u (hT' u hu))
    rwa [Option.isSome_map, Option.isSome_map, show (p.nodes.get? u).isSome = true from hu'] at this
  narrow k n hn hop hk hsize := by
    have hk' : k ∉ late ∧ ¬ p.nextId ≤ k := by
      rw [← not_or]
      exact fun hor => Nat.not_lt.mpr (hnarrow k n hn hop hk hor) hsize
    have houtside {u : NodeId} (hu : u ∉ late) (hlt : ¬ p.nextId ≤ u) : Alike p q u :=
      hframe.alike u fun hs => (hS hs).elim hlt hu
    have habove {u w : NodeId} (huw : p.Feeds u w) (hw : w ∉ late) : u ∉ late ∧ ¬ p.nextId ≤ u :=
      ⟨fun hu => hw (hlate u w hu huw), Nat.not_le.mpr (h.coherent.source_lt huw)⟩
    have hupper : q.isUpperBoundary k = p.isUpperBoundary k :=
      h.coherent.toLinked.isUpperBoundary_alike {u | u ∉ late ∧ ¬ p.nextId ≤ u}
        orderly.coherent.toLinked (fun _ _ huw hw => habove huw hw.1) (fun _ hu => houtside hu.1 hu.2) hk'
    rw [hupper]
    by_cases hkT : k ∈ T
    · have := hT k hkT hk'.1 (Nat.not_le.mp hk'.2)
      simp [isUpperBoundary, this, bind, Except.bind, pure, Except.pure]
    · have hn' : p.nodes.get? k = some n :=
        (hframe.get? (fun hs => (hS hs).elim hk'.2 hk'.1) hkT).symm.trans hn
      have hkX : k ≠ X := fun hkX => hk'.1 (hkX ▸ hX)
      exact h.narrow k n hn' hop (by simp [hkX, hk]) hsize

end Sweeping

-- ---------------------------------------------------------------------------
-- Moving work above a concatenation
-- ---------------------------------------------------------------------------

/-- The node `X` reads a concatenation `D` that enters MPC. -/
structure Entry (p : Plan) (D X : NodeId) (t x : Node) : Prop where
  upper : p.nodes.get? D = some t
  lower : p.nodes.get? X = some x
  fed : x.inputs = .unary D
  concat : t.op = .concat
  enters : p.isUpperBoundary D = .ok true

/-- The node `X` has got the operator `part`. -/
structure Exchanged (p : Plan) (X : NodeId) (x : Node) (part : Op) (q : Plan) : Prop where
  node : p.nodes.get? X = some x
  arity : x.op.arity = .unary
  unary : part.arity = .unary
  outline : q.outline = (p.set X { x with op := part }).outline
  touched : p.Sound → Touched {X} (p.set X { x with op := part }) q
  sound : p.Sound → q.Sound

/-- The work of the node `X` is parted into `part`, which stays there, and `ops` below it.
If it is done on many inputs, `part` can be done on each. -/
structure Parted (p : Plan) (X : NodeId) (x : Node) (part : Op) (ops : List Op) (p₁ q : Plan) :
    Prop extends p.Exchanged X x part p₁ where
  splits : p.Sound → x.op.Splits part ops
  appended : p₁.Appended X ops q

/-- The work at `X` is done by `part` on each input of the concatenation `D`, and by `ops`
after it. -/
structure Distributed (p : Plan) (D X : NodeId) (t x : Node) (part : Op) (ops : List Op) (q : Plan)
    (p₁ p₂ : Plan) (t' b : Node) : Prop extends p.Entry D X t x, p.Parted X x part ops p₁ p₂ where
  single : x.children.size = 1
  pushed : p₂.Pushed D X t' b q

variable {D : NodeId} {t x t' b : Node} {part : Op} {p₁ p₂ : Plan}

namespace Entry

theorem feeds (h : p.Entry D X t x) : p.Feeds D X := ⟨x, h.lower, by simp [h.fed]⟩

theorem upper_notMem (h : p.Entry D X t x) (hp : p.Sweeping (X :: rest)) : D ∉ X :: rest := by
  intro hD
  rcases List.mem_cons.mp hD with rfl | hD
  · exact hp.coherent.not_feeds_self h.feeds
  · exact hp.ordered.1 (hp.coherent.mem_of_feeds hp.ordered.2.2 hD h.feeds)

/-- Nothing else reads the concatenation. -/
theorem only (h : p.Entry D X t x) (hp : p.Sweeping (X :: rest)) : ∀ c ∈ t.children, c = X := by
  have hsize : t.children.size ≤ 1 := Nat.not_lt.mp fun hlt =>
    hp.narrow D t h.upper h.concat (h.upper_notMem hp) hlt h.enters
  exact fun c hc => IdSet.eq_of_size_le_one hsize hc ((hp.coherent.children h.upper).mpr h.feeds)

/-- What feeds the concatenation does not need MPC. -/
theorem clear (h : p.Entry D X t x) (hp : p.Coherent) {u : NodeId} (hu : u ∈ t.inputs.ids) :
    p.requiresMpc u = .ok false :=
  ((isUpperBoundary_eq_true h.upper).mp h.enters).2 u ((hp.parents h.upper).mpr hu)

end Entry

namespace Exchanged

/-- The node keeps its operator. -/
theorem refl (hx : p.nodes.get? X = some x) (harity : x.op.arity = .unary) : p.Exchanged X x x.op p := by
  have hself : p.set X { x with op := x.op } = p := set_self hx
  refine ⟨hx, harity, harity, ?_, fun _ => ?_, id⟩ <;> rw [hself]
  exact .refl

variable (h : p.Exchanged X x part q)

include h

theorem coherent (hp : p.Coherent) : q.Coherent :=
  ((SameGraph.set_op h.node (h.unary.trans h.arity.symm)).coherent hp).of_outline_eq h.outline

theorem nextId_eq : q.nextId = p.nextId := (nextId_eq_of_outline_eq h.outline).trans set_nextId

end Exchanged

namespace Parted

variable (h : p.Parted X x part ops p₁ p₂)
include h

theorem coherent₂ (hp : p.Coherent) : p₂.Coherent := h.appended.coherent (h.toExchanged.coherent hp)

theorem sound₂ (hs : p.Sound) : p₂.Sound := h.appended.sound (h.sound hs)

theorem nextId_le : p.nextId ≤ p₂.nextId := h.toExchanged.nextId_eq ▸ h.appended.nextId_le

theorem framed₂ (hp : p.Coherent) (hs : p.Sound) :
    Framed ({k | p.nextId ≤ k} ∪ {X} ∪ {c | p.Feeds X c}) ({k | p.nextId ≤ k} ∪ {X}) p p₂ := by
  have hfeeds (c : NodeId) : p₁.Feeds X c ↔ p.Feeds X c :=
    (feeds_iff_of_skeleton_eq (h.touched hs).skeleton).trans (feeds_set_op h.node)
  have := h.appended.framed (h.toExchanged.coherent hp) (h.sound hs)
  rw [h.toExchanged.nextId_eq] at this
  simp only [hfeeds] at this
  refine (((h.touched hs).framed_set_op h.node).mono ?_ (by simp)).trans (this.mono ?_ subset_rfl)
  · exact fun k hk => .inl (.inr hk)
  · exact Set.union_subset_union_left _ Set.subset_union_left

/-- The operators afterwards are old ones or those given. -/
theorem ops_of₂ (hs : p.Sound) (hm : p₂.nodes.get? k = some m) :
    (∃ n, p.nodes.get? k = some n ∧ m.op.bare = n.op.bare) ∨
      ∃ op ∈ part :: ops, m.op.bare = op.bare := by
  rcases h.appended.ops_of (h.sound hs) hm with ⟨n₁, hn₁, hop⟩ | ⟨op, hop, hbare⟩
  · obtain ⟨n, hn, hskeleton⟩ := get?_of_skeleton_eq (h.touched hs).skeleton hn₁
    rw [hop, Node.bare_eq_of_skeleton_eq hskeleton]
    rw [get?_set] at hn
    split at hn
    · cases hn
      exact .inr ⟨part, List.mem_cons_self, rfl⟩
    · exact .inl ⟨n, hn, rfl⟩
  · exact .inr ⟨op, List.mem_cons_of_mem _ hop, hbare⟩

theorem get?_old₂ (hp : p.Coherent) (hs : p.Sound) (hn : p.nodes.get? k = some n) (hk : k ≠ X) :
    ∃ m, p₂.nodes.get? k = some m ∧ m.op.bare = n.op.bare := by
  have hn' : (p.set X { x with op := part }).nodes.get? k = some n := by rw [get?_set, if_neg hk, hn]
  obtain ⟨n₁, hn₁, hskeleton⟩ := get?_of_skeleton_eq (h.touched hs).skeleton.symm hn'
  obtain ⟨n₂, hn₂, hop⟩ := h.appended.get?_old (h.toExchanged.coherent hp) (h.sound hs) hn₁
  exact ⟨n₂, hn₂, hop.trans (Node.bare_eq_of_skeleton_eq hskeleton).symm⟩

/-- A concatenation is left alone while the work of its reader is parted. -/
theorem get?_entry (entry : p.Entry D X t x) (hp : p.Coherent) (hs : p.Sound) : p₂.nodes.get? D = some t := by
  have hne : D ≠ X := by
    rintro rfl
    exact hp.not_feeds_self entry.feeds
  have hlt : ¬ p.nextId ≤ D := Nat.not_le.mpr (hp.below entry.upper)
  rw [(h.framed₂ hp hs).get? (k := D) (by simp [hlt, hne, hp.not_feeds_back entry.feeds]) (by simp [hlt, hne])]
  exact entry.upper

end Parted

namespace Distributed

variable (h : p.Distributed D X t x part ops q p₁ p₂ t' b) (hs : p.Sound)
include h hs

/-- The concatenation is as it was when the node is moved. -/
theorem upper_eq (hp : p.Coherent) : t' = t :=
  Option.some.inj (h.pushed.upper.symm.trans (h.toParted.get?_entry h.toEntry hp hs))

theorem framed (hp : p.Coherent) :
    Framed ({k | p.nextId ≤ k} ∪ {D, X} ∪ {c | p.Feeds X c})
      ({k | p.nextId ≤ k} ∪ {D, X} ∪ {u | u ∈ t.inputs.ids}) p q := by
  have hle : {k | p₂.nextId ≤ k} ⊆ {k | p.nextId ≤ k} := fun k hk => h.nextId_le.trans hk
  have hreaders : {c | c ∈ b.children} ⊆ {k | p.nextId ≤ k} ∪ {D, X} ∪ {c | p.Feeds X c} := by
    intro c hc
    have hfeeds := ((h.coherent₂ hp).children h.pushed.lower).mp hc
    by_contra hout
    simp only [Set.mem_union, Set.mem_insert_iff, Set.mem_singleton_iff, Set.mem_ofPred_eq,
      not_or] at hout
    have halike := (h.framed₂ hp hs).alike c (by simp [hout])
    exact hout.2 (halike.feeds.mp hfeeds)
  have hpushed := h.pushed.framed (h.sound₂ hs)
  rw [h.upper_eq hs hp] at hpushed
  refine ((h.framed₂ hp hs).mono ?_ ?_).trans (hpushed.mono ?_ ?_)
  · exact Set.union_subset_union_left _ (Set.union_subset_union_right _ (by simp))
  · exact (Set.union_subset_union_right _ (by simp)).trans Set.subset_union_left
  · exact Set.union_subset ((Set.union_subset_union_left _ hle).trans Set.subset_union_left) hreaders
  · exact Set.union_subset_union_left _ (Set.union_subset_union_left _ hle)

theorem lower_bare (hp : p.Coherent) : b.op.bare = part.bare := by
  have hx : (p.set X { x with op := part }).nodes.get? X = some { x with op := part } := by
    simp [get?_set]
  obtain ⟨x₁, hx₁, hskeleton⟩ := get?_of_skeleton_eq (h.touched hs).skeleton.symm hx
  obtain ⟨x₂, hx₂, hop⟩ := h.appended.get?_old (h.toExchanged.coherent hp) (h.sound hs) hx₁
  cases h.pushed.lower.symm.trans hx₂
  rw [hop, ← Node.bare_eq_of_skeleton_eq hskeleton]

theorem ops_of (hp : p.Coherent) (hm : q.nodes.get? k = some m) :
    (∃ n, p.nodes.get? k = some n ∧ m.op.bare = n.op.bare) ∨
      ∃ op ∈ part :: ops, m.op.bare = op.bare := by
  obtain ⟨m', hm', hskeleton⟩ := get?_of_skeleton_eq (h.pushed.touched (h.sound₂ hs)).skeleton hm
  rw [Node.bare_eq_of_skeleton_eq hskeleton]
  rcases get?_pushed_eq_some (h.coherent₂ hp).toLinked hm' with ⟨i, input, -, -, rfl⟩ | ⟨-, -, n₂, hn₂, rfl⟩
  · exact .inr ⟨part, List.mem_cons_self, h.lower_bare hs hp⟩
  · rw [pushedNode_op]
    exact h.ops_of₂ hs hn₂

theorem get?_old (hp : p.Coherent) (hn : p.nodes.get? k = some n) (hk : k ≠ X) :
    ∃ m, q.nodes.get? k = some m ∧ m.op.bare = n.op.bare := by
  obtain ⟨n₂, hn₂, hop⟩ := h.get?_old₂ hp hs hn hk
  obtain ⟨m, hm, hskeleton⟩ := h.pushed.get?_old (h.coherent₂ hp) (h.sound₂ hs) hn₂ hk
  exact ⟨m, hm, by rw [Node.bare_eq_of_skeleton_eq hskeleton, pushedNode_op, hop]⟩

omit hs

/-- Where the parts yield on each input what the rest turns into the old result, only the nodes at
the concatenation change. -/
theorem obeys {α : Type} [Inhabited α] {R : Rule α} {v : NodeId → α} {s y : α} {copies : List α}
    (hp : p.Sweeping (X :: rest)) (hobeys : p.Obeys R v v) (hhere : R.Yields [v D] part s)
    (heach : List.Forall₂ (fun u out => R.Yields [v u] part out) t.inputs.ids copies)
    (hall : R.Yields copies .concat y) (hleads : R.Leads ops y (v X)) :
    ∃ v', q.Obeys R v' v' ∧ ∀ k n, p.nodes.get? k = some n → k ≠ D → k ≠ X → v' k = v k := by
  have hc := hp.coherent
  -- `X` yields a part, and its readers are to find what all parts together come to
  have hset := (hobeys.set_op h.fed hhere).of_skeleton_eq (h.touched hp.sound).skeleton
  obtain ⟨v₂, r₂, hobeys₂, hv, hr, hrX, hnew⟩ :=
    h.appended.obeys (h.toExchanged.coherent hc) (h.sound hp.sound) hset hleads
  rw [h.toExchanged.nextId_eq] at hv hr hnew
  have hsame : ∀ k n, p₂.nodes.get? k = some n → k ≠ X → r₂ k = v₂ k := by
    intro k n hn hk
    by_cases hlt : k < p.nextId
    · rw [hr k hlt hk, hv k hlt, Function.update_of_ne hk]
    · exact hnew k n hn (Nat.not_lt.mp hlt)
  have hupper := h.upper_eq hp.sound hc
  have hcopies : List.Forall₂ (fun u out => R.Yields [r₂ u] b.op out) t.inputs.ids copies := by
    refine ((List.forall₂_and_left _ _).mpr ⟨fun u hu => hu, heach⟩).imp fun u out hu => ?_
    have huD : p.Feeds u D := ⟨t, h.upper, hu.1⟩
    obtain ⟨m, hm⟩ := hc.closed huD
    have huX : u ≠ X := by rintro rfl; exact hc.not_feeds_back h.toEntry.feeds huD
    rw [hr u (hc.below hm) huX]
    exact hu.2.of_bare_eq (h.lower_bare hp.sound hc).symm (Op.ne_create_of_unary h.unary)
  have hpushed := h.pushed
  rw [hupper] at hpushed
  have hobeys' := (hobeys₂.pushed (h.coherent₂ hc) hpushed.upper (h.toEntry.only hp) hcopies
    (by rw [h.concat, hrX]; exact hall)).of_skeleton_eq (hpushed.touched (h.sound₂ hp.sound)).skeleton
  refine ⟨_, hobeys'.congr (hpushed.coherent (h.coherent₂ hc)).toLinked (fun _ _ _ => rfl) fun k n hn => ?_, ?_⟩
  · obtain ⟨m, hm, -⟩ := get?_of_skeleton_eq (hpushed.touched (h.sound₂ hp.sound)).skeleton hn
    rcases get?_pushed_eq_some (h.coherent₂ hc).toLinked hm with ⟨i, input, rfl, -, -⟩ | ⟨hk, hkX, n, hn, -⟩
    · simp [withCopies]
    · rw [withCopies_old hk, withCopies_old hk]
      by_cases hkD : k = D
      · simp [hkD]
      · rw [Function.update_of_ne hkD, Function.update_of_ne hkD, hsame k n hn hkX]
  · intro k n hn hkD hkX
    have hk := hc.below hn
    rw [withCopies_old (hk.trans_le h.nextId_le), Function.update_of_ne hkD, hv k hk, Function.update_of_ne hkX]

/-- Only the nodes at the concatenation yield other rows. -/
theorem bag_eq (hp : p.Sweeping (X :: rest)) (hn : p.nodes.get? k = some n) (hkD : k ≠ D)
    (hkX : k ≠ X) : q.bag I k = p.bag I k := by
  have hc := hp.coherent
  have hD : p.bag I D = (t.inputs.ids.map (p.bag I)).sum := by
    rw [hc.bag_models D t h.upper, Node.meaning_of_ne_create (by simp [h.concat]), h.concat,
      Op.meaning_concat]
  have hX : p.bag I X = x.op.transform I (p.bag I D) := by
    rw [hc.bag_models X x h.lower, Node.meaning_of_ne_create (Op.ne_create_of_unary h.arity), h.fed, Inputs.ids_unary,
      List.map_singleton, Op.meaning_unary h.arity]
  have hlaw := (h.splits hp.sound).law I (t.inputs.ids.map (p.bag I))
  rw [← hD, ← hX] at hlaw
  have heach : List.Forall₂ (fun u out => (Rule.bags I).Yields [p.bag I u] part out) t.inputs.ids
      ((t.inputs.ids.map (p.bag I)).map (part.transform I)) := by
    simpa [List.forall₂_map_right_iff, List.forall₂_same] using fun u _ => Rule.bags_yields I h.unary (p.bag I u)
  have hall : (Rule.bags I).Yields ((t.inputs.ids.map (p.bag I)).map (part.transform I)) .concat _ := fun m hm =>
    show _ = m.meaning I _ by rw [Node.meaning_of_ne_create (by simp [hm]), hm, Op.meaning_concat]
  obtain ⟨v, hobeys, hold⟩ := h.obeys hp hc.bag_obeys (Rule.bags_yields I h.unary _) heach hall
    (hlaw ▸ Rule.bags_leads I ops _)
  obtain ⟨m, hm, -⟩ := h.get?_old hp.sound hc hn hkX
  rw [(h.pushed.coherent (h.coherent₂ hc)).bag_eq hobeys hm, hold k n hn hkD hkX]

theorem serves (hp : p.Sweeping (X :: rest)) : Serves p q := by
  have hc := hp.coherent
  obtain ⟨c, hXc⟩ := IdSet.exists_mem_of_size_pos (h.single ▸ Nat.one_pos)
  have hXc := (hc.children h.lower).mp hXc
  have hDX := h.toEntry.feeds
  refine (h.framed hp.sound hc).serves (fun k n hn hleaf => ?_) fun k n hn hleaf => ⟨?_, fun I => ?_⟩
  · simp only [Set.mem_union, Set.mem_insert_iff, Set.mem_singleton_iff, Set.mem_ofPred_eq, not_or]
    exact ⟨⟨Nat.not_le.mpr (hc.below hn), hc.ne_of_leaf hn hleaf hDX, hc.ne_of_leaf hn hleaf hXc⟩,
      fun hk => hc.ne_of_leaf hn hleaf ⟨t, h.upper, hk⟩ rfl⟩
  · exact h.get?_old hp.sound hc hn (hc.ne_of_leaf hn hleaf hXc)
  · exact h.bag_eq hp hn (hc.ne_of_leaf hn hleaf hDX) (hc.ne_of_leaf hn hleaf hXc)

/-- A concatenation among the nodes that have changed has one reader. -/
theorem children_size_le_one (hp : p.Sweeping (X :: rest)) (hm : q.nodes.get? k = some m)
    (hop : m.op = .concat) (hk : k = D ∨ k = X ∨ p.nextId ≤ k) : m.children.size ≤ 1 := by
  have hc := hp.coherent
  rcases h.ops_of hp.sound hc hm with ⟨n, hn, -⟩ | ⟨op, hmem, hbare⟩
  · obtain ⟨m', hm', hskeleton⟩ := get?_of_skeleton_eq (h.pushed.touched (h.sound₂ hp.sound)).skeleton hm
    rw [Node.children_eq_of_skeleton_eq hskeleton]
    rcases get?_pushed_eq_some (h.coherent₂ hc).toLinked hm' with ⟨i, -, rfl, -, -⟩ | ⟨-, hkX, t₂, ht₂, rfl⟩
    · exact absurd (hc.below hn) (Nat.not_lt.mpr (h.nextId_le.trans (Nat.le_add_right _ _)))
    · obtain rfl : k = D :=
        hk.resolve_right fun hk => hk.elim hkX (Nat.not_le.mpr (hc.below hn))
      cases h.pushed.upper.symm.trans ht₂
      have hreaders : t'.children.erase X ∪ b.children = b.children := by
        have := h.toEntry.only hp
        rw [← h.upper_eq hp.sound hc] at this
        ext c
        have := this c
        simp only [IdSet.mem_union, IdSet.mem_erase]
        tauto
      rw [pushedNode_children, if_pos rfl, hreaders]
      exact h.pushed.single
  · rw [hop] at hbare
    exact absurd (Op.eq_of_bare_eq hbare.symm rfl) ((h.splits hp.sound).plain op hmem).2

theorem placed {P : NodeId → Op → Prop} (hP : Placement P) (hp : p.Sweeping (X :: rest)) (hplaced : p.Placed P) :
    q.Placed P := by
  intro k n hn
  rcases h.ops_of hp.sound hp.coherent hn with ⟨m, hm, hop⟩ | ⟨op, hop, hbare⟩
  · exact hP.bare hop (hplaced k m hm)
  · exact hP.bare hbare (hP.inner ((h.splits hp.sound).plain op hop).1)

theorem sweeping (hp : p.Sweeping (X :: rest)) : q.Sweeping rest := by
  have hc := hp.coherent
  have hD := h.toEntry.upper_notMem hp
  refine hp.rework ({D, X} ∪ {u | u ∈ rest}) (by simp) ?_ (h.framed hp.sound hc) ?_ ?_ ?_
    ⟨h.pushed.coherent (h.coherent₂ hc), h.pushed.sound (h.sound₂ hp.sound)⟩ ?_
  · rintro u w ((rfl | rfl) | hu) huw
    · exact .inl (.inr (h.toEntry.only hp w ((hc.children h.upper).mpr huw)))
    · exact .inr (hp.mem_of_feeds_head huw)
    · exact .inr (hc.mem_of_feeds hp.ordered.2.2 hu huw)
  · rintro k ((hk | hk) | hk)
    · exact .inl hk
    · exact .inr (.inl hk)
    · exact .inr (.inr (hp.mem_of_feeds_head hk))
  · rintro u ((hu | hu) | hu) hlate hlt
    · exact absurd hlt (Nat.not_lt.mpr hu)
    · exact absurd (.inl hu) hlate
    · exact h.toEntry.clear hc hu
  · rintro u hu ((hold | rfl | rfl) | hin)
    · exact Nat.not_lt.mpr hold (hp.below_of_mem (List.mem_cons_of_mem _ hu))
    · exact hD (List.mem_cons_of_mem _ hu)
    · exact hp.ordered.1 hu
    · exact hD (List.mem_cons_of_mem _ (hc.mem_of_feeds hp.ordered.2.2 hu ⟨t, h.upper, hin⟩))
  · rintro k n hn hop hk (((rfl | rfl) | hrest) | hnew)
    · exact h.children_size_le_one hp hn hop (.inl rfl)
    · exact h.children_size_le_one hp hn hop (.inr (.inl rfl))
    · exact absurd hrest hk
    · exact h.children_size_le_one hp hn hop (.inr (.inr hnew))

end Distributed

end Plan

end JointPlan
