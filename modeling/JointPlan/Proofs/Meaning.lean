import JointPlan.Plan.Validity
import JointPlan.Proofs.Coherence
import JointPlan.Proofs.Rows

/-!
# What a plan computes

Every operator is given a meaning on bags of rows. It depends on the positions of
the columns it is bound to and on nothing else that is derived, so plans with one
skeleton compute the same. Operators that only order, move or hide rows are the
identity.

`Plan.bag` follows the inputs of a node upwards. In a coherent plan it is the only
assignment of bags to nodes in which every node yields the meaning of its operator
(`Coherent.bag_eq`, `Coherent.bag_unique`); this is how the changes of a plan are
compared later on.
-/

namespace JointPlan

/-- What is left open by a plan. -/
structure Interpretation where
  /-- The rows of a source relation. -/
  source : String → Bag
  /-- The number that a constant stands for. -/
  scalar : Scalar → ℚ
  /-- The function that takes a variance to a standard deviation. -/
  root : ℚ → ℚ

-- ---------------------------------------------------------------------------
-- Operators
-- ---------------------------------------------------------------------------

namespace Comparator

def holds : Comparator → ℚ → ℚ → Bool
  | .eq, x, y => x = y
  | .notEq, x, y => x ≠ y
  | .lt, x, y => x < y
  | .le, x, y => x ≤ y
  | .gt, x, y => y < x
  | .ge, x, y => y ≤ x

end Comparator

namespace Arithmetic

/-- The product, or the quotient from left to right. Division by zero is zero. -/
def apply : Arithmetic → List ℚ → ℚ
  | .multiply, xs => xs.prod
  | .divide, [] => 1
  | .divide, x :: xs => xs.foldl (· / ·) x

end Arithmetic

namespace Operand

def value (I : Interpretation) (r : Row) : Operand → ℚ
  | .column c => r.cell c.index
  | .scalar s => I.scalar s

end Operand

namespace Column

/-- The value of the column in a row. -/
def value (c : Column) (r : Row) : ℚ := r.cell c.index

end Column

namespace Op

variable {I : Interpretation}

def positions (cs : List Column) : List Nat := cs.map Column.index

def varianceOf (total squares size : ℚ) : ℚ := squares / size - (total / size) ^ 2

open Bag in
/-- What a unary operator makes of its input. -/
def transform (I : Interpretation) : Op → Bag → Bag
  | .project cs => fun b => b.map (Row.pick (positions cs))
  | .distinct cs => fun b => (b.map (Row.pick (positions cs))).dedup
  | .arithmetic fn target operands appends => fun b => b.map fun r =>
    let x := fn.apply (operands.map (Operand.value I r))
    if appends then r ++ [x] else r.set target.index x
  | .filterByColumn c against test => fun b => b.filter fun r => test.holds (c.value r) (against.value r)
  | .filterByScalar c scalar test => fun b => b.filter fun r => test.holds (c.value r) (I.scalar scalar)
  | .numRows _ => aggregate [] (sums [fun _ => 1])
  | .count groups _ => aggregate (positions groups) (sums [fun _ => 1])
  | .sum groups c _ => aggregate (positions groups) (sums [c.value])
  | .mean groups c _ none => aggregate (positions groups) fun b => [total c.value b / total (fun _ => 1) b]
  | .mean groups c _ (some weight) =>
    aggregate (positions groups) fun b => [total c.value b / total weight.value b]
  | .stdDev groups c _ => aggregate (positions groups) fun b =>
    [I.root (varianceOf (total c.value b) (total (fun r => c.value r ^ 2) b) (total (fun _ => 1) b))]
  | .sumCount groups c _ _ => aggregate (positions groups) (sums [c.value, fun _ => 1])
  | .sumSquaresCount groups c _ _ _ =>
    aggregate (positions groups) (sums [c.value, fun r => c.value r ^ 2, fun _ => 1])
  | .columnSums groups cs => aggregate (positions groups) (sums (cs.map Column.value))
  | .variance groups total squares size _ => fun b => b.map fun r =>
    r.pick (positions groups) ++ [varianceOf (total.value r) (squares.value r) (size.value r)]
  | .squareRoot _ => fun b => b.map fun r => r.dropLast ++ [I.root (r.getLastD 0)]
  | _ => id

/-- Rows that agree on the keys: the keys, the rest of the left row, that of the right one. -/
def joinRows (leftKeys rightKeys : List Nat) (left right : Bag) : Bag :=
  left.bind fun l => (right.filter fun r => l.pick leftKeys = r.pick rightKeys).map fun r =>
    l.pick leftKeys ++ l.rest leftKeys ++ r.rest rightKeys

/-- What an operator makes of its inputs. -/
def meaning (I : Interpretation) : Op → List Bag → Bag
  | .concat, ins => ins.sum
  | .join leftKeys rightKeys, [left, right] =>
    joinRows (positions leftKeys) (positions rightKeys) left right
  | .memberFilter c member isIn, [left, right] =>
    left.filter fun r => decide (c.value r ∈ right.map member.value) = isIn
  | .columnUnion l r _, [left, right] => left.map (Row.pick [l.index]) + right.map (Row.pick [r.index])
  | op, [b] => op.transform I b
  | _, _ => 0

theorem meaning_unary {op : Op} (h : op.arity = .unary) (b : Bag) :
    op.meaning I [b] = op.transform I b := by
  cases op <;> first | rfl | cases h

@[simp] theorem meaning_concat (ins : List Bag) : Op.concat.meaning I ins = ins.sum := rfl

/-- Only the positions of bound columns matter. -/
theorem transform_mapBound {op : Op} {f : Nat → Column → Column} (hf : ∀ i c, (f i c).index = c.index) :
    (op.mapBound f).transform I = op.transform I := by
  have hvalue (i : Nat) (c : Column) : (f i c).value = c.value := by
    funext r
    simp [Column.value, hf]
  have hpositions (i : Nat) (cs : List Column) : positions (cs.map (f i)) = positions cs := by
    simp [positions, hf]
  have hoperand (r : Row) (o : Operand) : (o.mapColumn (f 0)).value I r = o.value I r := by
    cases o <;> simp [Operand.mapColumn, Operand.value, hf]
  cases op
  case arithmetic fn target operands appends =>
    cases appends <;> simp [mapBound, transform, Function.comp_def, hoperand, hf]
  case mean groups c name weight =>
    cases weight <;> simp [mapBound, transform, hpositions, hvalue]
  all_goals simp [mapBound, transform, hpositions, hvalue, Function.comp_def]

theorem meaning_mapBound {op : Op} {f : Nat → Column → Column} (hf : ∀ i c, (f i c).index = c.index) :
    (op.mapBound f).meaning I = op.meaning I := by
  have htransform : (op.mapBound f).transform I = op.transform I := transform_mapBound hf
  have hvalue (i : Nat) (c : Column) : (f i c).value = c.value := by
    funext r
    simp [Column.value, hf]
  have hpositions (i : Nat) (cs : List Column) : positions (cs.map (f i)) = positions cs := by
    simp [positions, hf]
  funext ins
  rcases ins with _ | ⟨b, _ | ⟨c, _ | ⟨d, ins⟩⟩⟩
  · cases op <;> rfl
  · cases op <;> first | rfl | exact congrFun htransform b
  · cases op
    case join => simp [mapBound, meaning, hpositions]
    case memberFilter => simp only [mapBound, meaning, hvalue]
    case columnUnion => simp [mapBound, meaning, hf]
    all_goals rfl
  · cases op <;> rfl

theorem meaning_bare {op : Op} : op.bare.meaning I = op.meaning I :=
  meaning_mapBound fun _ _ => rfl

theorem meaning_eq_of_bare_eq {op op' : Op} (h : op.bare = op'.bare) : op.meaning I = op'.meaning I := by
  rw [← meaning_bare, h, meaning_bare]

/-- The operators at the border do not change rows. -/
theorem transform_boundary {op : Op} (h : op.isBoundary = true) (b : Bag) : op.transform I b = b := by
  cases op <;> first | rfl | cases h

-- ---------------------------------------------------------------------------
-- Operators and bag union
-- ---------------------------------------------------------------------------

/-- Operators that work row by row. -/
def isRowWise : Op → Bool
  | .project .. | .arithmetic .. | .filterByColumn .. | .filterByScalar .. => true
  | _ => false

theorem transform_sum {op : Op} (h : op.isRowWise = true) (bs : List Bag) :
    op.transform I bs.sum = (bs.map (op.transform I)).sum := by
  have hadd (b c : Bag) : op.transform I (b + c) = op.transform I b + op.transform I c := by
    cases op
    case project | arithmetic => exact Multiset.map_add ..
    case filterByColumn | filterByScalar => exact Multiset.filter_add ..
    all_goals cases h
  have hzero : op.transform I 0 = 0 := by
    cases op
    case project | arithmetic | filterByColumn | filterByScalar => rfl
    all_goals cases h
  induction bs with
  | nil => exact hzero
  | cons b bs ih => rw [List.sum_cons, hadd, ih, List.map_cons, List.sum_cons]

section Split

open Bag

variable {groups groups' : List Column} {c c' squares' size' : Column} {bs : List Bag}
  {sumName squaresName countName varianceName name name' : String}

@[simp] theorem length_positions (cs : List Column) : (positions cs).length = cs.length :=
  List.length_map ..

/-- Partial sums, and then sums over the columns that they stand in. -/
theorem aggregate_split (groups groups' cs : List Column) (fs : List (Row → ℚ)) (bs : List Bag)
    (hgroups : positions groups' = List.range groups.length)
    (hcs : positions cs = (List.range fs.length).map (groups.length + ·)) :
    aggregate (positions groups') (sums (cs.map Column.value))
      (bs.map (aggregate (positions groups) (sums fs))).sum =
    aggregate (positions groups) (sums fs) bs.sum := by
  have hvalues : cs.map Column.value = behind (positions groups).length fs.length := by
    have : cs.map Column.value = (positions cs).map fun i r => r.cell i := by
      simp [positions, Function.comp_def, Column.value, funext_iff]
    rw [this, hcs, List.map_map, length_positions]
    rfl
  rw [hgroups, hvalues, ← length_positions groups, aggregate_sums]

variable (hgroups : positions groups' = List.range groups.length)

theorem transform_sum_of_numRows (hc : c'.index = 0) :
    (sum [] c' name').transform I (bs.map ((numRows name).transform I)).sum =
      (numRows name).transform I bs.sum :=
  aggregate_split [] [] [c'] _ bs rfl (by simp [positions, hc])

include hgroups

theorem transform_sum_of_sum (hc : c'.index = groups.length) :
    (sum groups' c' name').transform I (bs.map ((sum groups c name).transform I)).sum =
      (sum groups c name).transform I bs.sum :=
  aggregate_split groups groups' [c'] _ bs hgroups (by simp [positions, hc])

theorem transform_sum_of_count (hc : c'.index = groups.length) :
    (sum groups' c' name').transform I (bs.map ((count groups name).transform I)).sum =
      (count groups name).transform I bs.sum :=
  aggregate_split groups groups' [c'] _ bs hgroups (by simp [positions, hc])

theorem transform_distinct_of_distinct :
    (distinct groups').transform I (bs.map ((distinct groups).transform I)).sum =
      (distinct groups).transform I bs.sum := by
  have hlength : ∀ r ∈ (bs.map ((distinct groups).transform I)).sum, r.length = groups.length := by
    intro r hr
    induction bs with
    | nil => simp at hr
    | cons b bs ih =>
      rw [List.map_cons, List.sum_cons, Multiset.mem_add] at hr
      rcases hr with hr | hr
      · obtain ⟨r', -, rfl⟩ := Multiset.mem_map.mp (Multiset.mem_dedup.mp hr)
        simp
      · exact ih hr
  -- a row of the partial results is its own projection
  have hpick : ∀ r ∈ (bs.map ((distinct groups).transform I)).sum, r.pick (positions groups') = id r := by
    intro r hr
    rw [hgroups, ← hlength r hr]
    simpa using Row.pick_range_append (k := r) (r := [])
  calc ((bs.map ((distinct groups).transform I)).sum.map (Row.pick (positions groups'))).dedup
    _ = (bs.map ((distinct groups).transform I)).sum.dedup := by
        rw [Multiset.map_congr rfl hpick, Multiset.map_id]
    _ = ((bs.map ((project groups).transform I)).map Multiset.dedup).sum.dedup := by
        rw [List.map_map]
        rfl
    _ = (bs.map ((project groups).transform I)).sum.dedup := dedup_sum
    _ = ((project groups).transform I bs.sum).dedup := by rw [transform_sum rfl]

/-- The global mean divides the sum of the sums by the sum of the counts. -/
theorem transform_mean_of_sumCount (hc : c'.index = groups.length)
    (hsize : size'.index = groups.length + 1) :
    (mean groups' c' name' (some size')).transform I
        (bs.map ((sumCount groups c sumName countName).transform I)).sum =
      (mean groups c name none).transform I bs.sum := by
  let quotient : Row → Row := fun r => [r.cell 0 / r.cell 1]
  have hsplit := aggregate_split groups groups' [c', size'] [c.value, fun _ => 1] bs hgroups
    (by simp [positions, hc, hsize, List.range_succ])
  have hlength : (positions groups').length = (positions groups).length := by
    rw [hgroups, List.length_range, length_positions]
  calc aggregate (positions groups') (fun b => quotient (sums [c'.value, size'.value] b))
        (bs.map (aggregate (positions groups) (sums [c.value, fun _ => 1]))).sum
    _ = aggregate (positions groups) (fun b => quotient (sums [c.value, fun _ => 1] b)) bs.sum := by
        rw [aggregate_comp, aggregate_comp, ← hsplit, hlength]
        rfl

/-- The global standard deviation is computed from three sums, row by row. -/
theorem transform_squareRoot_of_sumSquaresCount {groups'' cs : List Column}
    (hgroups' : positions groups'' = List.range groups.length)
    (hcs : positions cs = (List.range 3).map (groups.length + ·))
    (hc : c'.index = groups.length) (hsquares : squares'.index = groups.length + 1)
    (hsize : size'.index = groups.length + 2) :
    (squareRoot name').transform I ((variance groups' c' squares' size' varianceName).transform I
        ((columnSums groups'' cs).transform I
          (bs.map ((sumSquaresCount groups c sumName squaresName countName).transform I)).sum)) =
      (stdDev groups c name).transform I bs.sum := by
  let spread : Row → Row := fun r => [I.root (varianceOf (r.cell 0) (r.cell 1) (r.cell 2))]
  have hsplit := aggregate_split groups groups'' cs
    [c.value, fun r => c.value r ^ 2, fun _ => 1] bs hgroups' hcs
  calc _
    _ = (squareRoot name').transform I ((variance groups' c' squares' size' varianceName).transform I
          (aggregate (positions groups) (sums [c.value, fun r => c.value r ^ 2, fun _ => 1]) bs.sum)) := by
        rw [← hsplit]
        rfl
    _ = aggregate (positions groups)
          (fun b => spread (sums [c.value, fun r => c.value r ^ 2, fun _ => 1] b)) bs.sum := by
        rw [aggregate_comp]
        simp only [transform, Multiset.map_map]
        refine Multiset.map_congr rfl fun r hr => ?_
        obtain ⟨k, b, hk, rfl⟩ := eq_append_of_mem_aggregate hr
        rw [length_positions] at hk
        rw [← hk] at hc hsquares hsize hgroups
        have hcell (i : Nat) (s : Row) : (k ++ s).cell (k.length + i) = s.cell i := Row.cell_append_right
        have hfirst (s : Row) : (k ++ s).cell k.length = s.cell 0 := hcell 0 s
        simp [Column.value, hc, hsquares, hsize, hgroups, Row.pick_range_append, hcell, hfirst, ← hk,
          spread]

end Split

end Op

-- ---------------------------------------------------------------------------
-- Plans
-- ---------------------------------------------------------------------------

namespace Node

/-- What a node yields. -/
def meaning (I : Interpretation) (n : Node) (ins : List Bag) : Bag :=
  match n.op with
  | .create => I.source n.rel.name
  | op => op.meaning I ins

variable {I : Interpretation} {n m : Node}

theorem meaning_of_ne_create (h : n.op ≠ .create) : n.meaning I = n.op.meaning I := by
  funext ins
  unfold meaning
  split
  · contradiction
  · rfl

/-- Only the operator matters, up to the columns it is bound to, and of a root its relation. -/
theorem meaning_eq_of_bare_eq (hop : m.op.bare = n.op.bare) (hrel : n.op = .create → m.rel = n.rel) :
    m.meaning I = n.meaning I := by
  by_cases hc : n.op = .create
  · have hc' : m.op = .create := Op.eq_of_bare_eq (hop.trans (congrArg _ hc)) rfl
    unfold meaning
    rw [hc, hc', hrel hc]
  · have hc' : m.op ≠ .create := fun h => hc (Op.eq_of_bare_eq (hop.symm.trans (congrArg _ h)) rfl)
    rw [meaning_of_ne_create hc, meaning_of_ne_create hc', Op.meaning_eq_of_bare_eq hop]

theorem meaning_eq_of_skeleton_eq (h : n.skeleton = m.skeleton) : n.meaning I = m.meaning I :=
  meaning_eq_of_bare_eq (bare_eq_of_skeleton_eq h) fun hc => (rel_eq_of_skeleton_eq h.symm hc).symm

end Node

namespace Plan

variable {I : Interpretation} {p q : Plan} {k : NodeId} {n : Node}

/-- The rows that a node yields, going up at most `depth` nodes. -/
def bagWithin (I : Interpretation) (p : Plan) : Nat → NodeId → Bag
  | 0, _ => 0
  | depth + 1, k =>
    match p.nodes.get? k with
    | none => 0
    | some n => n.meaning I (n.inputs.ids.map (p.bagWithin I depth))

/-- The rows that a node yields. No path is longer than the plan. -/
def bag (I : Interpretation) (p : Plan) (k : NodeId) : Bag := p.bagWithin I p.size k

/-- The rows that a plan with one sink delivers. -/
def answer? (I : Interpretation) (p : Plan) : Option Bag :=
  match p.sinks with
  | [sink] => some (p.bag I sink.id)
  | _ => none

/-- An assignment of bags in which every node yields what its operator means. -/
def Models (I : Interpretation) (p : Plan) (v : NodeId → Bag) : Prop :=
  ∀ k n, p.nodes.get? k = some n → v k = n.meaning I (n.inputs.ids.map v)

/-- Going up further than there are nodes above changes nothing. -/
theorem bagWithin_eq {rank : NodeId → Nat}
    (hrank : ∀ {u v}, p.Feeds u v → rank u < rank v) {d e : Nat} (hd : rank k < d) (he : rank k < e) :
    p.bagWithin I d k = p.bagWithin I e k := by
  induction hr : rank k using Nat.strong_induction_on generalizing k d e with
  | _ r ih =>
    subst hr
    obtain ⟨d, rfl⟩ := Nat.exists_eq_succ_of_ne_zero (Nat.ne_of_gt (Nat.zero_lt_of_lt hd))
    obtain ⟨e, rfl⟩ := Nat.exists_eq_succ_of_ne_zero (Nat.ne_of_gt (Nat.zero_lt_of_lt he))
    unfold bagWithin
    cases hn : p.nodes.get? k with
    | none => rfl
    | some n =>
      refine congrArg (n.meaning I) (List.map_congr_left fun u hu => ?_)
      have hlt := hrank ⟨n, hn, hu⟩
      exact ih (rank u) hlt (hlt.trans_le (Nat.lt_succ_iff.mp hd)) (hlt.trans_le (Nat.lt_succ_iff.mp he)) rfl

theorem Coherent.bag_models (hp : p.Coherent) : p.Models I (p.bag I) := by
  intro k n hn
  obtain ⟨rank, hrank, hsize⟩ := hp.exists_rank_lt_size
  have hk := hsize hn
  rw [bag, bagWithin_eq hrank hk (hk.trans (Nat.lt_succ_self _)), bagWithin, hn]
  rfl

theorem Coherent.bag_unique (hp : p.Coherent) {v : NodeId → Bag} (hv : p.Models I v)
    (hn : p.nodes.get? k = some n) : p.bag I k = v k := by
  obtain ⟨rank, hrank⟩ := hp.ranked
  induction hr : rank k using Nat.strong_induction_on generalizing k n with
  | _ r ih =>
    subst hr
    rw [hp.bag_models k n hn, hv k n hn]
    refine congrArg (n.meaning I) (List.map_congr_left fun u hu => ?_)
    obtain ⟨m, hm⟩ := hp.closed ⟨n, hn, hu⟩
    exact ih (rank u) (hrank ⟨n, hn, hu⟩) hm rfl

/-- What is derived does not matter. -/
theorem bag_eq_of_skeleton_eq (h : q.skeleton = p.skeleton) : q.bag I = p.bag I := by
  have hsize : q.size = p.size := by
    have : q.skeleton.nodes.entries.length = p.skeleton.nodes.entries.length := by rw [h]
    simpa [skeleton, IdMap.map, size, IdMap.size] using this
  have hwithin (depth : Nat) : q.bagWithin I depth = p.bagWithin I depth := by
    induction depth with
    | zero => rfl
    | succ depth ih =>
      funext k
      have hk : (q.nodes.get? k).map Node.skeleton = (p.nodes.get? k).map Node.skeleton := by
        rw [← get?_skeleton, ← get?_skeleton, h]
      unfold bagWithin
      rw [ih]
      cases hq : q.nodes.get? k <;> cases hp : p.nodes.get? k <;> simp_all
      rw [Node.meaning_eq_of_skeleton_eq hk, Node.inputs_eq_of_skeleton_eq hk]
  funext k
  rw [bag, bag, hsize, hwithin]

end Plan

end JointPlan
