import Mathlib.Algebra.BigOperators.Group.Multiset.Basic
import Mathlib.Data.Multiset.Dedup
import Mathlib.Data.Rat.Defs
import Mathlib.Tactic

/-!
# Rows and bags

The values that operators work on: a row of exact numbers, and a bag of rows, in
which a row may occur several times and which has no order. Positions beyond the
end of a row read as zero, so every function is total.

The law of this module is `Bag.aggregate_sums`: sums per group can be computed bag
by bag and added up afterwards. It is what splitting an aggregate rests on.
-/

namespace JointPlan

abbrev Row := List ℚ

abbrev Bag := Multiset Row

namespace Row

def cell (r : Row) (i : Nat) : ℚ := r.getD i 0

def pick (is : List Nat) (r : Row) : Row := is.map r.cell

/-- What is left of a row without the positions `is`. -/
def rest (is : List Nat) (r : Row) : Row := (r.zipIdx.filter fun e => e.2 ∉ is).map Prod.fst

@[simp] theorem length_pick {is : List Nat} {r : Row} : (r.pick is).length = is.length :=
  List.length_map ..

theorem cell_append_right {k r : Row} {i : Nat} : (k ++ r).cell (k.length + i) = r.cell i := by
  simp [cell, List.getD_eq_getElem?_getD, List.getElem?_append_right]

/-- The first positions are the row itself when there are no others in front. -/
theorem pick_range_append {k r : Row} : pick (List.range k.length) (k ++ r) = k := by
  refine List.ext_getElem (by simp) fun i hi _ => ?_
  have hi : i < k.length := by simpa using hi
  simp [pick, cell, List.getD_eq_getElem?_getD, List.getElem?_append_left hi, hi]

end Row

namespace Bag

variable {is : List Nat} {b : Bag} {k : Row}

/-- The sum of a value over all rows. -/
def total (f : Row → ℚ) (b : Bag) : ℚ := (b.map f).sum

/-- The rows that have the values `k` at the positions `is`. -/
def group (is : List Nat) (k : Row) (b : Bag) : Bag := b.filter fun r => r.pick is = k

def keys (is : List Nat) (b : Bag) : Multiset Row := (b.map (Row.pick is)).dedup

/-- One row per group: its key, then what `f` makes of it. Without grouping there is
exactly one row, also for the empty bag. -/
def aggregate (is : List Nat) (f : Bag → Row) (b : Bag) : Bag :=
  if is = [] then {f b} else (keys is b).map fun k => k ++ f (group is k b)

/-- Several sums next to each other. -/
def sums (fs : List (Row → ℚ)) (b : Bag) : Row := fs.map (total · b)

@[simp] theorem total_zero {f : Row → ℚ} : total f 0 = 0 := rfl

@[simp] theorem total_add {f : Row → ℚ} {c : Bag} : total f (b + c) = total f b + total f c := by
  simp [total]

@[simp] theorem total_singleton {f : Row → ℚ} {r : Row} : total f {r} = f r := by
  simp [total]

theorem group_add {c : Bag} : group is k (b + c) = group is k b + group is k c :=
  Multiset.filter_add ..

theorem mem_keys : k ∈ keys is b ↔ ∃ r ∈ b, r.pick is = k := by
  simp [keys]

theorem length_of_mem_keys (hk : k ∈ keys is b) : k.length = is.length := by
  obtain ⟨r, -, rfl⟩ := mem_keys.mp hk
  exact Row.length_pick

theorem group_eq_zero (hk : k ∉ keys is b) : group is k b = 0 := by
  refine Multiset.filter_eq_nil.mpr fun r hr h => hk (mem_keys.mpr ⟨r, hr, h⟩)

/-- What is computed from the values of a group can be computed afterwards. -/
theorem aggregate_comp {f : Bag → Row} {g : Row → Row} :
    aggregate is (fun c => g (f c)) b =
      (aggregate is f b).map fun r => r.take is.length ++ g (r.drop is.length) := by
  unfold aggregate
  split
  · rename_i h
    simp [h]
  · rw [Multiset.map_map]
    refine Multiset.map_congr rfl fun k hk => ?_
    have hlen := length_of_mem_keys hk
    simp [← hlen]

theorem eq_append_of_mem_aggregate {f : Bag → Row} {r : Row} (hr : r ∈ aggregate is f b) :
    ∃ k c, k.length = is.length ∧ r = k ++ f c := by
  unfold aggregate at hr
  split at hr
  · rename_i h
    exact ⟨[], b, by simp [h], by simpa using hr⟩
  · obtain ⟨k, hk, rfl⟩ := Multiset.mem_map.mp hr
    exact ⟨k, group is k b, length_of_mem_keys hk, rfl⟩

-- ---------------------------------------------------------------------------
-- Adding up partial sums
-- ---------------------------------------------------------------------------

variable {fs : List (Row → ℚ)} {bs : List Bag}

theorem keys_nodup : (keys is b).Nodup := Multiset.nodup_dedup _

theorem mem_keys_add {c : Bag} : k ∈ keys is (b + c) ↔ k ∈ keys is b ∨ k ∈ keys is c := by
  simp only [mem_keys, Multiset.mem_add]
  grind

/-- The values that stand behind a key of length `width`. -/
def behind (width count : Nat) : List (Row → ℚ) :=
  (List.range count).map fun j r => r.cell (width + j)

theorem cell_sums {j : Nat} (hj : j < fs.length) : (sums fs b).cell j = total fs[j] b := by
  simp [Row.cell, sums, List.getD_eq_getElem?_getD, hj]

/-- The rows of an aggregate with a given key: one, or none. -/
theorem group_aggregate {f : Bag → Row} (his : is ≠ []) :
    group (List.range is.length) k (aggregate is f b) =
      if k ∈ keys is b then {k ++ f (group is k b)} else 0 := by
  have hpick : ∀ k' ∈ keys is b,
      (k' ++ f (group is k' b)).pick (List.range is.length) = k ↔ k' = k := fun k' hk' => by
    rw [← length_of_mem_keys hk', Row.pick_range_append]
  rw [aggregate, if_neg his, group, Multiset.filter_map]
  simp only [Function.comp_def]
  rw [Multiset.filter_congr hpick, Multiset.filter_eq']
  split
  · rename_i hk
    rw [Multiset.count_eq_one_of_mem keys_nodup hk]
    simp
  · rename_i hk
    rw [Multiset.count_eq_zero_of_notMem hk]
    simp

theorem mem_keys_aggregate {f : Bag → Row} (his : is ≠ []) :
    k ∈ keys (List.range is.length) (aggregate is f b) ↔ k ∈ keys is b := by
  rw [← not_iff_not]
  constructor
  · intro hk hmem
    have := group_eq_zero hk
    rw [group_aggregate his, if_pos hmem] at this
    exact Multiset.singleton_ne_zero _ this
  · intro hk hmem
    obtain ⟨r, hr, hrk⟩ := mem_keys.mp hmem
    have : r ∈ group (List.range is.length) k (aggregate is f b) := Multiset.mem_filter.mpr ⟨hr, hrk⟩
    rw [group_aggregate his, if_neg hk] at this
    exact Multiset.notMem_zero r this

/-- Partial sums of one group. -/
theorem total_group_aggregate {j : Nat} (his : is ≠ []) (hj : j < fs.length) :
    total (·.cell (is.length + j)) (group (List.range is.length) k (aggregate is (sums fs) b)) =
      total fs[j] (group is k b) := by
  rw [group_aggregate his]
  split
  · rename_i hk
    rw [total_singleton, ← length_of_mem_keys hk, Row.cell_append_right, cell_sums hj]
  · rename_i hk
    rw [group_eq_zero hk, total_zero, total_zero]

/-- Two rows of sums are equal when the sums are. -/
theorem sums_behind {width : Nat} {c : Bag}
    (h : ∀ j (hj : j < fs.length), total (·.cell (width + j)) c = total fs[j] b) :
    sums (behind width fs.length) c = sums fs b := by
  refine List.ext_getElem (by simp [sums, behind]) fun j hj _ => ?_
  have hj : j < fs.length := by simpa [sums, behind] using hj
  simpa [sums, behind] using h j hj

/-- Sums per group computed bag by bag and added up are the sums over all bags. -/
theorem aggregate_sums :
    aggregate (List.range is.length) (sums (behind is.length fs.length))
      (bs.map (aggregate is (sums fs))).sum = aggregate is (sums fs) bs.sum := by
  by_cases his : is = []
  · subst his
    simp only [aggregate, List.length_nil, List.range_zero, if_true]
    congr 1
    refine sums_behind fun j hj => ?_
    induction bs with
    | nil => rfl
    | cons b bs ih =>
      rw [List.map_cons, List.sum_cons, List.sum_cons, total_add, total_add, ih, aggregate,
        if_pos rfl, total_singleton, Nat.zero_add, cell_sums hj]
  · have hkeys : keys (List.range is.length) (bs.map (aggregate is (sums fs))).sum = keys is bs.sum := by
      refine (Multiset.Nodup.ext keys_nodup keys_nodup).mpr fun k => ?_
      induction bs with
      | nil => simp [mem_keys]
      | cons b bs ih => rw [List.map_cons, List.sum_cons, List.sum_cons, mem_keys_add, mem_keys_add,
          mem_keys_aggregate his, ih]
    have hgroups (k : Row) (j : Nat) (hj : j < fs.length) :
        total (·.cell (is.length + j))
          (group (List.range is.length) k (bs.map (aggregate is (sums fs))).sum) =
        total fs[j] (group is k bs.sum) := by
      clear hkeys
      induction bs with
      | nil => rfl
      | cons b bs ih => rw [List.map_cons, List.sum_cons, List.sum_cons, group_add, group_add,
          total_add, total_add, total_group_aggregate his hj, ih]
    have hrange : List.range is.length ≠ [] := by simpa [List.range_eq_nil] using his
    rw [aggregate, aggregate, if_neg his, if_neg hrange, hkeys]
    exact Multiset.map_congr rfl fun k _ => congrArg (k ++ ·) (sums_behind (hgroups k))

/-- Duplicates can be removed bag by bag and once more afterwards. -/
theorem dedup_sum : (bs.map Multiset.dedup).sum.dedup = (bs.sum : Bag).dedup := by
  refine (Multiset.Nodup.ext (Multiset.nodup_dedup _) (Multiset.nodup_dedup _)).mpr fun r => ?_
  rw [Multiset.mem_dedup, Multiset.mem_dedup]
  induction bs with
  | nil => rfl
  | cons b bs ih => rw [List.map_cons, List.sum_cons, List.sum_cons, Multiset.mem_add, Multiset.mem_add,
      Multiset.mem_dedup, ih]

end Bag

end JointPlan
