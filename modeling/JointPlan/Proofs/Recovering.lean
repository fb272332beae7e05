import JointPlan.Proofs.Meaning

/-!
# What can be recovered from a row

An operator that works row by row can be undone when different rows of its input become different
rows of its output. For a projection this is what `Op.isReversible` says: it can be undone exactly when all
positions are selected. For a product or a quotient it is not. One that is appended can always be
undone, for its input is still there. One that overwrites a column can be undone only if the old
value can be computed from the new one: no operand is another column, which may be zero, no constant is
zero, and the old value itself occurs an odd number of times, so that its sign is not lost. Only the
constants of products are looked at.
-/

namespace JointPlan

-- ---------------------------------------------------------------------------
-- Constants
-- ---------------------------------------------------------------------------

namespace Double

/-- The number that a finite double stands for. -/
def value? (d : Double) : Option ℚ :=
  if d.isFinite then some ((if d.isNegative then -1 else 1) * d.significand * 2 ^ d.scale) else none

theorem significand_eq_zero {d : Double} : d.significand = 0 ↔ d.isZero = true := by
  have hsplit : hiddenBit * d.exponentField + d.fractionField = d.rank := Nat.div_add_mod ..
  rw [significand, isZero, decide_eq_true_iff, ← hsplit]
  by_cases h : d.exponentField = 0
  · rw [if_pos h, h, Nat.mul_zero, Nat.zero_add]
  · have hhidden : hiddenBit ≠ 0 := by decide
    simp [h, hhidden]

theorem eq_zero_of_value? {d : Double} {q : ℚ} (h : d.value? = some q) : q = 0 ↔ d.isZero = true := by
  have hpow : (2 : ℚ) ^ d.scale ≠ 0 := zpow_ne_zero _ two_ne_zero
  unfold value? at h
  split_ifs at h with hfinite hnegative
  all_goals
    obtain rfl := Option.some.inj h
    simp [significand_eq_zero, hpow]

end Double

namespace Scalar

/-- The number that a constant stands for, if it is a number. -/
def value? : Scalar → Option ℚ
  | .int value => some value
  | .float value => value.value?

theorem eq_zero_of_value? {s : Scalar} {q : ℚ} (h : s.value? = some q) : q = 0 ↔ s.isZero = true := by
  cases s with
  | int value =>
    obtain rfl := Option.some.inj h
    simp [isZero]
  | float value => exact Double.eq_zero_of_value? h

end Scalar

-- ---------------------------------------------------------------------------
-- Products and quotients
-- ---------------------------------------------------------------------------

namespace Arithmetic

variable {α β : Type} {fn : Arithmetic}

/-- The factors of the result. -/
def above (fn : Arithmetic) (xs : List α) : List α :=
  match fn with
  | .multiply => xs
  | .divide => xs.take 1

/-- What the result is divided by. -/
def below (fn : Arithmetic) (xs : List α) : List α :=
  match fn with
  | .multiply => []
  | .divide => xs.drop 1

theorem above_append_below (fn : Arithmetic) (xs : List α) : fn.above xs ++ fn.below xs = xs := by
  cases fn with
  | multiply => exact List.append_nil xs
  | divide => exact List.take_append_drop 1 xs

theorem above_map (f : α → β) (xs : List α) : fn.above (xs.map f) = (fn.above xs).map f := by
  cases fn with
  | multiply => rfl
  | divide => exact List.map_take.symm

theorem below_map (f : α → β) (xs : List α) : fn.below (xs.map f) = (fn.below xs).map f := by
  cases fn with
  | multiply => rfl
  | divide => exact List.map_drop.symm

theorem apply_eq_div (xs : List ℚ) : fn.apply xs = (fn.above xs).prod / (fn.below xs).prod := by
  cases fn with
  | multiply => simp [apply, above, below]
  | divide =>
    cases xs with
    | nil => simp [apply, above, below]
    | cons x xs =>
      change xs.foldl (· / ·) x = [x].prod / xs.prod
      rw [List.prod_singleton]
      induction xs generalizing x with
      | nil => simp
      | cons y ys ih => rw [List.foldl_cons, ih, List.prod_cons, div_div]

/-- A zero among the operands is the result, wherever it stands. -/
theorem apply_eq_zero {xs : List ℚ} (h : 0 ∈ xs) : fn.apply xs = 0 := by
  rw [← above_append_below fn xs, List.mem_append] at h
  rw [apply_eq_div]
  rcases h with h | h
  · rw [List.prod_eq_zero h, zero_div]
  · rw [List.prod_eq_zero h, div_zero]

end Arithmetic

/-- An odd power can be undone, also when the same is multiplied to both sides. -/
theorem eq_of_pow_mul_pow_eq {m d : Nat} {x y : ℚ} (hd : Odd d) (hx : x ≠ 0) (hy : y ≠ 0)
    (h : x ^ (m + d) * y ^ m = y ^ (m + d) * x ^ m) : x = y := by
  have hpow : x ^ m * y ^ m ≠ 0 := mul_ne_zero (pow_ne_zero m hx) (pow_ne_zero m hy)
  refine hd.strictMono_pow.injective (mul_left_cancel₀ hpow ?_)
  calc x ^ m * y ^ m * x ^ d
    _ = x ^ (m + d) * y ^ m := by ring
    _ = y ^ (m + d) * x ^ m := h
    _ = x ^ m * y ^ m * y ^ d := by ring

theorem pow_div_pow_injective {m n : Nat} (h : Odd (m + n)) : Function.Injective fun x : ℚ => x ^ m / x ^ n := by
  have hzero {x : ℚ} : x ^ m / x ^ n = 0 ↔ x = 0 := by
    have hne : m ≠ 0 ∨ n ≠ 0 := by
      by_contra hnone
      rw [not_or, not_not, not_not] at hnone
      simp [hnone.1, hnone.2] at h
    rw [div_eq_zero_iff, pow_eq_zero_iff', pow_eq_zero_iff']
    tauto
  intro x y (hxy : x ^ m / x ^ n = y ^ m / y ^ n)
  by_cases hx : x = 0
  · rw [hx, eq_comm, ← hzero, ← hxy, hzero, hx]
  have hy : y ≠ 0 := fun hy => hx (hzero.mp (hxy.trans (hzero.mpr hy)))
  have hcross : x ^ m * y ^ n = y ^ m * x ^ n :=
    (div_eq_div_iff (pow_ne_zero n hx) (pow_ne_zero n hy)).mp hxy
  rcases Nat.le_total m n with hle | hle
  · obtain ⟨d, rfl⟩ := Nat.exists_eq_add_of_le hle
    refine (eq_of_pow_mul_pow_eq (m := m) (d := d) (by grind) hy hx ?_).symm
    rw [mul_comm, hcross, mul_comm]
  · obtain ⟨d, rfl⟩ := Nat.exists_eq_add_of_le hle
    exact eq_of_pow_mul_pow_eq (by grind) hx hy hcross

namespace Operand

variable {I : Interpretation} {os : List Operand} {t : Nat}

/-- Operands that read one column only, as a power of it. -/
theorem exists_prod_values (hcolumns : ∀ c, .column c ∈ os → c.index = t) (hscalars : ∀ s, .scalar s ∈ os → I.scalar s ≠ 0) :
    ∃ a : ℚ, a ≠ 0 ∧ ∀ r : Row, (os.map (value I r)).prod = a * r.cell t ^ (os.filterMap column?).length := by
  induction os with
  | nil => exact ⟨1, one_ne_zero, fun r => by simp⟩
  | cons o os ih =>
    obtain ⟨a, ha, hprod⟩ := ih (fun c hc => hcolumns c (List.mem_cons_of_mem _ hc))
      (fun s hs => hscalars s (List.mem_cons_of_mem _ hs))
    cases o with
    | column c =>
      refine ⟨a, ha, fun r => ?_⟩
      have hc : value I r (.column c) = r.cell t := by rw [value, hcolumns c List.mem_cons_self]
      have hlength : ((column c :: os).filterMap column?).length = (os.filterMap column?).length + 1 := rfl
      rw [List.map_cons, List.prod_cons, hprod, hc, hlength, pow_succ]
      ring
    | scalar s =>
      refine ⟨I.scalar s * a, mul_ne_zero (hscalars s List.mem_cons_self) ha, fun r => ?_⟩
      rw [List.map_cons, List.prod_cons, hprod, List.filterMap_cons_none rfl, value, mul_assoc]

theorem exists_apply_values (fn : Arithmetic) (hcolumns : ∀ c, .column c ∈ os → c.index = t)
    (hscalars : ∀ s, .scalar s ∈ os → I.scalar s ≠ 0) :
    ∃ (a : ℚ) (m n : Nat), a ≠ 0 ∧ m + n = (os.filterMap column?).length ∧
      ∀ r : Row, fn.apply (os.map (value I r)) = a * (r.cell t ^ m / r.cell t ^ n) := by
  have hsplit := Arithmetic.above_append_below fn os
  have habove {o : Operand} (ho : o ∈ fn.above os) : o ∈ os := hsplit ▸ List.mem_append_left _ ho
  have hbelow {o : Operand} (ho : o ∈ fn.below os) : o ∈ os := hsplit ▸ List.mem_append_right _ ho
  obtain ⟨a, ha, hprod⟩ := exists_prod_values (I := I) (fun c hc => hcolumns c (habove hc)) fun s hs => hscalars s (habove hs)
  obtain ⟨b, hb, hprod'⟩ := exists_prod_values (I := I) (fun c hc => hcolumns c (hbelow hc)) fun s hs => hscalars s (hbelow hs)
  refine ⟨a / b, ((fn.above os).filterMap column?).length, ((fn.below os).filterMap column?).length, div_ne_zero ha hb,
    ?_, fun r => ?_⟩
  · rw [← List.length_append, ← List.filterMap_append, hsplit]
  · rw [Arithmetic.apply_eq_div, Arithmetic.above_map, Arithmetic.below_map, hprod, hprod', mul_div_mul_comm]

end Operand

-- ---------------------------------------------------------------------------
-- Rows
-- ---------------------------------------------------------------------------

namespace Row

variable {r s : Row} {t i width : Nat} {x y : ℚ}

theorem cell_eq_getElem (hi : i < r.length) : r.cell i = r[i] := by
  simp [cell, hi]

theorem ext_cell (hlength : r.length = s.length) (h : ∀ i < r.length, r.cell i = s.cell i) : r = s := by
  refine List.ext_getElem hlength fun i hi hi' => ?_
  rw [← cell_eq_getElem hi, ← cell_eq_getElem hi', h i hi]

theorem cell_set (ht : t < r.length) : Row.cell (r.set t x) i = if i = t then x else r.cell i := by
  simp only [cell, List.getD_eq_getElem?_getD, List.getElem?_set]
  by_cases hi : i = t
  · simp [hi, ht]
  · simp [hi, Ne.symm hi]

/-- Zero everywhere but in one place. -/
def spike (width t : Nat) (x : ℚ) : Row := (List.replicate width 0).set t x

@[simp] theorem length_spike : (spike width t x).length = width := by simp [spike]

theorem cell_spike (ht : t < width) : (spike width t x).cell i = if i = t then x else 0 := by
  rw [spike, cell_set (by simpa using ht)]
  have hzero : Row.cell (List.replicate width 0) i = 0 := by
    rw [cell, List.getD_eq_getElem?_getD, List.getElem?_replicate]
    split <;> rfl
  rw [hzero]

@[simp] theorem set_spike : (spike width t x).set t y = spike width t y := List.set_set ..

theorem spike_inj (ht : t < width) (h : spike width t x = spike width t y) : x = y := by
  have hcell := congrArg (cell · t) h
  simpa [cell_spike ht] using hcell

end Row

-- ---------------------------------------------------------------------------
-- Operators
-- ---------------------------------------------------------------------------

namespace Op

variable {I : Interpretation} {width : Nat} {cs : List Column} {fn : Arithmetic} {target : Column}
  {operands : List Operand}

/-- Different rows of that width become different rows. -/
def Recoverable (I : Interpretation) (width : Nat) (op : Op) : Prop :=
  ∀ r s : Row, r.length = width → s.length = width → op.transform I {r} = op.transform I {s} → r = s

theorem recoverable_project : (project cs).Recoverable I width ↔ ∀ i < width, i ∈ positions cs := by
  constructor
  · intro h i hi
    by_contra hout
    -- nothing is left of a row that is zero wherever it is looked at
    have hpick (x : ℚ) : (Row.spike width i x).pick (positions cs) = (positions cs).map fun _ => 0 := by
      refine List.map_congr_left fun j hj => ?_
      have hji : j ≠ i := fun hji => hout (hji ▸ hj)
      rw [Row.cell_spike hi, if_neg hji]
    have hsame := h (Row.spike width i 0) (Row.spike width i 1) (by simp) (by simp) (by simp [transform, hpick])
    exact zero_ne_one (Row.spike_inj hi hsame)
  · intro h r s hr hs hrs
    have hpick : r.pick (positions cs) = s.pick (positions cs) := by simpa [transform] using hrs
    refine Row.ext_cell (hr.trans hs.symm) fun i hi => ?_
    exact List.map_inj_left.mp hpick i (h i (hr ▸ hi))

theorem recoverable_append : (arithmetic fn target operands true).Recoverable I width := by
  intro r s hr hs hrs
  simp only [transform, Multiset.map_singleton, Multiset.singleton_inj, if_true] at hrs
  exact (List.append_inj hrs (hr.trans hs.symm)).1

/-- Nothing is known of the old value when two of them lead to the same. -/
theorem not_recoverable_of_apply_eq {x y : ℚ} (ht : target.index < width) (hxy : x ≠ y)
    (h : fn.apply (operands.map (Operand.value I (Row.spike width target.index x))) =
      fn.apply (operands.map (Operand.value I (Row.spike width target.index y)))) :
    ¬ (arithmetic fn target operands false).Recoverable I width := by
  intro hrecoverable
  refine hxy (Row.spike_inj ht (hrecoverable _ _ (by simp) (by simp) ?_))
  simp [transform, h]

theorem recoverable_overwrite (ht : target.index < width) :
    (arithmetic fn target operands false).Recoverable I width ↔
      (∀ s, .scalar s ∈ operands → I.scalar s ≠ 0) ∧ (∀ c, .column c ∈ operands → c.index = target.index) ∧
        Odd (operands.filterMap Operand.column?).length := by
  constructor
  · intro h
    have hlost {x y : ℚ} (hxy : x ≠ y) (hsame : fn.apply (operands.map (Operand.value I (Row.spike width target.index x))) =
        fn.apply (operands.map (Operand.value I (Row.spike width target.index y)))) : False :=
      not_recoverable_of_apply_eq ht hxy hsame h
    have hzero {o : Operand} (ho : o ∈ operands) (hvalue : ∀ x, o.value I (Row.spike width target.index x) = 0) : False := by
      have happly (x : ℚ) : fn.apply (operands.map (Operand.value I (Row.spike width target.index x))) = 0 :=
        Arithmetic.apply_eq_zero (hvalue x ▸ List.mem_map_of_mem ho)
      exact hlost zero_ne_one ((happly 0).trans (happly 1).symm)
    have hscalars : ∀ s, .scalar s ∈ operands → I.scalar s ≠ 0 := fun s hs hvalue => hzero hs fun _ => hvalue
    have hcolumns : ∀ c, .column c ∈ operands → c.index = target.index := by
      intro c hc
      by_contra hne
      exact hzero hc fun x => by rw [Operand.value, Row.cell_spike ht, if_neg hne]
    refine ⟨hscalars, hcolumns, Nat.not_even_iff_odd.mp fun heven => ?_⟩
    obtain ⟨a, m, n, -, hmn, happly⟩ := Operand.exists_apply_values fn hcolumns hscalars
    refine hlost (x := 1) (y := -1) (by norm_num) ?_
    have hsign : (-1 : ℚ) ^ m / (-1) ^ n = 1 := by
      rw [div_eq_one_iff_eq (by simp), ← mul_left_inj' (c := (-1 : ℚ) ^ n) (by simp), ← pow_add, ← pow_add, hmn,
        heven.neg_one_pow, Even.neg_one_pow ⟨n, rfl⟩]
    rw [happly, happly, Row.cell_spike ht, Row.cell_spike ht, if_pos rfl, if_pos rfl, hsign]
    simp
  · rintro ⟨hscalars, hcolumns, hodd⟩ r s hr hs hrs
    obtain ⟨a, m, n, ha, hmn, happly⟩ := Operand.exists_apply_values fn hcolumns hscalars
    simp only [transform, Multiset.map_singleton, Multiset.singleton_inj, Bool.false_eq_true, if_false, happly] at hrs
    have hcell (i : Nat) := congrArg (Row.cell · i) hrs
    simp only [Row.cell_set (hr ▸ ht), Row.cell_set (hs ▸ ht)] at hcell
    refine Row.ext_cell (hr.trans hs.symm) fun i _ => ?_
    by_cases hi : i = target.index
    · subst hi
      have htarget := hcell target.index
      rw [if_pos rfl, if_pos rfl, mul_right_inj' ha] at htarget
      exact pow_div_pow_injective (hmn ▸ hodd) htarget
    · simpa [hi] using hcell i

/-- As many positions are selected as there are when all of them are. -/
theorem isReversible_project {rel : Relation} (h : ∀ i ∈ positions cs, i < rel.columns.length) :
    (project cs).isReversible [rel] = true ↔ ∀ i < rel.columns.length, i ∈ positions cs := by
  let selected := (IdSet.ofList (positions cs)).toList.toFinset
  have hselected {i : Nat} : i ∈ selected ↔ i ∈ positions cs := by simp [selected]
  have hsub : selected ⊆ Finset.range rel.columns.length := fun i hi => Finset.mem_range.mpr (h i (hselected.mp hi))
  have hcard : selected.card = (IdSet.ofList (positions cs)).size := List.toFinset_card_of_nodup (IdSet.nodup_toList _)
  change decide (_ = _) = true ↔ _
  rw [decide_eq_true_iff]
  constructor
  · intro hsize i hi
    have hall : selected = Finset.range rel.columns.length :=
      Finset.eq_of_subset_of_card_le hsub (by rw [Finset.card_range, hcard]; exact hsize.ge)
    exact hselected.mp (hall ▸ Finset.mem_range.mpr hi)
  · intro hall
    have heq : selected = Finset.range rel.columns.length :=
      hsub.antisymm fun i hi => hselected.mpr (hall i (Finset.mem_range.mp hi))
    exact hcard.symm.trans (heq ▸ Finset.card_range _)

/-- The columns of a resolved operator are there. -/
theorem index_lt_of_rebind {op op' : Op} {rel : Relation} {c : Column} (h : op.rebind [rel] none = (op', none))
    (hc : (0, c) ∈ op.bound) : c.index < rel.columns.length := by
  have hfound := (rebind_eq_iff.mp h).1.2 _ hc
  simpa [columnIn?] using hfound

theorem isReversible_of_nonzero {appends : Bool} {ins : List Relation} (h : ∀ s, .scalar s ∈ operands → s.isZero = false) :
    (arithmetic fn target operands appends).isReversible ins = true := by
  cases fn with
  | divide => rfl
  | multiply =>
    rw [isReversible, List.all_eq_true]
    rintro (c | s) ho
    · rfl
    · simp [h s ho]

/-- A projection can be undone exactly when it is called reversible. A product or a quotient with exact
constants can be undone exactly when it is appended, or is called reversible and moreover has no zero
constant and no operand but constants and, an odd number of times, the column that it overwrites. -/
theorem recoverable_resolved (I : Interpretation) (rel : Relation) :
    (∀ cs, (project cs).rebind [rel] none = (project cs, none) →
      ((project cs).Recoverable I rel.columns.length ↔ (project cs).isReversible [rel] = true)) ∧
    ∀ fn target operands appends,
      (arithmetic fn target operands appends).rebind [rel] none = (arithmetic fn target operands appends, none) →
      (∀ s, .scalar s ∈ operands → s.value? = some (I.scalar s)) →
      ((arithmetic fn target operands appends).Recoverable I rel.columns.length ↔
        appends = true ∨ (arithmetic fn target operands appends).isReversible [rel] = true ∧
          (∀ s, .scalar s ∈ operands → s.isZero = false) ∧ (∀ c, .column c ∈ operands → c.index = target.index) ∧
          Odd (operands.filterMap Operand.column?).length) := by
  refine ⟨fun cs hbound => ?_, fun fn target operands appends hbound hexact => ?_⟩
  · rw [recoverable_project, isReversible_project]
    intro i hi
    obtain ⟨c, hc, rfl⟩ := List.mem_map.mp hi
    exact index_lt_of_rebind hbound (List.mem_map_of_mem hc)
  cases appends with
  | true => exact iff_of_true recoverable_append (.inl rfl)
  | false =>
    have hzero : (∀ s, .scalar s ∈ operands → I.scalar s ≠ 0) ↔ ∀ s, .scalar s ∈ operands → s.isZero = false :=
      forall₂_congr fun s hs => by rw [Ne, Scalar.eq_zero_of_value? (hexact s hs), Bool.not_eq_true]
    rw [recoverable_overwrite (index_lt_of_rebind hbound (by simp [bound])), hzero]
    simp only [Bool.false_eq_true, false_or]
    exact ⟨fun h => ⟨isReversible_of_nonzero h.1, h⟩, And.right⟩

end Op

-- ---------------------------------------------------------------------------
-- Instances
-- ---------------------------------------------------------------------------

/-- Every constant that is a number stands for it. -/
def Interpretation.numeric : Interpretation := ⟨fun _ => 0, fun s => s.value?.getD 0, id⟩

namespace Op

/-- Two columns. -/
def pair : Relation := .owning "in" [.fresh "a" .integer, .fresh "b" .integer] (.single (.singleton 1) (by decide))

def pairColumn (i : Fin 2) : Column := pair.columns.get i

/-- Two columns change places, and six is divided by the first of them. -/
theorem recoverable_resolved_pair : (project [pairColumn 1, pairColumn 0]).Recoverable .numeric 2 ∧
    (arithmetic .divide (pairColumn 0) [.scalar (.int 6), .column (pairColumn 0)] false).Recoverable .numeric 2 := by
  obtain ⟨hproject, harithmetic⟩ := recoverable_resolved .numeric pair
  refine ⟨(hproject _ (by rfl)).mpr (by decide), (harithmetic _ _ _ _ (by rfl) ?_).mpr (.inr ⟨by decide, ?_, ?_, by decide⟩)⟩
  · rintro s hs
    obtain rfl : s = .int 6 := by simpa using hs
    rfl
  · intro s hs
    obtain rfl : s = .int 6 := by simpa using hs
    rfl
  · simp

/-- When the second column is zero, the product says nothing about the first. -/
theorem isReversible_not_recoverable :
    let op := arithmetic .multiply (pairColumn 0) [.column (pairColumn 0), .column (pairColumn 1)] false
    op.rebind [pair] none = (op, none) ∧ op.isReversible [pair] = true ∧ ¬ op.Recoverable .numeric 2 := by
  refine ⟨by rfl, by decide, fun h => ?_⟩
  have hindex := ((recoverable_overwrite (by decide)).mp h).2.1 (pairColumn 1) (by simp)
  exact absurd hindex (by decide)

end Op

end JointPlan
