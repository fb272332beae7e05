import JointPlan.Proofs.Edits

/-!
# Bound columns

What binding an operator to its inputs does to it, for all operators at once. The
columns of an operator that refer to an input are listed by `Op.bound` and changed
by `Op.mapBound`. Binding succeeds exactly when all of them are found by position,
and then puts what it finds in their place (`Op.rebind_eq_iff`).

`Op.bare` is what binding never changes: the operator with nothing but the
positions of its bound columns.
-/

namespace JointPlan

-- ---------------------------------------------------------------------------
-- Computations that stop binding after a fault
-- ---------------------------------------------------------------------------

namespace Binding
variable {α β : Type}

/-- After a fault nothing more is bound. -/
class Sticky (x : Binding α) : Prop where
  keeps_fault : ∀ fault, (x (some fault)).2 = some fault

instance {old : α} {step : Except Fault α} : Sticky (attempt old step) := ⟨fun _ => rfl⟩

instance {a : α} : Sticky (pure a) := ⟨fun _ => rfl⟩

instance {x : Binding α} {f : α → Binding β} [hx : Sticky x] [hf : ∀ a, Sticky (f a)] :
    Sticky (x >>= f) where
  keeps_fault fault := by
    change (f (x (some fault)).1 (x (some fault)).2).2 = _
    rw [hx.keeps_fault, (hf _).keeps_fault]

instance {x : Binding α} {f : α → β} [hx : Sticky x] : Sticky (f <$> x) := ⟨hx.keeps_fault⟩

instance {f : α → Binding β} [∀ a, Sticky (f a)] (l : List α) : Sticky (l.mapM f) := by
  induction l with
  | nil => rw [List.mapM_nil]; infer_instance
  | cons a l ih => rw [List.mapM_cons]; infer_instance

@[simp] theorem attempt_eq {old a : α} {step : Except Fault α} :
    attempt old step none = (a, none) ↔ step = .ok a := by
  cases step with
  | ok b => exact ⟨fun h => congrArg _ (congrArg Prod.fst h), fun h => by cases h; rfl⟩
  | error fault => exact ⟨fun h => absurd (congrArg Prod.snd h) (by simp [attempt]), nofun⟩

@[simp] theorem pure_eq {a b : α} : (pure a : Binding α) none = (b, none) ↔ a = b :=
  ⟨fun h => congrArg Prod.fst h, fun h => by rw [h]; rfl⟩

@[simp] theorem bind_eq {x : Binding α} {f : α → Binding β} {b : β} [hf : ∀ a, Sticky (f a)] :
    (x >>= f) none = (b, none) ↔ ∃ a, x none = (a, none) ∧ f a none = (b, none) := by
  change f (x none).1 (x none).2 = _ ↔ _
  constructor
  · intro h
    rcases hx : x none with ⟨a, _ | fault⟩
    · exact ⟨a, rfl, by rwa [hx] at h⟩
    · rw [hx] at h
      exact absurd (((hf a).keeps_fault fault).symm.trans (congrArg Prod.snd h)) (by simp)
  · rintro ⟨a, hx, h⟩
    rw [hx]
    exact h

@[simp] theorem map_eq {x : Binding α} {f : α → β} {b : β} :
    (f <$> x) none = (b, none) ↔ ∃ a, x none = (a, none) ∧ f a = b := by
  change (f (x none).1, (x none).2) = _ ↔ _
  constructor
  · intro h
    obtain ⟨hb, hnone⟩ := Prod.mk.inj h
    exact ⟨(x none).1, Prod.ext rfl hnone, hb⟩
  · rintro ⟨a, hx, rfl⟩
    rw [hx]

/-- A list is bound when each of its elements is. -/
theorem mapM_eq {f : α → Binding β} [∀ a, Sticky (f a)] {g : α → Option β} {h : α → β}
    (hf : ∀ a b, f a none = (b, none) ↔ g a = some b) (hg : ∀ a b, g a = some b → h a = b)
    {l : List α} {bs : List β} :
    l.mapM f none = (bs, none) ↔ (∀ a ∈ l, (g a).isSome) ∧ l.map h = bs := by
  induction l generalizing bs with
  | nil => rw [List.mapM_nil]; simp
  | cons a l ih =>
    rw [List.mapM_cons, bind_eq]
    simp only [bind_eq, pure_eq, hf, ih, List.mem_cons, forall_eq_or_imp, List.map_cons]
    constructor
    · rintro ⟨b, hb, cs, ⟨hl, rfl⟩, rfl⟩
      exact ⟨⟨by simp [hb], hl⟩, by rw [hg a b hb]⟩
    · rintro ⟨⟨ha, hl⟩, rfl⟩
      obtain ⟨b, hb⟩ := Option.isSome_iff_exists.mp ha
      exact ⟨b, hb, _, ⟨hl, rfl⟩, by rw [hg a b hb]⟩

end Binding

-- ---------------------------------------------------------------------------
-- Columns that refer to an input
-- ---------------------------------------------------------------------------

namespace Column

/-- A column of which only the position is left. -/
def bare (c : Column) : Column := { fresh "" default with index := c.index }

@[simp] theorem bare_index (c : Column) : c.bare.index = c.index := rfl

end Column

namespace Operand

def mapColumn (f : Column → Column) : Operand → Operand
  | .column c => .column (f c)
  | .scalar s => .scalar s

end Operand

namespace Op

/-- The operator with `f` applied to each column that is bound to an input; `f`
is told the position of the input. -/
def mapBound (f : Nat → Column → Column) : Op → Op
  | .project cs => .project (cs.map (f 0))
  | .distinct cs => .distinct (cs.map (f 0))
  | .arithmetic fn target operands appends =>
    .arithmetic fn (if appends then target else f 0 target) (operands.map (·.mapColumn (f 0))) appends
  | .filterByColumn c against test => .filterByColumn (f 0 c) (f 0 against) test
  | .filterByScalar c scalar test => .filterByScalar (f 0 c) scalar test
  | .sortBy c increasing => .sortBy (f 0 c) increasing
  | .count groups name => .count (groups.map (f 0)) name
  | .sum groups c name => .sum (groups.map (f 0)) (f 0 c) name
  | .mean groups c name weight => .mean (groups.map (f 0)) (f 0 c) name (weight.map (f 0))
  | .stdDev groups c name => .stdDev (groups.map (f 0)) (f 0 c) name
  | .sumCount groups c sumName countName => .sumCount (groups.map (f 0)) (f 0 c) sumName countName
  | .sumSquaresCount groups c sumName squaresName countName =>
    .sumSquaresCount (groups.map (f 0)) (f 0 c) sumName squaresName countName
  | .variance groups total squares size name =>
    .variance (groups.map (f 0)) (f 0 total) (f 0 squares) (f 0 size) name
  | .columnSums groups cs => .columnSums (groups.map (f 0)) (cs.map (f 0))
  | .join leftKeys rightKeys => .join (leftKeys.map (f 0)) (rightKeys.map (f 1))
  | .memberFilter c member isIn => .memberFilter (f 0 c) (f 1 member) isIn
  | .columnUnion left right name => .columnUnion (f 0 left) (f 1 right) name
  | op => op

/-- The columns that are bound to an input, with the position of the input. -/
def bound : Op → List (Nat × Column)
  | .project cs | .distinct cs | .count cs _ => cs.map (0, ·)
  | .arithmetic _ target operands appends =>
    (if appends then [] else [(0, target)]) ++ (operands.filterMap Operand.column?).map (0, ·)
  | .filterByColumn c against _ => [(0, c), (0, against)]
  | .filterByScalar c _ _ | .sortBy c _ => [(0, c)]
  | .sum groups c _ | .stdDev groups c _ | .sumCount groups c _ _ | .sumSquaresCount groups c _ _ _ =>
    (groups ++ [c]).map (0, ·)
  | .mean groups c _ weight => (groups ++ c :: weight.toList).map (0, ·)
  | .variance groups total squares size _ => (groups ++ [total, squares, size]).map (0, ·)
  | .columnSums groups cs => (groups ++ cs).map (0, ·)
  | .join leftKeys rightKeys => leftKeys.map (0, ·) ++ rightKeys.map (1, ·)
  | .memberFilter c member _ | .columnUnion c member _ => [(0, c), (1, member)]
  | _ => []

/-- The inputs that have to be there even if no column is bound to them. -/
def sides : Op → List Nat
  | .project _ | .distinct _ | .arithmetic .. | .count .. | .sum .. | .mean .. | .stdDev ..
  | .sumCount .. | .sumSquaresCount .. | .variance .. | .columnSums .. => [0]
  | .join .. => [0, 1]
  | _ => []

/-- The column of an input at the position of `c`. -/
def columnIn? (ins : List Relation) (side : Nat) (c : Column) : Option Column :=
  ins[side]?.bind fun rel => rel.columns[c.index]?

/-- The same where there is one, and what is left of `c` otherwise. -/
def found (ins : List Relation) (side : Nat) (c : Column) : Column :=
  (columnIn? ins side c).getD c.bare

/-- All columns that are to be bound can be found. -/
def Binds (ins : List Relation) (op : Op) : Prop :=
  (∀ side ∈ op.sides, side < ins.length) ∧
    ∀ b ∈ op.bound, (columnIn? ins b.1 b.2).isSome

/-- The operator with the columns found in the inputs. -/
def fill (ins : List Relation) (op : Op) : Op :=
  op.mapBound (found ins)

/-- The operator with only the positions of its bound columns. -/
def bare (op : Op) : Op := op.mapBound fun _ => Column.bare

-- ---------------------------------------------------------------------------
-- When binding succeeds
-- ---------------------------------------------------------------------------

variable {ins : List Relation} {kind : String} {side : Nat}

instance : Binding.Sticky (requireInput ins kind side) := inferInstanceAs (Binding.Sticky (.attempt _ _))

instance {c : Column} : Binding.Sticky (bindColumn ins kind side c) :=
  inferInstanceAs (Binding.Sticky (.attempt _ _))

instance {cs : List Column} : Binding.Sticky (bindColumns ins kind side cs) :=
  inferInstanceAs (Binding.Sticky (_ >>= _))

instance {o : Operand} : Binding.Sticky (bindOperand ins kind o) := by
  cases o <;> unfold bindOperand <;> infer_instance

theorem requireInput_eq {u : Unit} :
    requireInput ins kind side none = (u, none) ↔ side < ins.length := by
  rw [requireInput, Binding.attempt_eq, input]
  cases h : ins[side]? with
  | none => simpa [Except.map] using h
  | some rel => simpa [Except.map] using (List.getElem?_eq_some_iff.mp h).1

theorem bindColumn_eq {c d : Column} :
    bindColumn ins kind side c none = (d, none) ↔ columnIn? ins side c = some d := by
  rw [bindColumn, Binding.attempt_eq, input, columnIn?]
  cases ins[side]? with
  | none => simp [bind, Except.bind]
  | some rel =>
    simp only [bind, Except.bind, Option.bind_some, Relation.columnAt]
    cases rel.columns[c.index]? <;> simp

theorem bindColumns_eq {cs ds : List Column} :
    bindColumns ins kind side cs none = (ds, none) ↔
      side < ins.length ∧ (∀ c ∈ cs, (columnIn? ins side c).isSome) ∧
        cs.map (found ins side) = ds := by
  rw [bindColumns, Binding.bind_eq]
  simp only [requireInput_eq, exists_and_left, exists_const]
  rw [Binding.mapM_eq fun _ _ => bindColumn_eq]
  exact fun c d h => by rw [found, h]; rfl

theorem exists_columnIn? {c : Column} {P : Column → Prop} :
    (∃ d, columnIn? ins side c = some d ∧ P d) ↔
      (columnIn? ins side c).isSome ∧ P (found ins side c) := by
  unfold found
  cases columnIn? ins side c <;> simp

theorem mapM_bindOperand_eq {os os' : List Operand} :
    os.mapM (bindOperand ins kind) none = (os', none) ↔
      (∀ c ∈ os.filterMap Operand.column?, (columnIn? ins 0 c).isSome) ∧
        os.map (·.mapColumn (found ins 0)) = os' := by
  induction os generalizing os' with
  | nil => rw [List.mapM_nil]; simp
  | cons o os ih =>
    rw [List.mapM_cons, Binding.bind_eq]
    simp only [Binding.bind_eq, Binding.pure_eq, ih]
    cases o with
    | column c =>
      simp only [bindOperand, Binding.bind_eq, bindColumn_eq, Binding.pure_eq, exists_columnIn?]
      simp [Operand.column?, Operand.mapColumn, and_assoc]
    | scalar s => simp [bindOperand, Operand.column?, Operand.mapColumn]

/-- Binding succeeds exactly when every column is found, and takes what it finds. -/
theorem rebind_eq_iff {op op' : Op} :
    op.rebind ins none = (op', none) ↔ op.Binds ins ∧ op.fill ins = op' := by
  cases op
  case arithmetic fn target operands appends =>
    cases appends <;>
      simp only [rebind, Binding.bind_eq, Binding.pure_eq, requireInput_eq, bindColumn_eq,
        mapM_bindOperand_eq, Binds, fill, mapBound, sides, bound, exists_columnIn?, and_assoc,
        Bool.false_eq_true, if_true, if_false, exists_and_left, exists_eq_left', List.forall_mem_map,
        List.forall_mem_append, List.forall_mem_cons, List.not_mem_nil, false_imp_iff, forall_const,
        true_and, exists_const]
  case mean groups c name weight =>
    cases weight <;>
      simp only [rebind, Binding.bind_eq, Binding.pure_eq, Binding.map_eq, bindColumn_eq,
        bindColumns_eq, Option.mapM_none, Option.mapM_some, Binds, fill, mapBound, sides, bound,
        exists_columnIn?, and_assoc, exists_and_left, exists_eq_left', List.forall_mem_map,
        List.forall_mem_append, List.forall_mem_cons, Option.toList_none, Option.toList_some,
        Option.map_none, Option.map_some, List.not_mem_nil, false_imp_iff, forall_const, and_true]
  all_goals
    simp only [rebind, Binding.bind_eq, Binding.pure_eq, bindColumn_eq, bindColumns_eq, Binds, fill,
      mapBound, sides, bound, exists_columnIn?, and_assoc, exists_and_left, exists_eq_left',
      List.forall_mem_map, List.forall_mem_append, List.forall_mem_cons, List.not_mem_nil,
      false_imp_iff, forall_const, true_and, and_true]
  case columnSums | join => tauto

-- ---------------------------------------------------------------------------
-- What binding leaves alone
-- ---------------------------------------------------------------------------

variable {op op' : Op} {f g : Nat → Column → Column}

theorem mapBound_mapBound :
    (op.mapBound g).mapBound f = op.mapBound fun side c => f side (g side c) := by
  cases op
  case arithmetic fn target operands appends =>
    have hcomp : (Operand.mapColumn (f 0) ∘ Operand.mapColumn (g 0)) =
        Operand.mapColumn fun c => f 0 (g 0 c) := by
      funext o
      cases o <;> rfl
    cases appends <;> simp [mapBound, hcomp]
  all_goals simp [mapBound, Function.comp_def]

theorem bound_mapBound : (op.mapBound f).bound = op.bound.map fun b => (b.1, f b.1 b.2) := by
  cases op
  case arithmetic fn target operands appends =>
    have hcolumn (o : Operand) : (o.mapColumn (f 0)).column? = o.column?.map (f 0) := by
      cases o <;> rfl
    cases appends <;>
      simp [mapBound, bound, List.filterMap_map, List.map_filterMap, Function.comp_def, hcolumn]
  case mean groups c name weight => cases weight <;> simp [mapBound, bound]
  all_goals simp [mapBound, bound, Function.comp_def]

@[simp] theorem sides_mapBound : (op.mapBound f).sides = op.sides := by cases op <;> rfl

@[simp] theorem arity_mapBound : (op.mapBound f).arity = op.arity := by cases op <;> rfl

@[simp] theorem isBoundary_mapBound : (op.mapBound f).isBoundary = op.isBoundary := by
  cases op <;> rfl

theorem mapBound_congr (h : ∀ side c, f side c = g side c) : op.mapBound f = op.mapBound g := by
  rw [show f = g from funext fun side => funext fun c => h side c]

theorem mapBound_eq_self (h : op.bound = []) : op.mapBound f = op := by
  cases op
  case arithmetic fn target operands appends =>
    cases appends
    · simp [bound] at h
    · simp only [bound, if_true, List.nil_append, List.map_eq_nil_iff, List.filterMap_eq_nil_iff] at h
      simp only [mapBound, if_true, arithmetic.injEq, true_and, and_true]
      refine (List.map_congr_left fun o ho => ?_).trans (List.map_id operands)
      cases o with
      | column c => exact absurd (h _ ho) (by simp [Operand.column?])
      | scalar s => rfl
  case mean groups c name weight => simp [bound] at h
  all_goals simp_all [mapBound, bound]

theorem eq_create_of_mapBound (h : op.mapBound f = .create) : op = .create := by
  cases op <;> simp_all [Op.mapBound]

theorem eq_create_of_outputStorage? (h : op.outputStorage? ins = .ok none) : op = .create := by
  cases op <;> simp [outputStorage?, arity, map_eq_ok] at h ⊢

theorem eq_create_of_outputColumns? {members : PartySet} (h : op.outputColumns? ins members = .ok none) :
    op = .create := by
  cases op
  case create => rfl
  case columnUnion =>
    simp only [outputColumns?] at h
    split at h <;> cases h
  case squareRoot =>
    obtain ⟨cs, -, h⟩ := bind_eq_ok.mp h
    split at h <;> cases h
  all_goals simp [outputColumns?, map_eq_ok, bind_eq_ok] at h

/-- Operators that differ in what is bound to them only. -/
theorem eq_of_bare_eq (h : op.bare = op'.bare) (hb : op'.bound = []) : op = op' := by
  have hop : op.bound = [] := by
    have := congrArg bound h
    simpa [bare, bound_mapBound, hb] using this
  simpa [bare, mapBound_eq_self, hop, hb] using h

theorem isBoundary_eq_of_bare_eq (h : op.bare = op'.bare) : op.isBoundary = op'.isBoundary := by
  simpa [bare] using congrArg isBoundary h

theorem bare_mapBound (h : ∀ side c, (f side c).index = c.index) : (op.mapBound f).bare = op.bare := by
  rw [bare, mapBound_mapBound]
  exact mapBound_congr fun side c => by simp [Column.bare, h]

@[simp] theorem found_bare {c : Column} : found ins side c.bare = found ins side c := rfl

theorem fill_eq_of_bare_eq (h : op.bare = op'.bare) : op.fill ins = op'.fill ins := by
  have hfill (op : Op) : op.fill ins = op.bare.fill ins := by
    rw [bare, fill, fill, mapBound_mapBound]
    rfl
  rw [hfill op, hfill op', h]

theorem Binds.of_bare_eq (h : op.bare = op'.bare) (hb : op.Binds ins) : op'.Binds ins := by
  have hbare (op : Op) : op.bare.Binds ins ↔ op.Binds ins := by
    simp only [Binds, bare, sides_mapBound, bound_mapBound, List.forall_mem_map]
    rfl
  exact (hbare op').mp (h ▸ (hbare op).mpr hb)

end Op

namespace Relation

/-- Every column carries its position. -/
def Numbered (r : Relation) : Prop := ∀ (i : Nat) (c : Column), r.columns[i]? = some c → c.index = i

end Relation

namespace Op

theorem found_index {ins : List Relation} {side : Nat} {c : Column}
    (h : ∀ r ∈ ins, r.Numbered) : (found ins side c).index = c.index := by
  unfold found columnIn?
  cases hs : ins[side]? with
  | none => rfl
  | some r =>
    cases hc : r.columns[c.index]? with
    | none => simp [hc]
    | some d => simpa [hc] using h r (List.mem_of_getElem? hs) _ _ hc

/-- Binding to numbered columns changes no position. -/
theorem bare_fill {ins : List Relation} {op : Op} (h : ∀ r ∈ ins, r.Numbered) :
    (op.fill ins).bare = op.bare :=
  bare_mapBound fun _ _ => found_index h

end Op

end JointPlan
