import JointPlan.Proofs.Settling

/-!
# Lineage

Which columns of the inputs each column of an output is computed from. Who is entitled to a
column, and who holds it, follows: it is what all its sources have in common. A result that no
longer depends on single rows has no sources and is open to all parties that store it.

Like the schema this depends on positions alone. Schema, access and storage make up the
profile of a relation, which is all of it but the name, and `Op.Makes` says which profile an
operator makes of the profiles that it reads. Where a plan is up to date its nodes have the profiles that
their operators make.
-/

namespace JointPlan

namespace PartySet

variable {sets sets' : List PartySet}

theorem interAll_congr (h : ∀ s, s ∈ sets ↔ s ∈ sets') : interAll sets = interAll sets' := by
  by_cases hnil : sets = []
  · subst hnil
    rw [List.eq_nil_iff_forall_not_mem.mpr fun s hs => List.not_mem_nil ((h s).mpr hs)]
  · obtain ⟨s, hs⟩ := List.exists_mem_of_ne_nil _ hnil
    have hnil' : sets' ≠ [] := List.ne_nil_of_mem ((h s).mp hs)
    ext a
    rw [mem_interAll hnil, mem_interAll hnil']
    exact forall_congr' fun s => imp_congr_left (h s)

theorem interAll_flatten {lists : List (List PartySet)} (h : ∀ l ∈ lists, l ≠ []) :
    interAll (lists.map interAll) = interAll lists.flatten := by
  by_cases hnil : lists = []
  · simp [hnil]
  · obtain ⟨l, hl⟩ := List.exists_mem_of_ne_nil _ hnil
    have hflat : lists.flatten ≠ [] := fun hempty => h l hl (List.flatten_eq_nil_iff.mp hempty l hl)
    ext a
    rw [mem_interAll (by simpa using hnil), mem_interAll hflat, List.forall_mem_map]
    simp only [List.mem_flatten, forall_exists_index, and_imp]
    constructor
    · intro hall s l hl hs
      exact (mem_interAll (h l hl)).mp (hall l hl) s hs
    · intro hall l hl
      exact (mem_interAll (h l hl)).mpr fun s hs => hall s l hl hs

end PartySet

-- ---------------------------------------------------------------------------
-- Access
-- ---------------------------------------------------------------------------

/-- Who is entitled to a column and who holds it in the clear. -/
structure Access where
  trust : PartySet
  plain : PartySet
deriving DecidableEq

namespace Access

variable {a : Access} {l l' : List Access}

instance : Inhabited Access := ⟨⟨∅, ∅⟩⟩

/-- Open to all of `members`. -/
def everyone (members : PartySet) : Access := ⟨members, members⟩

def loosen (a : Access) (members : PartySet) : Access := ⟨a.trust ∪ members, a.plain ∪ members⟩

/-- What all sources have in common. -/
def shared (sources : List Access) : Access :=
  ⟨PartySet.interAll (sources.map trust), PartySet.interAll (sources.map plain)⟩

@[simp] theorem shared_singleton : shared [a] = a := rfl

theorem shared_congr (h : ∀ a, a ∈ l ↔ a ∈ l') : shared l = shared l' := by
  have hmap (f : Access → PartySet) : PartySet.interAll (l.map f) = PartySet.interAll (l'.map f) :=
    PartySet.interAll_congr fun s => by simp only [List.mem_map, h]
  rw [shared, shared, hmap, hmap]

/-- What is shared in several steps is shared at once. -/
theorem shared_flatten {lists : List (List Access)} (h : ∀ l ∈ lists, l ≠ []) :
    shared (lists.map shared) = shared lists.flatten := by
  have hmap (f : Access → PartySet) : PartySet.interAll (lists.map fun l => PartySet.interAll (l.map f)) =
      PartySet.interAll (lists.flatten.map f) := by
    rw [List.map_flatten, ← PartySet.interAll_flatten, List.map_map]
    · rfl
    · simpa using h
  simp only [shared, List.map_map, Function.comp_def, hmap]

end Access

def Column.access (c : Column) : Access := ⟨c.trust, c.plain⟩

namespace Column

variable {c : Column} {sources groups : List Column} {members : PartySet}

@[simp] theorem access_labeled : (c.labeled members members).access = .everyone members := rfl

@[simp] theorem access_loosen : (c.loosen members).access = c.access.loosen members := rfl

@[simp] theorem access_derived : (c.derived sources).access = .shared (sources.map access) := by
  simp [derived, labeled, access, Access.shared, mergedTrust, mergedPlain, Function.comp_def]

theorem access_aggregated : (Op.aggregated groups sources members c).access =
    if groups.isEmpty then .everyone members else .shared ((groups ++ sources).map access) := by
  unfold Op.aggregated
  split
  · rfl
  · exact access_derived

end Column

namespace Relation

def accesses (r : Relation) : List Access := r.columns.map Column.access

theorem getElem?_of_columnAt {r : Relation} {i : Nat} {c : Column} (h : r.columnAt i = .ok c) :
    r.columns[i]? = some c := by
  unfold columnAt at h
  split at h
  · cases h
    assumption
  · cases h

end Relation

namespace Op

variable {ins : List Relation} {op op' : Op} {side : Nat} {c : Column} {members : PartySet}

-- ---------------------------------------------------------------------------
-- Where columns come from
-- ---------------------------------------------------------------------------

/-- A column of an input: the position of the input, and that of the column in it. -/
abbrev Source := Nat × Nat

/-- All columns of an input, one by one. -/
def through (widths : List Nat) (side : Nat) : List (List Source) :=
  (List.range (widths[side]?.getD 0)).map fun i => [(side, i)]

/-- The columns of an input but those of `keys`. -/
def besides (widths : List Nat) (side : Nat) (keys : List Column) : List (List Source) :=
  ((List.range (widths[side]?.getD 0)).filter fun i => !(keys.map Column.index).contains i).map fun i => [(side, i)]

def drawn (cs : List Column) : List Source := cs.map fun c => (0, c.index)

/-- The groups, and a result for each of `lists`. -/
def perGroup (groups : List Column) (lists : List (List Column)) : List (List Source) :=
  groups.map (fun c => [(0, c.index)]) ++
    lists.map fun cs => if groups.isEmpty then [] else drawn (groups ++ cs)

/-- The sources of each column of the output. A column that does not depend on single rows has
none. -/
def lineage (widths : List Nat) (op : Op) : List (List Source) :=
  match op with
  | .create => []
  | .limit .. | .filterByColumn .. | .filterByScalar .. | .sortBy .. | .collect .. | .opening | .closing ..
  | .store | .read | .persist | .send | .shuffle | .squareRoot _ => through widths 0
  | .project cs | .distinct cs => cs.map fun c => [(0, c.index)]
  | .arithmetic _ target operands appends =>
    let sources := drawn (operands.filterMap Operand.column?)
    if appends then through widths 0 ++ [sources]
    else (through widths 0).set target.index (sources ++ [(0, target.index)])
  | .numRows _ => [[]]
  | .index _ => [] :: through widths 0
  | .count groups _ => perGroup groups [[]]
  | .sum groups c _ | .stdDev groups c _ => perGroup groups [[c]]
  | .mean groups c _ weight => perGroup groups [c :: weight.toList]
  | .sumCount groups c _ _ => perGroup groups [[c], [c]]
  | .sumSquaresCount groups c _ _ _ => perGroup groups [[c], [c], [c]]
  | .variance groups total squares size _ => perGroup groups [[total, squares, size]]
  | .columnSums groups cs => perGroup groups (cs.map fun c => [c])
  | .join leftKeys rightKeys =>
    (leftKeys.zip rightKeys).map (fun e => [(0, e.1.index), (1, e.2.index)]) ++
      besides widths 0 leftKeys ++ besides widths 1 rightKeys
  | .memberFilter _ member _ =>
    (List.range (widths[0]?.getD 0)).map fun i => [(0, i), (1, member.index)]
  | .columnUnion left right _ => [[(0, left.index), (1, right.index)]]
  | .concat =>
    (List.range (widths[0]?.getD 0)).map fun i => (List.range widths.length).map fun side => (side, i)

/-- What is known of a column of an input. -/
def accessAt (ins : List (List Access)) (s : Source) : Access := (ins[s.1]?.bind fun l => l[s.2]?).getD default

def accessOf (members : PartySet) (ins : List (List Access)) (sources : List Source) : Access :=
  if sources = [] then .everyone members else .shared (sources.map (accessAt ins))

/-- Who has access to the columns of the output, which `members` store. -/
def accesses (members : PartySet) (ins : List (List Access)) (op : Op) : List Access :=
  let given := (op.lineage (ins.map List.length)).map (accessOf members ins)
  match op with
  | .opening => given.map fun a => a.loosen members
  | _ => given

section Mapped

variable {f : Nat → Column → Column} (hf : ∀ side c, (f side c).index = c.index)

include hf

theorem lineage_mapBound {widths : List Nat} : (op.mapBound f).lineage widths = op.lineage widths := by
  cases op
  case arithmetic fn target operands appends =>
    have hsources : (operands.map fun o => o.mapColumn (f 0)).filterMap Operand.column? =
        (operands.filterMap Operand.column?).map (f 0) := by
      simp [List.filterMap_map, List.map_filterMap]
    cases appends <;> simp [mapBound, lineage, hsources, drawn, hf, Function.comp_def]
  all_goals
    simp [mapBound, lineage, perGroup, drawn, besides, hf, Function.comp_def, List.zip_map, Option.toList_map]

theorem accesses_mapBound {ins : List (List Access)} :
    (op.mapBound f).accesses members ins = op.accesses members ins := by
  have hlineage : (op.mapBound f).lineage (ins.map List.length) = _ := lineage_mapBound hf
  cases op <;> simp only [accesses, mapBound] at hlineage ⊢ <;> rw [hlineage]

end Mapped

-- ---------------------------------------------------------------------------
-- What an operator computes
-- ---------------------------------------------------------------------------

theorem access_found : (found ins side c).access = accessAt (ins.map Relation.accesses) (side, c.index) := by
  rw [found, columnIn?, accessAt, List.getElem?_map]
  cases ins[side]? with
  | none => rfl
  | some r =>
    simp only [Option.bind_some, Option.map_some, Relation.accesses, List.getElem?_map]
    cases r.columns[c.index]? <;> rfl

theorem accessOf_singleton {ins : List (List Access)} {s : Source} : accessOf members ins [s] = accessAt ins s := by
  simp [accessOf]

theorem map_access_found {cs : List Column} : (cs.map (found ins 0)).map Column.access =
    (drawn cs).map (accessAt (ins.map Relation.accesses)) := by
  simp [drawn, access_found]

section Columns

variable {r : Relation} (hr : ins[side]? = some r)

include hr

theorem accessAt_of_getElem? {i : Nat} (hi : r.columns[i]? = some c) :
    accessAt (ins.map Relation.accesses) (side, i) = c.access := by
  simp [accessAt, hr, Relation.accesses, hi]

theorem width_eq : ((ins.map Relation.accesses).map List.length)[side]?.getD 0 = r.columns.length := by
  simp [hr, Relation.accesses]

theorem map_access_columns (members : PartySet) : r.columns.map Column.access =
    (through ((ins.map Relation.accesses).map List.length) side).map (accessOf members (ins.map Relation.accesses)) := by
  rw [through, width_eq hr, List.map_map]
  refine List.ext_getElem (by simp) fun i hi _ => ?_
  have hi : i < r.columns.length := by simpa using hi
  simp [accessOf_singleton, accessAt_of_getElem? hr (List.getElem?_eq_getElem hi)]

theorem map_access_besides (members : PartySet) {keys : List Column} (hnumbered : r.Numbered) :
    (r.columns.filter fun c => !(keys.map Column.index).contains c.index).map Column.access =
      (besides ((ins.map Relation.accesses).map List.length) side keys).map
        (accessOf members (ins.map Relation.accesses)) := by
  have hcolumns : r.columns = (List.range r.columns.length).map fun i => r.columns[i]?.getD default := by
    refine List.ext_getElem (by simp) fun i hi _ => ?_
    simp [hi]
  rw [besides, width_eq hr, List.map_map]
  conv_lhs => rw [hcolumns, List.filter_map, List.map_map]
  have hindex : ∀ i ∈ List.range r.columns.length, (r.columns[i]?.getD default).index = i := by
    intro i hi
    rw [List.getElem?_eq_getElem (List.mem_range.mp hi)]
    exact hnumbered i _ (List.getElem?_eq_getElem (List.mem_range.mp hi))
  have hkeep : (List.range r.columns.length).filter
      ((fun c => !(keys.map Column.index).contains c.index) ∘ fun i => r.columns[i]?.getD default) =
      (List.range r.columns.length).filter fun i => !(keys.map Column.index).contains i :=
    List.filter_congr fun i hi => by rw [Function.comp_apply, hindex i hi]
  rw [hkeep]
  refine List.map_congr_left fun i hi => ?_
  have hi : i < r.columns.length := List.mem_range.mp (List.mem_of_mem_filter hi)
  simp [accessOf_singleton, accessAt_of_getElem? hr (List.getElem?_eq_getElem hi), hi]

end Columns

theorem accessOf_drawn {cs : List Column} (h : cs ≠ []) :
    accessOf members (ins.map Relation.accesses) (drawn cs) = .shared ((cs.map (found ins 0)).map Column.access) := by
  rw [accessOf, if_neg (by simpa [drawn] using h), map_access_found]

theorem access_aggregated_found (cs : List Column) {groups : List Column} {out : Column} :
    (aggregated (groups.map (found ins 0)) (cs.map (found ins 0)) members out).access =
      accessOf members (ins.map Relation.accesses) (if groups.isEmpty then [] else drawn (groups ++ cs)) := by
  rw [Column.access_aggregated]
  cases groups with
  | nil => rfl
  | cons c groups =>
    rw [List.isEmpty_map, List.isEmpty_cons, if_neg (by simp), if_neg (by simp), accessOf_drawn (by simp),
      List.map_append (f := found ins 0)]

theorem map_access_groups (members : PartySet) {groups : List Column} : (groups.map (found ins 0)).map Column.access =
    (groups.map fun c => [((0 : Nat), c.index)]).map (accessOf members (ins.map Relation.accesses)) := by
  simp [accessOf_singleton, access_found]

theorem accesses_aggregateColumns (cs : List Column) {groups outs : List Column} :
    (aggregateColumns (groups.map (found ins 0)) (cs.map (found ins 0)) outs members).map Column.access =
      (perGroup groups (outs.map fun _ => cs)).map (accessOf members (ins.map Relation.accesses)) := by
  simp only [aggregateColumns, perGroup, List.map_append, map_access_groups members, List.map_map]
  exact congrArg _ (List.map_congr_left fun out _ => access_aggregated_found cs)

theorem accesses_of_arithmeticColumns {r : Relation} {target : Column} {operands : List Operand} {appends : Bool}
    {cols : List Column} (hr : ins[0]? = some r) (hindex : (found ins 0 target).index = target.index)
    (h : arithmeticColumns r (if appends then target else found ins 0 target)
      (operands.map fun o => o.mapColumn (found ins 0)) appends = .ok cols) (fn : Arithmetic) :
    cols.map Column.access = (arithmetic fn target operands appends).accesses members (ins.map Relation.accesses) := by
  have hsources : (operands.map fun o => o.mapColumn (found ins 0)).filterMap Operand.column? =
      (operands.filterMap Operand.column?).map (found ins 0) := by
    simp [List.filterMap_map, List.map_filterMap]
  have hbase := map_access_columns hr members
  cases appends with
  | true =>
    simp only [arithmeticColumns, hsources, if_true] at h
    split at h
    · cases h
    split at h
    · cases h
    rename_i hne
    obtain ⟨type, -, h⟩ := bind_eq_ok.mp h
    cases pure_eq_ok.mp h
    have hne : operands.filterMap Operand.column? ≠ [] := by simpa using hne
    simp only [accesses, lineage, if_true, List.map_append, hbase, List.map_singleton, accessOf_drawn hne]
    exact congrArg (_ ++ [·]) (Column.access_derived (c := target))
  | false =>
    simp only [arithmeticColumns, hsources, Bool.false_eq_true, if_false] at h
    obtain ⟨prior, hprior, h⟩ := bind_eq_ok.mp h
    obtain ⟨type, -, h⟩ := bind_eq_ok.mp h
    cases pure_eq_ok.mp h
    rw [hindex] at hprior ⊢
    have hprior := accessAt_of_getElem? hr (Relation.getElem?_of_columnAt hprior)
    simp only [accesses, lineage, Bool.false_eq_true, if_false, List.map_set, hbase]
    refine congrArg _ ((Column.access_derived (c := prior)).trans ?_)
    rw [List.map_append, map_access_found, accessOf, if_neg (by simp), List.map_append, List.map_singleton,
      List.map_singleton, hprior]

theorem accesses_of_joinColumns {left right : Relation} {leftKeys rightKeys cols : List Column}
    (hins : ∀ r ∈ ins, r.Numbered) (hleft : ins[0]? = some left) (hright : ins[1]? = some right)
    (h : joinColumns left right (leftKeys.map (found ins 0)) (rightKeys.map (found ins 1)) = .ok cols) :
    cols.map Column.access = (join leftKeys rightKeys).accesses members (ins.map Relation.accesses) := by
  have hindex (side : Nat) (cs : List Column) : (cs.map (found ins side)).map Column.index = cs.map Column.index := by
    simp [found_index hins, Function.comp_def]
  unfold joinColumns at h
  by_cases hlength : (leftKeys.map (found ins 0)).length = (rightKeys.map (found ins 1)).length
  · rw [if_neg (not_not.mpr hlength)] at h
    obtain ⟨keys, hkeys, h⟩ := bind_eq_ok.mp h
    cases pure_eq_ok.mp h
    change (_ : List _).mapM (joinKey _) = _ at hkeys
    obtain ⟨-, rfl⟩ := mapM_joinKey.mp hkeys
    simp only [hindex, List.map_append, map_access_besides hleft members (hins _ (List.mem_of_getElem? hleft)),
      map_access_besides hright members (hins _ (List.mem_of_getElem? hright)), accesses, lineage]
    simp [List.zip_map, accessOf, access_found, Function.comp_def]
  · rw [if_pos hlength] at h
    cases h

theorem accesses_of_concatColumns {cols : List Column} (h : concatColumns ins = .ok cols) :
    cols.map Column.access = concat.accesses members (ins.map Relation.accesses) := by
  cases ins with
  | nil => cases h
  | cons first rest =>
    obtain ⟨_, hcheck, h⟩ := bind_eq_ok.mp h
    cases pure_eq_ok.mp h
    have hwidth : ∀ r ∈ first :: rest, r.columns.length = first.columns.length := by
      refine List.forall_mem_cons.mpr ⟨rfl, fun r hr => ?_⟩
      simpa [Schema.types] using (congrArg List.length (checkConcat_eq_ok.mp hcheck r hr)).symm
    have hlineage : concat.lineage (((first :: rest).map Relation.accesses).map List.length) =
        (List.range first.columns.length).map fun i => (List.range (first :: rest).length).map fun side => (side, i) := by
      rw [lineage, width_eq (r := first) rfl]
      simp
    change _ = (concat.lineage _).map _
    rw [hlineage, List.map_map]
    refine List.ext_getElem (by simp) fun i hi _ => ?_
    have hi : i < first.columns.length := by simpa using hi
    simp only [List.getElem_map, List.getElem_mapIdx, Column.access_derived, List.getElem_range, Function.comp_apply, accessOf]
    rw [if_neg (by simp)]
    refine Access.shared_congr fun a => ?_
    simp only [List.mem_map, List.mem_filterMap, List.mem_range, List.map_map]
    constructor
    · rintro ⟨c, ⟨r, hr, hc⟩, rfl⟩
      obtain ⟨side, hside⟩ := List.mem_iff_getElem?.mp hr
      exact ⟨side, (List.getElem?_eq_some_iff.mp hside).1, accessAt_of_getElem? hside hc⟩
    · rintro ⟨side, hside, rfl⟩
      have hr := List.getElem?_eq_getElem hside
      have hmem := List.getElem_mem hside
      have hc := List.getElem?_eq_getElem (hi.trans_eq (hwidth _ hmem).symm)
      exact ⟨_, ⟨_, hmem, hc⟩, (accessAt_of_getElem? hr hc).symm⟩

theorem accesses_of_outputColumns? {cols : List Column} (hins : ∀ r ∈ ins, r.Numbered)
    (h : (op.fill ins).outputColumns? ins members = .ok (some cols)) :
    cols.map Column.access = op.accesses members (ins.map Relation.accesses) := by
  have hinput {side : Nat} {kind : String} {r : Relation} (h : input ins side kind = .ok r) : ins[side]? = some r := by
    unfold input at h
    split at h
    · cases h
      assumption
    · cases h
  cases op <;> simp only [fill, mapBound, outputColumns?, map_eq_ok, bind_eq_ok, pure_eq_ok] at h
  case create => cases h
  case limit | filterByColumn | filterByScalar | sortBy | collect | closing | store | read | persist | send | shuffle =>
    obtain ⟨_, ⟨r, hr, rfl⟩, hcols⟩ := h
    cases hcols
    exact map_access_columns (hinput hr) members
  case project cs | distinct cs =>
    cases h
    exact map_access_groups members
  case numRows => cases h; rfl
  case index =>
    obtain ⟨_, ⟨r, hr, rfl⟩, hcols⟩ := h
    cases hcols
    exact congrArg (Access.everyone members :: ·) (map_access_columns (hinput hr) members)
  case count =>
    cases h
    exact accesses_aggregateColumns []
  case sum | stdDev | sumCount | sumSquaresCount =>
    cases h
    exact accesses_aggregateColumns [_]
  case mean groups c name weight =>
    cases h
    rw [Option.toList_map]
    exact accesses_aggregateColumns (c :: weight.toList)
  case variance =>
    cases h
    exact accesses_aggregateColumns [_, _, _]
  case columnSums groups cs =>
    cases h
    simp only [accesses, lineage, perGroup, List.map_append, map_access_groups members, List.map_map]
    exact congrArg _ (List.map_congr_left fun c _ => access_aggregated_found [c])
  case arithmetic fn target operands appends =>
    obtain ⟨r, hr, cols', hcols, h⟩ := h
    cases h
    exact accesses_of_arithmeticColumns (hinput hr) (found_index hins) hcols fn
  case join leftKeys rightKeys =>
    obtain ⟨left, hleft, right, hright, _, hcols, h⟩ := h
    cases h
    exact accesses_of_joinColumns hins (hinput hleft) (hinput hright) hcols
  case concat =>
    obtain ⟨_, hcols, h⟩ := h
    cases h
    exact accesses_of_concatColumns hcols
  case squareRoot name =>
    obtain ⟨_, ⟨r, hr, rfl⟩, h⟩ := h
    split at h
    · cases h
    rename_i last hlast
    cases h
    obtain ⟨front, hfront⟩ := List.getLast?_eq_some_iff.mp hlast
    refine Eq.trans ?_ (map_access_columns (hinput hr) members)
    simp [hfront, Column.access]
  case columnUnion left right name =>
    split at h
    · cases h
      have hunion : ((found ins 0 left).derived [found ins 0 left, found ins 1 right]).access =
          accessOf members (ins.map Relation.accesses) [(0, left.index), (1, right.index)] := by
        simp [accessOf, access_found]
      exact congrArg (fun a => [a]) hunion
    · cases h
  case memberFilter c member isIn =>
    obtain ⟨_, ⟨r, hr, rfl⟩, h⟩ := h
    cases h
    change _ = ((List.range _).map _).map _
    rw [width_eq (hinput hr), List.map_map, List.map_map]
    refine List.ext_getElem (by simp) fun i hi _ => ?_
    have hi : i < r.columns.length := by simpa using hi
    simp [accessOf, access_found, accessAt_of_getElem? (hinput hr) (List.getElem?_eq_getElem hi)]
  case opening =>
    obtain ⟨_, ⟨r, hr, rfl⟩, h⟩ := h
    cases h
    change _ = ((through _ 0).map _).map _
    rw [← map_access_columns (hinput hr) members, List.map_map, List.map_map]
    rfl

-- ---------------------------------------------------------------------------
-- Where the output lives
-- ---------------------------------------------------------------------------

/-- Where the output lives, told from where the inputs live. -/
def place? (ins : List Storage) (op : Op) : Option Storage :=
  match op with
  | .create => none
  | .collect recipients => (Storage.ofMembers recipients).toOption
  | .opening => ins[0]?.map Storage.flattened
  | .closing storage => some storage
  | _ =>
    match op.arity with
    | .unary => ins[0]?
    | _ => (Storage.combine ins).toOption

theorem place?_mapBound {ins : List Storage} {f : Nat → Column → Column} :
    (op.mapBound f).place? ins = op.place? ins := by
  cases op <;> rfl

theorem place?_of_outputStorage? {st : Storage} (h : op.outputStorage? ins = .ok (some st)) :
    op.place? (ins.map Relation.storage) = some st := by
  have hinput {kind : String} {f : Relation → Option Storage} (h : f <$> input ins 0 kind = .ok (some st)) :
      ins[0]?.bind f = some st := by
    unfold input at h
    cases hr : ins[0]? <;> simp_all
  cases op
  case create => cases h
  case collect recipients =>
    obtain ⟨_, hst, h⟩ := map_eq_ok.mp h
    cases h
    simp [place?, hst, Except.toOption]
  case opening => simpa [place?, Option.map_eq_bind, Option.bind_assoc] using hinput h
  case closing => cases h; rfl
  case join | memberFilter | columnUnion | concat =>
    obtain ⟨_, hst, h⟩ := map_eq_ok.mp h
    cases h
    simp [place?, arity, hst, Except.toOption]
  case arithmetic fn _ _ _ => cases fn <;> simpa [place?, arity, Option.map_eq_bind] using hinput h
  all_goals simpa [place?, arity, Option.map_eq_bind] using hinput h

end Op

-- ---------------------------------------------------------------------------
-- Profiles
-- ---------------------------------------------------------------------------

/-- All of a relation but its name. -/
structure Profile where
  columns : List ((String × ColumnType) × Access)
  storage : Storage

namespace Profile

variable {f g : Profile}

def schema (f : Profile) : Schema := f.columns.map Prod.fst

def accesses (f : Profile) : List Access := f.columns.map Prod.snd

@[simp] theorem length_schema : f.schema.length = f.columns.length := List.length_map ..

@[simp] theorem length_accesses : f.accesses.length = f.columns.length := List.length_map ..

theorem columns_eq_zip : f.columns = f.schema.zip f.accesses := by
  rw [schema, accesses, List.zip_map']
  exact (List.map_id _).symm

theorem eq_of_schema_eq (hschema : f.schema = g.schema) (haccesses : f.accesses = g.accesses)
    (hstorage : f.storage = g.storage) : f = g := by
  have hcolumns : f.columns = g.columns := by rw [columns_eq_zip, hschema, haccesses, ← columns_eq_zip]
  cases f
  cases g
  cases hcolumns
  cases hstorage
  rfl

instance : Inhabited Profile := ⟨⟨[], (Relation.blank "").storage⟩⟩

/-- A relation of that profile. -/
def toRelation (f : Profile) : Relation :=
  .owning "" (f.columns.map fun e => (Column.fresh e.1.1 e.1.2).labeled e.2.trust e.2.plain) f.storage

end Profile

namespace Relation

variable {r s : Relation}

def profile (r : Relation) : Profile := ⟨r.columns.map fun c => (c.header, c.access), r.storage⟩

@[simp] theorem schema_profile : r.profile.schema = r.schema := by
  simp [profile, Profile.schema, schema]

@[simp] theorem accesses_profile : r.profile.accesses = r.accesses := by
  simp [profile, Profile.accesses, accesses]

theorem map_profile_number {name : String} {start : Nat} {cs : List Column} :
    (number name start cs).map (fun c => (c.header, c.access)) = cs.map fun c => (c.header, c.access) := by
  induction cs generalizing start with
  | nil => rfl
  | cons c cs ih => exact congrArg ((c.header, c.access) :: ·) ih

@[simp] theorem profile_renumber : r.renumber.profile = r.profile :=
  congrArg (Profile.mk · r.storage) map_profile_number

theorem number_congr {name : String} {start : Nat} {cs ds : List Column}
    (h : cs.map (fun c => (c.header, c.access)) = ds.map fun c => (c.header, c.access)) :
    number name start cs = number name start ds := by
  induction cs generalizing start ds with
  | nil =>
    cases ds with
    | nil => rfl
    | cons => cases h
  | cons c cs ih =>
    cases ds with
    | nil => cases h
    | cons d ds =>
      obtain ⟨hhead, htail⟩ := List.cons.inj h
      simp only [Column.header, Column.access, Prod.mk.injEq, Access.mk.injEq] at hhead
      rw [number, number, ih htail, hhead.1.1, hhead.1.2, hhead.2.1, hhead.2.2]

theorem renumber_renumber : r.renumber.renumber = r.renumber :=
  congrArg (Relation.mk r.name · r.storage) (number_congr map_profile_number)

theorem profile_toRelation {f : Profile} : f.toRelation.profile = f := by
  rw [Profile.toRelation, owning, profile_renumber, profile, List.map_map]
  exact congrArg (Profile.mk · f.storage) (List.map_id _)

/-- A relation that owns its columns can be told from its name and its profile. -/
theorem eq_of_profile_eq (hname : r.name = s.name) (hprofile : r.profile = s.profile) (hr : r.renumber = r)
    (hs : s.renumber = s) : r = s := by
  have hstorage : r.storage = s.storage := congrArg Profile.storage hprofile
  rw [← hr, ← hs, renumber, renumber, hname, hstorage, number_congr (congrArg Profile.columns hprofile)]

end Relation

namespace Op

variable {ins : List Profile} {op op' : Op} {out out' : Profile} {s : Schema}

/-- The operator applies to inputs of the given profiles and makes `out` of them. -/
structure Makes (ins : List Profile) (op : Op) (out : Profile) : Prop where
  derives : op.Derives (ins.map Profile.schema) out.schema
  place : op.place? (ins.map Profile.storage) = some out.storage
  accesses : out.accesses = op.accesses out.storage.members (ins.map Profile.accesses)

theorem Makes.unique (h : op.Makes ins out) (h' : op.Makes ins out') : out = out' := by
  have hstorage : out.storage = out'.storage := Option.some.inj (h.place.symm.trans h'.place)
  refine Profile.eq_of_schema_eq ?_ ?_ hstorage
  · exact Option.some.inj (h.derives.layout.symm.trans h'.derives.layout)
  · rw [h.accesses, h'.accesses, hstorage]

theorem Makes.of_bare_eq (h : op.Makes ins out) (hop : op.bare = op'.bare) : op'.Makes ins out where
  derives := h.derives.of_bare_eq hop
  place := by
    have hbare (op : Op) : op.bare.place? (ins.map Profile.storage) = op.place? (ins.map Profile.storage) := place?_mapBound
    rw [← hbare, ← hop, hbare, h.place]
  accesses := by
    have hbare (op : Op) : op.bare.accesses out.storage.members (ins.map Profile.accesses) =
        op.accesses out.storage.members (ins.map Profile.accesses) := accesses_mapBound fun _ => Column.bare_index
    rw [← hbare, ← hop, hbare, h.accesses]

end Op

namespace Node

variable {ins : List Relation} {n m : Node}

/-- A node that has been derived has the profile that its operator makes, and owns its columns. -/
theorem makes_of_anew (hnumbered : ∀ r ∈ ins, r.Numbered) (hop : n.op ≠ .create) (run : anew ins n = .ok () m) :
    n.op.Makes (ins.map Relation.profile) m.rel.profile ∧ m.rel.renumber = m.rel := by
  have hderives := derives_of_refresh hnumbered hop run
  obtain ⟨-, st, cols, hst, hcols, rfl⟩ := (run_anew hop).mp run
  have hplace := Op.place?_of_outputStorage? hst
  rw [Op.fill, Op.place?_mapBound] at hplace
  have haccesses := Op.accesses_of_outputColumns? hnumbered hcols
  refine ⟨?_, Relation.renumber_renumber⟩
  rw [Relation.profile_renumber]
  exact {
    derives := by simpa [Function.comp_def] using hderives
    place := by
      rw [List.map_map]
      exact hplace
    accesses := by
      have hmap : Profile.accesses ∘ Relation.profile = Relation.accesses := funext fun _ => Relation.accesses_profile
      rw [List.map_map, hmap, Relation.accesses_profile]
      exact haccesses }

end Node

/-- Where an operator applies it makes a profile. -/
theorem Op.exists_makes {ins : List Profile} {op : Op} {s : Schema} (hins : ins ≠ [])
    (h : op.Derives (ins.map Profile.schema) s) : ∃ out, op.Makes ins out ∧ out.schema = s := by
  have hprofiles : (ins.map Profile.toRelation).map Relation.profile = ins := by
    simp [Function.comp_def, Relation.profile_toRelation]
  have hschemas : (ins.map Profile.toRelation).map Relation.schema = ins.map Profile.schema := by
    simp only [← Relation.schema_profile, List.map_map, Function.comp_def, Relation.profile_toRelation]
  have hnumbered : ∀ r ∈ ins.map Profile.toRelation, r.Numbered := by
    rintro _ hr
    obtain ⟨f, -, rfl⟩ := List.mem_map.mp hr
    exact Relation.numbered_renumber _
  obtain ⟨n, hn⟩ : ∃ n : Node, n.op = op := ⟨⟨0, op, .blank "", .none, ∅, ∅⟩, rfl⟩
  rw [← hn, ← hschemas] at h
  obtain ⟨m, hm, rfl⟩ := Node.exists_refresh hnumbered (by simpa using hins) h
  have hcreate : n.op ≠ .create := fun hc => by
    have := h.layout
    rw [hc] at this
    cases this
  have hmakes := (Node.makes_of_anew hnumbered hcreate hm).1
  rw [hprofiles, hn] at hmakes
  exact ⟨_, hmakes, Relation.schema_profile⟩

end JointPlan
