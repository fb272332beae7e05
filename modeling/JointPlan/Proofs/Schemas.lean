import JointPlan.Proofs.Skeleton

/-!
# Schemas

The names and types of a relation's columns, and the schema that an operator makes of
the schemas it reads. Labels and storage play no part in it: `Op.Derives` depends on
positions alone, so it can be followed through a change of the plan without
running anything. Where it holds a node can be derived, and gets that schema.

Whether an operator applies is up to the types. The names only follow, which is what
lets the inputs of a concatenation be processed one by one.
-/

namespace JointPlan

/-- The columns of a relation by position, each with its name and type. -/
abbrev Schema := List (String × ColumnType)

namespace Schema

def types (s : Schema) : List ColumnType := s.map Prod.snd

@[simp] theorem types_cons {e : String × ColumnType} {s : Schema} : types (e :: s) = e.2 :: types s := rfl

@[simp] theorem types_nil : types [] = [] := rfl

@[simp] theorem types_append {s t : Schema} : types (s ++ t) = types s ++ types t := List.map_append ..

/-- The schema without the positions of `keys`. -/
def without (s : Schema) (keys : List Column) : Schema :=
  (s.zipIdx.filter fun e => !(keys.map Column.index).contains e.2).map Prod.fst

end Schema

theorem Storage.ofMembers_eq {members : PartySet} (h : members ≠ ∅) :
    ofMembers members = .ok (singletons members h) := by
  have hs : (singletons members h).loci = members.toList.map IdSet.singleton := rfl
  rw [ofMembers, ← hs]
  unfold ofLoci
  rw [dif_neg (singletons members h).nonempty, dif_pos (singletons members h).inhabited,
    dif_pos (singletons members h).even]

namespace Column

def header (c : Column) : String × ColumnType := (c.name, c.type)

variable {c : Column} {cs sources groups : List Column} {trust plain members : PartySet}

@[simp] theorem header_labeled : (c.labeled trust plain).header = c.header := rfl

@[simp] theorem header_derived : (c.derived sources).header = c.header := rfl

@[simp] theorem header_loosen : (c.loosen members).header = c.header := rfl

@[simp] theorem header_fresh {name : String} {type : ColumnType} :
    (fresh name type).header = (name, type) := rfl

@[simp] theorem header_aggregated : (Op.aggregated groups sources members c).header = c.header := by
  unfold Op.aggregated
  split <;> rfl

theorem map_header_aggregateColumns : (Op.aggregateColumns groups sources cs members).map header =
    groups.map header ++ cs.map header := by
  simp [Op.aggregateColumns]

end Column

namespace Relation

def schema (r : Relation) : Schema := r.columns.map Column.header

variable {r : Relation}

@[simp] theorem length_schema : r.schema.length = r.columns.length := List.length_map ..

theorem map_header_number {name : String} {start : Nat} {cs : List Column} :
    (number name start cs).map Column.header = cs.map Column.header := by
  induction cs generalizing start with
  | nil => rfl
  | cons c cs ih => exact congrArg (c.header :: ·) ih

@[simp] theorem schema_rename {name : String} : (r.rename name).schema = r.schema := map_header_number

@[simp] theorem schema_renumber : r.renumber.schema = r.schema := map_header_number

theorem Numbered.zipIdx_schema (h : r.Numbered) :
    r.schema.zipIdx = r.columns.map fun c => (c.header, c.index) := by
  refine List.ext_getElem? fun i => ?_
  rw [List.getElem?_zipIdx, schema, List.getElem?_map, List.getElem?_map]
  cases hi : r.columns[i]? with
  | none => rfl
  | some c => simp [h i c hi]

theorem Numbered.without (h : r.Numbered) (keys : List Column) : (r.columns.filter fun c =>
    !(keys.map Column.index).contains c.index).map Column.header = r.schema.without keys := by
  rw [Schema.without, h.zipIdx_schema, List.filter_map, List.map_map]
  rfl

end Relation

@[simp] theorem Operand.column?_mapColumn {f : Column → Column} {o : Operand} :
    (o.mapColumn f).column? = o.column?.map f := by
  cases o <;> rfl

namespace Op

variable {ins : List Relation} {schemas : List Schema} {op op' : Op} {side : Nat} {c : Column} {out s : Schema}

-- ---------------------------------------------------------------------------
-- The schema of an output
-- ---------------------------------------------------------------------------

/-- What stands at the position of `c` in an input. -/
def entryAt? (ins : List Schema) (side : Nat) (c : Column) : Option (String × ColumnType) :=
  ins[side]?.bind fun s => s[c.index]?

def entry (ins : List Schema) (side : Nat) (c : Column) : String × ColumnType :=
  (entryAt? ins side c).getD default

def operandType (ins : List Schema) : Operand → ColumnType
  | .column c => (entry ins 0 c).2
  | .scalar s => s.type

/-- The type of a calculation from left to right. -/
def promoted? (start : ColumnType) (types : List ColumnType) : Option ColumnType :=
  (types.foldlM ColumnType.promote start).toOption

def arithmetic? (base : Schema) (target : Column) (appends : Bool) (types : List ColumnType) :
    Option Schema :=
  if appends then
    match types with
    | [] => none
    | first :: rest => (promoted? first rest).map fun type => base ++ [(target.name, type)]
  else
    base[target.index]?.bind fun prior =>
      (promoted? prior.2 types).map fun type => base.set target.index (prior.1, type)

/-- The schema of the output; `none` where the operator does not apply to the inputs. -/
def layout? (ins : List Schema) (op : Op) : Option Schema :=
  let column := entry ins 0
  match op with
  | .create => none
  | .limit .. | .filterByColumn .. | .filterByScalar .. | .sortBy .. | .collect .. | .opening
  | .closing .. | .store | .read | .persist | .send | .shuffle | .memberFilter .. => ins[0]?
  | .project cs | .distinct cs => some (cs.map column)
  | .arithmetic _ target operands appends =>
    if appends ∧ ∀ o ∈ operands, o.column? = none then none
    else ins[0]?.bind fun base => arithmetic? base target appends (operands.map (operandType ins))
  | .numRows name => some [(name, .integer)]
  | .index name => ins[0]?.map ((name, .integer) :: ·)
  | .count groups name => some (groups.map column ++ [(name, .integer)])
  | .sum groups c name => some (groups.map column ++ [(name, (column c).2)])
  | .mean groups _ name _ | .stdDev groups _ name | .variance groups _ _ _ name =>
    some (groups.map column ++ [(name, .float)])
  | .sumCount groups c sumName countName =>
    some (groups.map column ++ [(sumName, (column c).2), (countName, .integer)])
  | .sumSquaresCount groups c sumName squaresName countName =>
    some (groups.map column ++
      [(sumName, (column c).2), (squaresName, (column c).2), (countName, .integer)])
  | .columnSums groups cs => some (groups.map column ++ cs.map column)
  | .squareRoot name => ins[0]?.bind fun s => s.getLast?.map fun _ => s.dropLast ++ [(name, .float)]
  | .join leftKeys rightKeys =>
    match ins[0]?, ins[1]? with
    | some left, some right =>
      let keys := leftKeys.map column
      if Schema.types keys = Schema.types (rightKeys.map (entry ins 1)) then
        some (keys ++ left.without leftKeys ++ right.without rightKeys)
      else none
    | _, _ => none
  | .columnUnion left right name =>
    if (column left).2 = (entry ins 1 right).2 then some [(name, (column left).2)] else none
  | .concat =>
    match ins with
    | [] => none
    | first :: rest => if ∀ s ∈ rest, first.types = s.types then some first else none

/-- The operator applies to inputs of the given schemas and makes `out` of them. -/
structure Derives (ins : List Schema) (op : Op) (out : Schema) : Prop where
  sides : ∀ side ∈ op.sides, side < ins.length
  bound : ∀ b ∈ op.bound, (entryAt? ins b.1 b.2).isSome
  layout : op.layout? ins = some out
  addressed : ∀ recipients, op = .collect recipients → recipients ≠ ∅

-- ---------------------------------------------------------------------------
-- Positions alone matter
-- ---------------------------------------------------------------------------

theorem entry_congr {d : Column} (h : c.index = d.index) : entry schemas side c = entry schemas side d := by
  rw [entry, entry, entryAt?, entryAt?, h]

theorem without_map {g : Column → Column} (hg : ∀ c, (g c).index = c.index) {cs : List Column} :
    s.without (cs.map g) = s.without cs := by
  have : (cs.map g).map Column.index = cs.map Column.index := by simp [hg, Function.comp_def]
  rw [Schema.without, this, Schema.without]

theorem eq_collect_of_mapBound {f : Nat → Column → Column} {recipients : PartySet}
    (h : op.mapBound f = .collect recipients) : op = .collect recipients := by
  cases op <;> simp_all [Op.mapBound]

section Mapped

variable {f : Nat → Column → Column} (hf : ∀ side c, (f side c).index = c.index)

include hf

theorem entry_comp (side : Nat) : entry schemas side ∘ f side = entry schemas side :=
  funext fun c => entry_congr (hf side c)

theorem operandType_comp : (operandType schemas ∘ fun o => o.mapColumn (f 0)) = operandType schemas := by
  funext o
  cases o with
  | column c => exact congrArg Prod.snd (entry_congr (hf 0 c))
  | scalar s => rfl

theorem layout?_mapBound : (op.mapBound f).layout? schemas = op.layout? schemas := by
  have hentry (side : Nat) (c : Column) : entry schemas side (f side c) = entry schemas side c :=
    entry_congr (hf side c)
  cases op
  case arithmetic fn target operands appends =>
    cases appends <;> simp [mapBound, layout?, arithmetic?, List.map_map, operandType_comp hf, hf]
  all_goals simp [mapBound, layout?, List.map_map, entry_comp hf, hentry, without_map (hf _)]

theorem derives_mapBound : (op.mapBound f).Derives schemas out ↔ op.Derives schemas out := by
  have hbound : (∀ b ∈ (op.mapBound f).bound, (entryAt? schemas b.1 b.2).isSome) ↔
      ∀ b ∈ op.bound, (entryAt? schemas b.1 b.2).isSome := by
    simp only [bound_mapBound, List.forall_mem_map, entryAt?, hf]
  constructor
  · intro h
    refine ⟨by simpa using h.sides, hbound.mp h.bound, (layout?_mapBound hf).symm.trans h.layout, ?_⟩
    rintro recipients rfl
    exact h.addressed recipients rfl
  · intro h
    exact ⟨by simpa using h.sides, hbound.mpr h.bound, (layout?_mapBound hf).trans h.layout,
      fun recipients hop => h.addressed recipients (eq_collect_of_mapBound hop)⟩

end Mapped

theorem Derives.of_bare_eq (h : op.Derives schemas out) (hop : op.bare = op'.bare) :
    op'.Derives schemas out := by
  have hbare (op : Op) : op.bare.Derives schemas out ↔ op.Derives schemas out :=
    derives_mapBound fun _ => Column.bare_index
  rw [← hbare, ← hop, hbare]
  exact h

-- ---------------------------------------------------------------------------
-- What an operator computes
-- ---------------------------------------------------------------------------

theorem entryAt?_schema : entryAt? (ins.map Relation.schema) side c =
    (columnIn? ins side c).map Column.header := by
  rw [entryAt?, columnIn?, List.getElem?_map]
  cases ins[side]? <;> simp [Relation.schema]

theorem header_found : (found ins side c).header = entry (ins.map Relation.schema) side c := by
  rw [entry, entryAt?_schema, found]
  cases columnIn? ins side c <;> rfl

theorem map_header_found {cs : List Column} : (cs.map (found ins side)).map Column.header =
    cs.map (entry (ins.map Relation.schema) side) := by
  simp [header_found]

theorem type_found : (found ins side c).type = (entry (ins.map Relation.schema) side c).2 :=
  congrArg Prod.snd header_found

theorem promoteAll_eq {start : ColumnType} {operands : List Operand} :
    promoteAll start operands = (operands.map Operand.type).foldlM ColumnType.promote start :=
  List.foldlM_map.symm

/-- The schema of columns that have been computed. -/
def headers? : Except Fault (Option (List Column)) → Option Schema
  | .ok (some cols) => some (cols.map Column.header)
  | _ => none

section Headers

variable {kind : String}

theorem headers?_ok {cols : List Column} : headers? (.ok (some cols)) = some (cols.map Column.header) := rfl

theorem headers?_eq_some {columns : Except Fault (Option (List Column))} :
    headers? columns = some s ↔ ∃ cols, columns = .ok (some cols) ∧ cols.map Column.header = s := by
  rcases columns with fault | _ | cols <;> simp [headers?]

theorem headers?_none : headers? (.ok none) = none := rfl

theorem headers?_bind_input {f : Relation → Except Fault (Option (List Column))} :
    headers? (input ins side kind >>= f) = ins[side]?.bind fun r => headers? (f r) := by
  unfold input
  cases ins[side]? <;> rfl

theorem headers?_bind_columns {f : List Column → Except Fault (Option (List Column))} :
    headers? ((Relation.columns <$> input ins side kind) >>= f) =
      ins[side]?.bind fun r => headers? (f r.columns) := by
  unfold input
  cases ins[side]? <;> rfl

theorem headers?_map_input {f : Relation → Option (List Column)} :
    headers? (f <$> input ins side kind) = ins[side]?.bind fun r => headers? (.ok (f r)) := by
  unfold input
  cases ins[side]? <;> rfl

end Headers

theorem headers?_arithmeticColumns {rel : Relation} {target : Column} {operands : List Operand}
    {appends : Bool} : headers? (some <$> arithmeticColumns rel target operands appends) =
      if appends ∧ ∀ o ∈ operands, o.column? = none then none
      else arithmetic? rel.schema target appends (operands.map Operand.type) := by
  have hpromoted {start : ColumnType} {os : List Operand} {f : ColumnType → List Column} :
      headers? (some <$> (promoteAll start os >>= fun type => pure (f type))) =
        (promoted? start (os.map Operand.type)).map fun type => (f type).map Column.header := by
    rw [promoteAll_eq, promoted?]
    cases (os.map Operand.type).foldlM ColumnType.promote start <;> rfl
  cases appends with
  | true =>
    cases operands with
    | nil => rfl
    | cons first rest =>
      have hempty : (List.filterMap Operand.column? (first :: rest)).isEmpty = true ↔
          ∀ o ∈ first :: rest, o.column? = none := by simp
      by_cases hs : ∀ o ∈ first :: rest, o.column? = none
      · rw [if_pos ⟨rfl, hs⟩, arithmeticColumns, if_pos rfl, if_pos (hempty.mpr hs)]
        rfl
      · rw [if_neg (fun h => hs h.2), arithmeticColumns, if_pos rfl, if_neg (mt hempty.mp hs), hpromoted]
        simp [arithmetic?, Relation.schema, Column.header, Column.derived, Column.labeled]
  | false =>
    unfold arithmeticColumns arithmetic? Relation.columnAt
    rw [if_neg (by simp), if_neg (by simp), if_neg (by simp), Relation.schema, List.getElem?_map]
    cases rel.columns[target.index]? with
    | none => rfl
    | some prior => exact hpromoted.trans (by simp [Column.header, List.map_set]; rfl)

theorem types_eq_iff {l r : List Column} : Schema.types (l.map Column.header) = Schema.types (r.map Column.header) ↔
    l.length = r.length ∧ ∀ e ∈ l.zip r, e.1.type = e.2.type := by
  induction l generalizing r with
  | nil => cases r <;> simp [Schema.types]
  | cons c l ih =>
    cases r with
    | nil => simp [Schema.types]
    | cons d r =>
      have ih := ih (r := r)
      simp only [Schema.types, List.map_map] at ih
      simp [Schema.types, Column.header, ih, and_left_comm]

/-- One key of a join. -/
def joinKey (fault : Column × Column → Fault) (e : Column × Column) : Except Fault Column :=
  if e.1.type = e.2.type then .ok (e.1.derived [e.1, e.2]) else .error (fault e)

theorem mapM_joinKey {fault : Column × Column → Fault} {l : List (Column × Column)} {ds : List Column} :
    l.mapM (joinKey fault) = .ok ds ↔
      (∀ e ∈ l, e.1.type = e.2.type) ∧ l.map (fun e => e.1.derived [e.1, e.2]) = ds := by
  induction l generalizing ds with
  | nil => simp [pure_eq_ok]
  | cons e l ih =>
    rw [List.mapM_cons]
    by_cases he : e.1.type = e.2.type
    · simp only [bind_eq_ok, pure_eq_ok, joinKey, if_pos he, ih]
      simp [he]
    · simp [bind_eq_ok, joinKey, he]

theorem headers?_joinColumns {left right : Relation} {leftKeys rightKeys : List Column}
    (hleft : left.Numbered) (hright : right.Numbered) :
    headers? (some <$> joinColumns left right leftKeys rightKeys) =
      if Schema.types (leftKeys.map Column.header) = Schema.types (rightKeys.map Column.header) then
        some (leftKeys.map Column.header ++ left.schema.without leftKeys ++ right.schema.without rightKeys)
      else none := by
  simp only [types_eq_iff]
  unfold joinColumns
  by_cases hlength : leftKeys.length = rightKeys.length
  · rw [if_neg (not_not.mpr hlength)]
    change headers? (some <$> ((leftKeys.zip rightKeys).mapM (joinKey _) >>= _)) = _
    cases hkeys : (leftKeys.zip rightKeys).mapM (joinKey _) with
    | error fault =>
      have hne : ¬ ∀ e ∈ leftKeys.zip rightKeys, e.1.type = e.2.type := fun h => by
        cases hkeys.symm.trans (mapM_joinKey.mpr ⟨h, rfl⟩)
      rw [if_neg fun h => hne h.2]
      rfl
    | ok ds =>
      obtain ⟨heq, rfl⟩ := mapM_joinKey.mp hkeys
      have hheaders : ((leftKeys.zip rightKeys).map fun e => e.1.derived [e.1, e.2]).map Column.header =
          leftKeys.map Column.header := by
        have hfst := congrArg (List.map Column.header) (List.map_fst_zip hlength.le)
        rwa [List.map_map] at hfst ⊢
      rw [if_pos ⟨hlength, heq⟩, ← hleft.without, ← hright.without, ← hheaders, ← List.map_append, ← List.map_append]
      rfl
  · rw [if_pos hlength, if_neg fun h => hlength h.1]
    rfl

theorem checkConcat_eq_ok {first : Relation} {rest : List Relation} : checkConcat first rest = .ok () ↔
    ∀ r ∈ rest, first.schema.types = r.schema.types := by
  induction rest with
  | nil => simp [checkConcat]
  | cons r rest ih =>
    rw [List.forall_mem_cons, ← ih, Relation.schema, Relation.schema, types_eq_iff]
    conv_lhs => unfold checkConcat
    by_cases hlength : r.columns.length = first.columns.length
    · rw [if_neg (not_not.mpr hlength)]
      split <;> rename_i hfind
      · have hmem := List.mem_of_find?_eq_some hfind
        have hne := List.find?_some hfind
        refine iff_of_false (by simp) fun h => ?_
        exact of_decide_eq_true hne (h.1.2 _ hmem)
      · simp only [List.find?_eq_none, decide_eq_true_eq, not_not] at hfind
        exact (and_iff_right ⟨hlength.symm, hfind⟩).symm
    · rw [if_pos hlength]
      exact iff_of_false (by simp [bind_eq_ok]) fun h => hlength h.1.1.symm

theorem headers?_concatColumns : headers? (some <$> concatColumns ins) =
    concat.layout? (ins.map Relation.schema) := by
  cases ins with
  | nil => rfl
  | cons first rest =>
    simp only [List.map_cons, layout?, List.forall_mem_map, ← checkConcat_eq_ok]
    simp only [concatColumns]
    cases hcheck : checkConcat first rest with
    | error fault =>
      rw [if_neg (by simp)]
      rfl
    | ok u =>
      rw [if_pos rfl]
      refine congrArg some (List.ext_getElem? fun i => ?_)
      simp [Relation.schema, Function.comp_def]

theorem headers?_outputColumns? (op : Op) (hins : ∀ r ∈ ins, r.Numbered) (members : PartySet) :
    headers? ((op.fill ins).outputColumns? ins members) = op.layout? (ins.map Relation.schema) := by
  cases op
  case arithmetic fn target operands appends =>
    have htypes : (operands.map fun o => o.mapColumn (found ins 0)).map Operand.type =
        operands.map (operandType (ins.map Relation.schema)) := by
      rw [List.map_map]
      refine List.map_congr_left fun o _ => ?_
      cases o with
      | column c => exact type_found
      | scalar s => rfl
    simp only [fill, Op.mapBound, outputColumns?, layout?]
    simp only [headers?_bind_input, bind_pure_comp, headers?_arithmeticColumns, htypes, List.getElem?_map]
    cases ins[0]? <;> cases appends <;> simp [arithmetic?, found_index hins]
  case join leftKeys rightKeys =>
    simp only [fill, Op.mapBound, outputColumns?, layout?, headers?_bind_input, bind_pure_comp,
      List.getElem?_map]
    cases hleft : ins[0]? with
    | none => rfl
    | some left =>
      cases hright : ins[1]? with
      | none => rfl
      | some right =>
        simp only [Option.bind_some, Option.map_some, headers?_joinColumns (hins _ (List.mem_of_getElem? hleft))
          (hins _ (List.mem_of_getElem? hright)), map_header_found, without_map fun _ => found_index hins]
  case concat => exact headers?_concatColumns
  case squareRoot name =>
    simp only [fill, Op.mapBound, outputColumns?, layout?, headers?_bind_columns, List.getElem?_map]
    cases ins[0]? with
    | none => rfl
    | some r =>
      simp only [Option.map_some, Option.bind_some, Relation.schema, List.getLast?_map]
      cases r.columns.getLast? with
      | none => rfl
      | some last => simp [headers?, Column.header, pure, Except.pure, List.map_dropLast]
  case columnUnion left right name =>
    simp only [fill, Op.mapBound, outputColumns?, layout?, type_found]
    split <;> simp [headers?, Column.header, type_found, Column.derived, Column.labeled]
  all_goals
    simp [fill, Op.mapBound, outputColumns?, layout?, headers?_ok, headers?_none, headers?_map_input,
      Column.map_header_aggregateColumns, header_found, type_found, Function.comp_def, Relation.schema,
      Option.map_eq_bind, Option.bind_assoc]

-- ---------------------------------------------------------------------------
-- Deriving a node
-- ---------------------------------------------------------------------------

theorem binds_iff : op.Binds ins ↔ (∀ side ∈ op.sides, side < (ins.map Relation.schema).length) ∧
    ∀ b ∈ op.bound, (entryAt? (ins.map Relation.schema) b.1 b.2).isSome := by
  simp only [Binds, entryAt?_schema, Option.isSome_map, List.length_map]

theorem exists_outputStorage? (op : Op) (hins : ins ≠ []) (h : ∀ recipients, op = .collect recipients → recipients ≠ ∅) :
    ∃ st?, op.outputStorage? ins = .ok st? := by
  obtain ⟨first, rest, rfl⟩ := List.exists_cons_of_ne_nil hins
  cases op
  case collect recipients =>
    exact ⟨_, congrArg (some <$> ·) (Storage.ofMembers_eq (h recipients rfl))⟩
  all_goals exact ⟨_, rfl⟩

/-- Wider inputs take up the same parameters. -/
theorem Derives.binds (h : op.Derives schemas out)
    (hwide : List.Forall₂ (fun s r => s.length ≤ (r : Relation).columns.length) schemas ins) : op.Binds ins := by
  refine binds_iff.mpr ⟨?_, fun b hb => ?_⟩
  · rw [List.length_map, ← hwide.length_eq]
    exact h.sides
  · obtain ⟨s, hs, hlt⟩ : ∃ s, schemas[b.1]? = some s ∧ b.2.index < s.length := by
      simpa [entryAt?, Option.isSome_bind, Option.any_eq_true] using h.bound b hb
    obtain ⟨hi, rfl⟩ := List.getElem?_eq_some_iff.mp hs
    have hi' : b.1 < ins.length := hwide.length_eq ▸ hi
    have hle := hwide.get hi hi'
    rw [entryAt?_schema, columnIn?, List.getElem?_eq_getElem hi']
    simpa using hlt.trans_le hle

section Types

theorem entry_snd : (entry [s] 0 c).2 = (s.types[c.index]?).getD default := by
  simp only [entry, entryAt?, Schema.types, List.getElem?_cons_zero, Option.bind_some, List.getElem?_map]
  cases s[c.index]? <;> rfl

theorem types_map_entry {cs : List Column} : Schema.types (cs.map (entry [s] 0)) =
    cs.map fun c => (s.types[c.index]?).getD default := by
  simp [Schema.types, entry_snd]

theorem types_arithmetic? {s' : Schema} {target : Column} {appends : Bool} {types : List ColumnType}
    (hs : s'.types = s.types) : (arithmetic? s' target appends types).map Schema.types =
      (arithmetic? s target appends types).map Schema.types := by
  unfold arithmetic?
  split
  · cases types with
    | nil => rfl
    | cons first rest => simp [Function.comp_def, hs]
  · have hset {t : Schema} {name : String} {type : ColumnType} :
        Schema.types (t.set target.index (name, type)) = t.types.set target.index type := List.map_set
    have hprior : s'[target.index]?.map Prod.snd = s[target.index]?.map Prod.snd := by
      rw [← List.getElem?_map, ← List.getElem?_map]
      exact congrArg (·[target.index]?) hs
    cases hold : s[target.index]? <;> cases hnew : s'[target.index]? <;> rw [hold, hnew] at hprior
    · rfl
    · cases hprior
    · cases hprior
    · simp [Function.comp_def, hset, hs, Option.some.inj hprior]

/-- Whether a unary operator applies and what types it yields is up to the types it reads. -/
theorem types_layout? {s' : Schema} (hop : op.arity = .unary) (hs : s'.types = s.types) :
    (op.layout? [s']).map Schema.types = (op.layout? [s]).map Schema.types := by
  have hoperand : operandType [s'] = operandType [s] := by
    funext o
    cases o with
    | column c => simp only [operandType, entry_snd, hs]
    | scalar s => rfl
  have hlength : s'.length = s.length := by simpa [Schema.types] using congrArg List.length hs
  cases op
  case create | join | memberFilter | columnUnion | concat => cases hop
  case arithmetic fn target operands appends =>
    simp only [layout?, hoperand]
    split
    · rfl
    · exact types_arithmetic? hs
  case squareRoot name =>
    have hdrop : Schema.types s'.dropLast = Schema.types s.dropLast := by
      rw [Schema.types, List.map_dropLast, Schema.types, List.map_dropLast]
      exact congrArg List.dropLast hs
    rcases s.eq_nil_or_concat with rfl | ⟨t, e, rfl⟩ <;> rcases s'.eq_nil_or_concat with rfl | ⟨t', e', rfl⟩
    · rfl
    · simp at hlength
    · simp at hlength
    · simpa [layout?] using hdrop
  all_goals simp [layout?, types_map_entry, hs, entry_snd]

theorem Derives.of_types {s' : Schema} (h : op.Derives [s] out) (hop : op.arity = .unary)
    (hs : s'.types = s.types) : ∃ out', op.Derives [s'] out' ∧ Schema.types out' = out.types := by
  have hlayout := types_layout? hop hs
  rw [h.layout, Option.map_some] at hlayout
  obtain ⟨out', hout', htypes⟩ := Option.map_eq_some_iff.mp hlayout
  refine ⟨out', ⟨h.sides, ?_, hout', h.addressed⟩, htypes⟩
  have hlength : s'.length = s.length := by simpa [Schema.types] using congrArg List.length hs
  rintro ⟨side, c⟩ hb
  have hbound := h.bound _ hb
  cases side <;> simp_all [entryAt?]

end Types

/-- What follows a concatenation can be done on each of its inputs instead. -/
theorem exists_derives_each (hconcat : concat.Derives schemas s)
    (hop : op.Derives [s] out) (harity : op.arity = .unary) :
    ∃ outs, List.Forall₂ (fun s out => op.Derives [s] out) schemas outs ∧ concat.Derives outs out := by
  have hlayout := hconcat.layout
  cases schemas with
  | nil => cases hlayout
  | cons first rest =>
    simp only [layout?, Option.ite_none_right_eq_some, Option.some.injEq] at hlayout
    obtain ⟨htypes, rfl⟩ := hlayout
    have heach : ∀ s ∈ rest, ∃ out', op.Derives [s] out' ∧ Schema.types out' = out.types :=
      fun s hs => hop.of_types harity (htypes s hs).symm
    obtain ⟨outs, houts⟩ := exists_forall₂ heach
    refine ⟨out :: outs, .cons hop (houts.imp fun _ _ h => h.1), by simp [sides], by simp [bound], ?_, by simp⟩
    have hsame : ∀ s ∈ outs, Schema.types out = s.types := by
      clear htypes heach hconcat
      induction houts with
      | nil => simp
      | cons h _ ih => exact List.forall_mem_cons.mpr ⟨h.2.symm, ih⟩
    exact if_pos hsame

/-- The operators at the border hand on what they read. -/
theorem derives_of_isBoundary (h : op.isBoundary = true) : op.Derives [s] s := by
  cases op <;> first | cases h; done | exact ⟨by simp [sides], by simp [bound], rfl, by simp⟩

end Op

namespace Node

variable {ins : List Relation} {n m : Node} {schemas : List Schema} {s : Schema}

/-- A node can be derived where its operator applies, and gets the schema that it yields. -/
theorem exists_refresh (hnumbered : ∀ r ∈ ins, r.Numbered) (hins : ins ≠ [])
    (h : n.op.Derives (ins.map Relation.schema) s) :
    ∃ m, (do Node.rebind ins; Node.restore ins; Node.recolumn ins : NodeEdit Unit) n = .ok () m ∧
      m.rel.schema = s := by
  obtain ⟨st?, hst⟩ := (n.op.fill ins).exists_outputStorage? hins fun recipients hop =>
    h.addressed recipients (Op.eq_collect_of_mapBound hop)
  have hheaders := (Op.headers?_outputColumns? _ hnumbered (st?.getD n.rel.storage).members).trans h.layout
  obtain ⟨cols, hcols, rfl⟩ := Op.headers?_eq_some.mp hheaders
  exact ⟨_, run_refresh.mpr ⟨Op.binds_iff.mpr ⟨h.sides, h.bound⟩, st?, some cols, hst, hcols, rfl⟩,
    Relation.schema_renumber⟩

/-- The parameters and the storage can be derived where the inputs are wide enough. -/
theorem exists_refreshStorage (hins : ins ≠ []) (h : n.op.Derives schemas s)
    (hwide : List.Forall₂ (fun s r => s.length ≤ (r : Relation).columns.length) schemas ins) :
    ∃ m, (do Node.rebind ins; Node.restore ins : NodeEdit Unit) n = .ok () m ∧
      m.rel.schema = n.rel.schema := by
  obtain ⟨st?, hst⟩ := (n.op.fill ins).exists_outputStorage? hins fun recipients hop =>
    h.addressed recipients (Op.eq_collect_of_mapBound hop)
  exact ⟨_, run_refreshStorage.mpr ⟨h.binds hwide, st?, hst, rfl⟩, rfl⟩

/-- A node that has been derived has the schema that its operator yields. -/
theorem derives_of_refresh (hnumbered : ∀ r ∈ ins, r.Numbered) (hop : n.op ≠ .create)
    (run : (do Node.rebind ins; Node.restore ins; Node.recolumn ins : NodeEdit Unit) n = .ok () m) :
    n.op.Derives (ins.map Relation.schema) m.rel.schema := by
  obtain ⟨hbinds, st?, cols?, hst, hcols, rfl⟩ := run_refresh.mp run
  obtain ⟨hsides, hbound⟩ := Op.binds_iff.mp hbinds
  have hlayout := (n.op.headers?_outputColumns? hnumbered (st?.getD n.rel.storage).members).symm
  rw [hcols] at hlayout
  cases cols? with
  | none => exact absurd (Op.eq_create_of_mapBound (Op.eq_create_of_outputColumns? hcols)) hop
  | some cols =>
    refine ⟨hsides, hbound, hlayout.trans ?_, fun recipients hcollect => ?_⟩
    · exact congrArg some Relation.map_header_number.symm
    · rintro rfl
      rw [hcollect] at hst
      cases hst

end Node

end JointPlan
