import JointPlan.Proofs.Compiling
import JointPlan.Proofs.Lineage

/-!
# Inherited labels

Where an operator applies, every source of a column of its output is a column of an input, and a
column is without sources only if it does not depend on single rows. So the labels of a node that
has been derived are known: a column is open to those to whom all its sources are, and a column
without sources to all parties that store it. Opening a relation adds the parties that store it to
every column, and no other operator adds anyone.
-/

namespace JointPlan

namespace Op

variable {ins : List Schema} {op : Op} {out : Schema} {widths : List Nat} {sources : List Source} {groups cs : List Column}
  {lists : List (List Column)} {i side : Nat}

-- ---------------------------------------------------------------------------
-- Columns without sources
-- ---------------------------------------------------------------------------

/-- What an operator groups by, and what it computes each result from. -/
def grouping? : Op → Option (List Column × List (List Column))
  | .count groups _ => some (groups, [[]])
  | .numRows _ => some ([], [[]])
  | .sum groups c _ | .stdDev groups c _ => some (groups, [[c]])
  | .mean groups c _ weight => some (groups, [c :: weight.toList])
  | .sumCount groups c _ _ => some (groups, [[c], [c]])
  | .sumSquaresCount groups c _ _ _ => some (groups, [[c], [c], [c]])
  | .variance groups total squares size _ => some (groups, [[total, squares, size]])
  | .columnSums groups cs => some (groups, cs.map fun c => [c])
  | _ => none

theorem lineage_of_grouping? (h : op.grouping? = some (groups, lists)) : op.lineage widths = perGroup groups lists := by
  cases op <;> cases h <;> rfl

theorem bound_of_grouping? (h : op.grouping? = some (groups, lists)) :
    ∀ c ∈ groups ++ lists.flatten, (0, c) ∈ op.bound := by
  cases op <;> cases h <;> simp [bound]

/-- The column at position `i` of the output does not depend on single rows: it is a result that is not
grouped, such as the number of rows, or it holds the numbers of the rows. -/
def Detached (op : Op) (i : Nat) : Prop :=
  (∃ lists, op.grouping? = some ([], lists)) ∨ ∃ name, op = .index name ∧ i = 0

theorem Detached.ne_opening (h : op.Detached i) : op ≠ .opening := by
  rintro rfl
  obtain ⟨_, h⟩ | ⟨_, h, -⟩ := h <;> cases h

-- ---------------------------------------------------------------------------
-- Columns with sources
-- ---------------------------------------------------------------------------

/-- There are sources, and all of them are there. -/
def Backed (widths : List Nat) (sources : List Source) : Prop :=
  sources ≠ [] ∧ ∀ s ∈ sources, s.2 < widths[s.1]?.getD 0

theorem backed_singleton {s : Source} : Backed widths [s] ↔ s.2 < widths[s.1]?.getD 0 := by
  simp [Backed]

theorem backed_pair {s t : Source} (hs : s.2 < widths[s.1]?.getD 0) (ht : t.2 < widths[t.1]?.getD 0) : Backed widths [s, t] :=
  ⟨by simp, by simp [hs, ht]⟩

theorem backed_through (h : sources ∈ through widths side) : Backed widths sources := by
  obtain ⟨i, hi, rfl⟩ := List.mem_map.mp h
  exact backed_singleton.mpr (List.mem_range.mp hi)

theorem backed_besides (h : sources ∈ besides widths side cs) : Backed widths sources := by
  obtain ⟨i, hi, rfl⟩ := List.mem_map.mp h
  exact backed_singleton.mpr (List.mem_range.mp (List.mem_of_mem_filter hi))

theorem backed_drawn (hne : cs ≠ []) (h : ∀ c ∈ cs, c.index < widths[0]?.getD 0) : Backed widths (drawn cs) := by
  refine ⟨by simpa [drawn] using hne, fun s hs => ?_⟩
  obtain ⟨c, hc, rfl⟩ := List.mem_map.mp hs
  exact h c hc

theorem backed_columns (h : ∀ c ∈ cs, c.index < widths[0]?.getD 0)
    (hmem : sources ∈ cs.map fun c => [((0 : Nat), c.index)]) : Backed widths sources := by
  obtain ⟨c, hc, rfl⟩ := List.mem_map.mp hmem
  exact backed_singleton.mpr (h c hc)

theorem backed_perGroup (hgroups : groups ≠ []) (h : ∀ c ∈ groups ++ lists.flatten, c.index < widths[0]?.getD 0)
    (hmem : sources ∈ perGroup groups lists) : Backed widths sources := by
  obtain hmem | hmem := List.mem_append.mp hmem
  · exact backed_columns (fun c hc => h c (List.mem_append_left _ hc)) hmem
  · obtain ⟨cs, hcs, rfl⟩ := List.mem_map.mp hmem
    rw [if_neg (by simpa using hgroups)]
    refine backed_drawn (by simp [hgroups]) fun c hc => h c ?_
    obtain hc | hc := List.mem_append.mp hc
    · exact List.mem_append_left _ hc
    · exact List.mem_append_right _ (List.mem_flatten_of_mem hcs hc)

namespace Derives

/-- The columns that an operator is bound to are there. -/
theorem index_lt (h : op.Derives ins out) {c : Column} (hc : (side, c) ∈ op.bound) :
    c.index < (ins.map List.length)[side]?.getD 0 := by
  have hsome := h.bound _ hc
  rw [entryAt?] at hsome
  cases hs : ins[side]? with
  | none => simp [hs] at hsome
  | some s => simpa [hs] using hsome

theorem width_eq (h : concat.Derives ins out) {s : Schema} (hs : s ∈ ins) : s.length = out.length := by
  have hlayout := h.layout
  cases ins with
  | nil => cases hlayout
  | cons first rest =>
    simp only [layout?, Option.ite_none_right_eq_some, Option.some.injEq] at hlayout
    obtain ⟨htypes, rfl⟩ := hlayout
    obtain rfl | hs := List.mem_cons.mp hs
    · rfl
    · simpa [Schema.types] using (congrArg List.length (htypes s hs)).symm

theorem backed_arithmetic {fn : Arithmetic} {target : Column} {operands : List Operand} {appends : Bool}
    (h : (arithmetic fn target operands appends).Derives ins out)
    (hmem : sources ∈ (arithmetic fn target operands appends).lineage (ins.map List.length)) :
    Backed (ins.map List.length) sources := by
  have hbound : ∀ c ∈ operands.filterMap Operand.column?, c.index < (ins.map List.length)[0]?.getD 0 := fun c hc =>
    h.index_lt (List.mem_append_right _ (List.mem_map_of_mem hc))
  cases appends with
  | true =>
    obtain hmem | hmem := List.mem_append.mp hmem
    · exact backed_through hmem
    · rw [List.mem_singleton.mp hmem]
      refine backed_drawn (fun hnil => ?_) hbound
      have hlayout := h.layout
      rw [layout?, if_pos ⟨rfl, List.filterMap_eq_nil_iff.mp hnil⟩] at hlayout
      cases hlayout
  | false =>
    obtain hmem | rfl := List.mem_or_eq_of_mem_set hmem
    · exact backed_through hmem
    · have htarget : target.index < (ins.map List.length)[0]?.getD 0 := h.index_lt (by simp [Op.bound])
      have hdrawn : drawn (operands.filterMap Operand.column?) ++ [(0, target.index)] =
          drawn (operands.filterMap Operand.column? ++ [target]) := by simp [drawn]
      rw [hdrawn]
      exact backed_drawn (by simp) (List.forall_mem_append.mpr ⟨hbound, List.forall_mem_singleton.mpr htarget⟩)

theorem backed_join {leftKeys rightKeys : List Column} (h : (join leftKeys rightKeys).Derives ins out)
    (hmem : sources ∈ (join leftKeys rightKeys).lineage (ins.map List.length)) : Backed (ins.map List.length) sources := by
  obtain hmem | hmem := List.mem_append.mp hmem
  · obtain hmem | hmem := List.mem_append.mp hmem
    · obtain ⟨⟨l, r⟩, he, rfl⟩ := List.mem_map.mp hmem
      have hl := h.index_lt (List.mem_append_left _ (List.mem_map_of_mem (List.of_mem_zip he).1))
      have hr := h.index_lt (List.mem_append_right _ (List.mem_map_of_mem (List.of_mem_zip he).2))
      exact backed_pair hl hr
    · exact backed_besides hmem
  · exact backed_besides hmem

theorem backed_concat (h : concat.Derives ins out) (hmem : sources ∈ concat.lineage (ins.map List.length)) :
    Backed (ins.map List.length) sources := by
  obtain ⟨i, hi, rfl⟩ := List.mem_map.mp hmem
  have hi := List.mem_range.mp hi
  obtain ⟨first, hfirst⟩ : ∃ first, ins[0]? = some first := by
    cases ins with
    | nil => simp at hi
    | cons first rest => exact ⟨first, rfl⟩
  have hwidth : i < out.length := by simpa [hfirst, h.width_eq (List.mem_of_getElem? hfirst)] using hi
  refine ⟨?_, fun s hs => ?_⟩
  · have hne : ins ≠ [] := List.ne_nil_of_mem (List.mem_of_getElem? hfirst)
    simpa using hne
  · obtain ⟨side, hside, rfl⟩ := List.mem_map.mp hs
    have hside : side < ins.length := by simpa using hside
    simpa [hside, h.width_eq (List.getElem_mem hside)] using hwidth

/-- A column of the output either has sources, all of which are there, or has none and does not
depend on single rows. -/
theorem backed (h : op.Derives ins out) (hi : (op.lineage (ins.map List.length))[i]? = some sources) :
    op.Detached i ∧ sources = [] ∨ ¬ op.Detached i ∧ Backed (ins.map List.length) sources := by
  have hmem := List.mem_of_getElem? hi
  cases hg : op.grouping? with
  | some grouping =>
    obtain ⟨groups, lists⟩ := grouping
    rw [lineage_of_grouping? hg] at hmem
    by_cases hgroups : groups = []
    · subst hgroups
      obtain ⟨_, -, rfl⟩ := List.mem_map.mp hmem
      exact .inl ⟨.inl ⟨lists, hg⟩, rfl⟩
    · refine .inr ⟨?_, backed_perGroup hgroups (fun c hc => h.index_lt (bound_of_grouping? hg c hc)) hmem⟩
      rintro (⟨_, hnone⟩ | ⟨name, rfl, -⟩)
      · cases hg.symm.trans hnone
        exact hgroups rfl
      · cases hg
  | none =>
    -- The numbers of the rows are all that is left without sources.
    cases op
    case count | numRows | sum | mean | stdDev | sumCount | sumSquaresCount | variance | columnSums => cases hg
    case index name =>
      cases i with
      | zero => exact .inl ⟨.inr ⟨name, rfl, rfl⟩, (Option.some.inj hi).symm⟩
      | succ i => exact .inr ⟨by simp [Detached, grouping?], backed_through (List.mem_of_getElem? (i := i) hi)⟩
    all_goals refine .inr ⟨by simp [Detached, grouping?], ?_⟩
    case create => cases hmem
    case project | distinct => exact backed_columns (fun c hc => h.index_lt (List.mem_map_of_mem hc)) hmem
    case arithmetic => exact h.backed_arithmetic hmem
    case join => exact h.backed_join hmem
    case concat => exact h.backed_concat hmem
    case memberFilter c member isIn =>
      obtain ⟨j, hj, rfl⟩ := List.mem_map.mp hmem
      exact backed_pair (List.mem_range.mp hj) (h.index_lt (c := member) (by simp [Op.bound]))
    case columnUnion left right name =>
      rw [List.mem_singleton.mp hmem]
      exact backed_pair (h.index_lt (c := left) (by simp [Op.bound])) (h.index_lt (c := right) (by simp [Op.bound]))
    all_goals exact backed_through hmem

end Derives

-- ---------------------------------------------------------------------------
-- Labels
-- ---------------------------------------------------------------------------

/-- The column of an input that a source stands for. -/
def source? (ins : List Relation) (s : Source) : Option Column := ins[s.1]?.bind fun r => r.columns[s.2]?

theorem accessAt_of_source? {rels : List Relation} {s : Source} {c : Column} (h : source? rels s = some c) :
    accessAt (rels.map Relation.accesses) s = c.access := by
  obtain ⟨r, hr, hc⟩ := Option.bind_eq_some_iff.mp h
  exact accessAt_of_getElem? hr hc

theorem Backed.exists_source? {rels : List Relation} (h : Backed (rels.map fun r => r.columns.length) sources) :
    ∃ ds, List.Forall₂ (fun s d => source? rels s = some d) sources ds := by
  apply exists_forall₂
  intro s hs
  have hlt := h.2 s hs
  rw [List.getElem?_map] at hlt
  cases hr : rels[s.1]? with
  | none => simp [hr] at hlt
  | some r =>
    have hlt : s.2 < r.columns.length := by simpa [hr] using hlt
    exact ⟨r.columns[s.2], by simp [source?, hr, hlt]⟩

/-- A column is open to those to whom all its sources are, and to those to whom its relation is opened. -/
theorem getElem?_accesses {members : PartySet} {l : List (List Access)} : (op.accesses members l)[i]? =
    (op.lineage (l.map List.length))[i]?.map fun sources =>
      if op = .opening then (accessOf members l sources).loosen members else accessOf members l sources := by
  cases op <;> simp [accesses, Function.comp_def]

theorem accesses_of_ne_opening (h : op ≠ .opening) {members : PartySet} {l : List (List Access)} :
    op.accesses members l = (op.lineage (l.map List.length)).map (accessOf members l) := by
  cases op
  case opening => exact absurd rfl h
  all_goals rfl

theorem length_accesses {members : PartySet} {l : List (List Access)} :
    (op.accesses members l).length = (op.lineage (l.map List.length)).length := by
  cases op <;> simp [accesses]

theorem accessOf_of_source? {members : PartySet} {rels : List Relation} {ds : List Column} (hne : sources ≠ [])
    (h : List.Forall₂ (fun s d => source? rels s = some d) sources ds) :
    accessOf members (rels.map Relation.accesses) sources = .shared (ds.map Column.access) := by
  have heach : List.Forall₂ (· = ·) (sources.map (accessAt (rels.map Relation.accesses))) (ds.map Column.access) := by
    rw [List.forall₂_map_left_iff, List.forall₂_map_right_iff]
    exact h.imp fun _ _ => accessAt_of_source?
  rw [List.forall₂_eq_eq_eq] at heach
  rw [accessOf, if_neg hne, heach]

end Op

/-- What is common to columns is open to those to whom all of them are. -/
theorem Column.mem_shared {ds : List Column} (h : ds ≠ []) (a : PartyId) :
    (a ∈ (Access.shared (ds.map access)).trust ↔ ∀ d ∈ ds, a ∈ d.trust) ∧
    (a ∈ (Access.shared (ds.map access)).plain ↔ ∀ d ∈ ds, a ∈ d.plain) := by
  have hmem (label : Column → PartySet) : a ∈ PartySet.interAll (ds.map label) ↔ ∀ d ∈ ds, a ∈ label d := by
    rw [PartySet.mem_interAll (by simpa using h), List.forall_mem_map]
  rw [Access.shared, List.map_map, List.map_map]
  exact ⟨hmem trust, hmem plain⟩

namespace Node

variable {ins : List Relation} {n m : Node}

theorem accesses_of_anew (hins : ∀ r ∈ ins, r.Numbered) (hop : n.op ≠ .create) (run : anew ins n = .ok () m) :
    m.rel.accesses = n.op.accesses m.rel.storage.members (ins.map Relation.accesses) := by
  have haccesses := (makes_of_anew hins hop run).1.accesses
  simp only [List.map_map, Function.comp_def, Relation.accesses_profile] at haccesses
  exact haccesses

theorem length_columns_of_anew (hins : ∀ r ∈ ins, r.Numbered) (hop : n.op ≠ .create) (run : anew ins n = .ok () m) :
    m.rel.columns.length = (n.op.lineage (ins.map fun r => r.columns.length)).length := by
  have hwidths : (ins.map Relation.accesses).map List.length = ins.map fun r => r.columns.length := by
    simp [Relation.accesses]
  rw [← hwidths, ← Op.length_accesses, ← accesses_of_anew hins hop run, Relation.accesses, List.length_map]

/-- The labels of one column. -/
theorem inherits_of_anew {i : Nat} {c : Column} {sources : List Op.Source} (hins : ∀ r ∈ ins, r.Numbered)
    (hop : n.op ≠ .create) (run : anew ins n = .ok () m) (hc : m.rel.columns[i]? = some c)
    (hi : (n.op.lineage (ins.map fun r => r.columns.length))[i]? = some sources) :
    ∃ ds, List.Forall₂ (fun s d => Op.source? ins s = some d) sources ds ∧
      (n.op.Detached i → ds = [] ∧ c.trust = m.rel.storage.members ∧ c.plain = m.rel.storage.members) ∧
      (¬ n.op.Detached i → ds ≠ [] ∧ ∀ a,
        (a ∈ c.trust ↔ (∀ d ∈ ds, a ∈ d.trust) ∨ n.op = .opening ∧ a ∈ m.rel.storage.members) ∧
        (a ∈ c.plain ↔ (∀ d ∈ ds, a ∈ d.plain) ∨ n.op = .opening ∧ a ∈ m.rel.storage.members)) := by
  have hderives := derives_of_refresh hins hop run
  have hwidths : (ins.map Relation.accesses).map List.length = ins.map fun r => r.columns.length := by
    simp [Relation.accesses]
  have hwidths' : (ins.map Relation.schema).map List.length = ins.map fun r => r.columns.length := by simp
  have haccess : m.rel.accesses[i]? = some c.access := by rw [Relation.accesses, List.getElem?_map, hc, Option.map_some]
  rw [accesses_of_anew hins hop run, Op.getElem?_accesses, hwidths, hi, Option.map_some, Option.some.injEq] at haccess
  rw [← hwidths'] at hi
  obtain ⟨hdetached, rfl⟩ | ⟨hdetached, hbacked⟩ := hderives.backed hi
  · rw [if_neg hdetached.ne_opening] at haccess
    refine ⟨[], .nil, fun _ => ⟨rfl, ?_, ?_⟩, fun hnot => absurd hdetached hnot⟩
    · exact (congrArg Access.trust haccess).symm
    · exact (congrArg Access.plain haccess).symm
  · rw [hwidths'] at hbacked
    obtain ⟨ds, hds⟩ := hbacked.exists_source?
    have hne : ds ≠ [] := by
      rintro rfl
      exact hbacked.1 (List.forall₂_nil_right_iff.mp hds)
    refine ⟨ds, hds, fun h => absurd h hdetached, fun _ => ⟨hne, fun a => ?_⟩⟩
    obtain ⟨htrust, hplain⟩ := Column.mem_shared hne a
    rw [Op.accessOf_of_source? hbacked.1 hds] at haccess
    change (a ∈ c.access.trust ↔ _) ∧ (a ∈ c.access.plain ↔ _)
    rw [← haccess]
    by_cases hopen : n.op = .opening
    · simp [hopen, Access.loosen, htrust, hplain]
    · simp [hopen, htrust, hplain]

/-- Every column of a node that has been derived inherits its labels from the columns it is computed
from. Those that are not computed from any are open to all parties that store them, and so is what has
been opened. -/
theorem labels_of_anew (hop : n.op ≠ .create) (hins : ∀ r ∈ ins, r.Numbered) (run : anew ins n = .ok () m) :
    m.rel.columns.length = (n.op.lineage (ins.map fun r => r.columns.length)).length ∧
    ∀ i c sources, m.rel.columns[i]? = some c → (n.op.lineage (ins.map fun r => r.columns.length))[i]? = some sources →
      ∃ ds, List.Forall₂ (fun s d => Op.source? ins s = some d) sources ds ∧
        (n.op.Detached i → ds = [] ∧ c.trust = m.rel.storage.members ∧ c.plain = m.rel.storage.members) ∧
        (¬ n.op.Detached i → ds ≠ [] ∧ ∀ a,
          (a ∈ c.trust ↔ (∀ d ∈ ds, a ∈ d.trust) ∨ n.op = .opening ∧ a ∈ m.rel.storage.members) ∧
          (a ∈ c.plain ↔ (∀ d ∈ ds, a ∈ d.plain) ∨ n.op = .opening ∧ a ∈ m.rel.storage.members)) :=
  ⟨length_columns_of_anew hins hop run, fun _ _ _ => inherits_of_anew hins hop run⟩

/-- Two relations, each with a key and a value. -/
def keyed : List Relation :=
  [.owning "left" [(Column.fresh "x" .integer).labeled (.ofList [1, 2]) (.singleton 1),
      (Column.fresh "k" .integer).labeled (.ofList [1, 2]) (.ofList [1, 2])] (.among 1 []),
   .owning "right" [(Column.fresh "k" .integer).labeled (.ofList [2, 3]) (.singleton 2), .fresh "y" .float] (.among 2 [])]

/-- The join of the two by their keys. -/
def joining : Node where
  id := 2
  op := .join [{ Column.fresh "k" .integer with index := 1 }] [.fresh "k" .integer]
  rel := .blank "both"
  inputs := .binary 0 1
  parents := .ofList [0, 1]
  children := ∅

theorem labels_of_anew_joining : ∃ m : Node, joining.op ≠ .create ∧ (∀ r ∈ keyed, r.Numbered) ∧
    anew keyed joining = .ok () m ∧ ∀ (i : Nat) (c : Column) (sources : List Op.Source),
      m.rel.columns[i]? = some c → [[(0, 1), (1, 0)], [(0, 0)], [(1, 1)]][i]? = some sources →
      ∃ ds, List.Forall₂ (fun s d => Op.source? keyed s = some d) sources ds ∧ ds ≠ [] ∧
        ∀ a, (a ∈ c.trust ↔ ∀ d ∈ ds, a ∈ d.trust) ∧ (a ∈ c.plain ↔ ∀ d ∈ ds, a ∈ d.plain) := by
  have hruns : (match anew keyed joining with | .ok _ _ => true | .error _ _ => false) = true := by cbv
  split at hruns
  · rename_i m run
    have hnumbered : ∀ r ∈ keyed, r.Numbered := by simp [keyed, Relation.owning, Relation.numbered_renumber]
    have hlineage : joining.op.lineage (keyed.map fun r => r.columns.length) = [[(0, 1), (1, 0)], [(0, 0)], [(1, 1)]] := by cbv
    refine ⟨m, by simp [joining], hnumbered, run, fun i c sources hc hi => ?_⟩
    rw [← hlineage] at hi
    obtain ⟨ds, hds, -, hinherits⟩ := (labels_of_anew (by simp [joining]) hnumbered run).2 i c sources hc hi
    have hdetached : ¬ joining.op.Detached i := by simp [joining, Op.Detached, Op.grouping?]
    obtain ⟨hne, hlabels⟩ := hinherits hdetached
    refine ⟨ds, hds, hne, fun a => ?_⟩
    simpa [joining] using hlabels a
  · cases hruns

end Node

end JointPlan
