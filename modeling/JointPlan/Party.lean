import JointPlan.IdSet

/-!
# Parties

The participants of a joint computation are numbered. A `PartySet` is used as a
label (who may see a column, who holds it in the clear) and as a storage locus.
-/

namespace JointPlan

abbrev PartyId := Nat

abbrev PartySet := IdSet

namespace PartySet

/-- Written as `{1, 2}`. -/
def render (s : PartySet) : String :=
  "\x7b" ++ String.intercalate ", " (s.toList.map toString) ++ "\x7d"

def renderAll (sets : List PartySet) : String :=
  "[" ++ String.intercalate ", " (sets.map render) ++ "]"

/-- The parties in every one of the sets; no party when there are no sets. -/
def interAll : List PartySet → PartySet
  | [] => ∅
  | s :: rest => rest.foldl (· ∩ ·) s

/-- The parties in at least one of the sets. -/
def unionAll (sets : List PartySet) : PartySet := sets.foldl (· ∪ ·) ∅

theorem mem_foldl_inter {a : PartyId} {s : PartySet} {rest : List PartySet} :
    a ∈ rest.foldl (· ∩ ·) s ↔ a ∈ s ∧ ∀ t ∈ rest, a ∈ t := by
  induction rest generalizing s with
  | nil => simp
  | cons t rest ih => simp [ih, and_assoc]

theorem mem_interAll {a : PartyId} {sets : List PartySet} (h : sets ≠ []) :
    a ∈ interAll sets ↔ ∀ s ∈ sets, a ∈ s := by
  cases sets with
  | nil => exact absurd rfl h
  | cons s rest => simp [interAll, mem_foldl_inter]

theorem mem_foldl_union {a : PartyId} {s : PartySet} {rest : List PartySet} :
    a ∈ rest.foldl (· ∪ ·) s ↔ a ∈ s ∨ ∃ t ∈ rest, a ∈ t := by
  induction rest generalizing s with
  | nil => simp
  | cons t rest ih => simp [ih, or_assoc]

theorem mem_unionAll {a : PartyId} {sets : List PartySet} :
    a ∈ unionAll sets ↔ ∃ s ∈ sets, a ∈ s := by
  simp [unionAll, mem_foldl_union]

end PartySet

end JointPlan
