/-!
# Finite sets of identifiers

Parties and plan nodes are numbered. A set of them is kept as its ascending
list of members, so that equal sets are equal values and every listing of a set
is in ascending order.

`mem_insert`, `mem_erase`, `mem_union`, `mem_inter` and `mem_ofList` say what
each operation does to the members; `IdSet.ext` says that the members decide
the set.
-/

namespace JointPlan

/-- A set of identifiers: its members in ascending order, each once. -/
structure IdSet where
  toList : List Nat
  ascending : toList.Pairwise (· < ·)
deriving DecidableEq

namespace IdSet

-- ---------------------------------------------------------------------------
-- Ascending lists
-- ---------------------------------------------------------------------------

/-- Put `a` in its place in an ascending list. -/
def insertInto (a : Nat) : List Nat → List Nat
  | [] => [a]
  | b :: l => if a < b then a :: b :: l else if a = b then b :: l else b :: insertInto a l

theorem mem_insertInto {a x : Nat} {l : List Nat} : x ∈ insertInto a l ↔ x = a ∨ x ∈ l := by
  induction l with
  | nil => simp [insertInto]
  | cons b l ih =>
    rw [insertInto]
    split
    · simp
    · split
      · rename_i h; simp [h]
      · simp [ih]; constructor
        · rintro (h | h | h) <;> simp [h]
        · rintro (h | h | h) <;> simp [h]

theorem insertInto_ascending {a : Nat} {l : List Nat} (h : l.Pairwise (· < ·)) :
    (insertInto a l).Pairwise (· < ·) := by
  induction l with
  | nil => simp [insertInto]
  | cons b l ih =>
    have hb := List.pairwise_cons.mp h
    rw [insertInto]
    split
    · rename_i hab
      refine List.pairwise_cons.mpr ⟨fun x hx => ?_, h⟩
      rcases List.mem_cons.mp hx with rfl | hx
      · exact hab
      · exact Nat.lt_trans hab (hb.1 x hx)
    · split
      · exact h
      · rename_i hab hne
        refine List.pairwise_cons.mpr ⟨fun x hx => ?_, ih hb.2⟩
        rcases mem_insertInto.mp hx with rfl | hx
        · omega
        · exact hb.1 x hx

-- ---------------------------------------------------------------------------
-- Operations
-- ---------------------------------------------------------------------------

def empty : IdSet := ⟨[], .nil⟩

instance : EmptyCollection IdSet := ⟨empty⟩

instance : Inhabited IdSet := ⟨empty⟩

instance : Membership Nat IdSet := ⟨fun s a => a ∈ s.toList⟩

instance (a : Nat) (s : IdSet) : Decidable (a ∈ s) := inferInstanceAs (Decidable (a ∈ s.toList))

def singleton (a : Nat) : IdSet := ⟨[a], List.pairwise_singleton _ _⟩

def insert (s : IdSet) (a : Nat) : IdSet := ⟨insertInto a s.toList, insertInto_ascending s.ascending⟩

def erase (s : IdSet) (a : Nat) : IdSet :=
  ⟨s.toList.filter (· ≠ a), s.ascending.filter _⟩

/-- The set `s` with every member of `l`, which may be unordered and repeat itself. -/
def insertAll (s : IdSet) (l : List Nat) : IdSet := l.foldl insert s

def ofList (l : List Nat) : IdSet := insertAll ∅ l

def union (s t : IdSet) : IdSet := s.insertAll t.toList

def inter (s t : IdSet) : IdSet :=
  ⟨s.toList.filter (· ∈ t), s.ascending.filter _⟩

def size (s : IdSet) : Nat := s.toList.length

def isEmpty (s : IdSet) : Bool := s.toList.isEmpty

instance : Union IdSet := ⟨union⟩

instance : Inter IdSet := ⟨inter⟩

-- ---------------------------------------------------------------------------
-- Members
-- ---------------------------------------------------------------------------

@[simp] theorem mem_toList {a : Nat} {s : IdSet} : a ∈ s.toList ↔ a ∈ s := Iff.rfl

@[simp] theorem not_mem_empty (a : Nat) : a ∉ (∅ : IdSet) := List.not_mem_nil

@[simp] theorem mem_singleton {a b : Nat} : a ∈ singleton b ↔ a = b := List.mem_singleton

@[simp] theorem mem_insert {a b : Nat} {s : IdSet} : a ∈ s.insert b ↔ a = b ∨ a ∈ s :=
  mem_insertInto

@[simp] theorem mem_erase {a b : Nat} {s : IdSet} : a ∈ s.erase b ↔ a ∈ s ∧ a ≠ b := by
  rw [← mem_toList]; simp [erase]

@[simp] theorem mem_insertAll {a : Nat} {s : IdSet} {l : List Nat} :
    a ∈ s.insertAll l ↔ a ∈ s ∨ a ∈ l := by
  induction l generalizing s with
  | nil => simp [insertAll]
  | cons b l ih =>
    have : s.insertAll (b :: l) = (s.insert b).insertAll l := rfl
    rw [this, ih, mem_insert, List.mem_cons]
    constructor
    · rintro ((h | h) | h) <;> simp [h]
    · rintro (h | h | h) <;> simp [h]

@[simp] theorem mem_ofList {a : Nat} {l : List Nat} : a ∈ ofList l ↔ a ∈ l := by
  simp [ofList]

@[simp] theorem mem_union {a : Nat} {s t : IdSet} : a ∈ s ∪ t ↔ a ∈ s ∨ a ∈ t := mem_insertAll

@[simp] theorem mem_inter {a : Nat} {s t : IdSet} : a ∈ s ∩ t ↔ a ∈ s ∧ a ∈ t := by
  show a ∈ (inter s t).toList ↔ _
  simp [inter]

theorem eq_of_ascending {l m : List Nat} (hl : l.Pairwise (· < ·)) (hm : m.Pairwise (· < ·))
    (h : ∀ a, a ∈ l ↔ a ∈ m) : l = m := by
  induction l generalizing m with
  | nil =>
    cases m with
    | nil => rfl
    | cons b m => exact absurd ((h b).mpr (by simp)) (by simp)
  | cons a l ih =>
    cases m with
    | nil => exact absurd ((h a).mp (by simp)) (by simp)
    | cons b m =>
      have hla := List.pairwise_cons.mp hl
      have hmb := List.pairwise_cons.mp hm
      have hab : a = b := by
        rcases List.mem_cons.mp ((h a).mp (by simp)) with h₁ | h₁
        · exact h₁
        · rcases List.mem_cons.mp ((h b).mpr (by simp)) with h₂ | h₂
          · exact h₂.symm
          · exact absurd (hla.1 b h₂) (Nat.not_lt.mpr (Nat.le_of_lt (hmb.1 a h₁)))
      subst hab
      congr 1
      refine ih hla.2 hmb.2 fun x => ⟨fun hx => ?_, fun hx => ?_⟩
      · rcases List.mem_cons.mp ((h x).mp (List.mem_cons_of_mem _ hx)) with rfl | hx'
        · exact absurd (hla.1 x hx) (Nat.lt_irrefl _)
        · exact hx'
      · rcases List.mem_cons.mp ((h x).mpr (List.mem_cons_of_mem _ hx)) with rfl | hx'
        · exact absurd (hmb.1 x hx) (Nat.lt_irrefl _)
        · exact hx'

@[ext] theorem ext {s t : IdSet} (h : ∀ a, a ∈ s ↔ a ∈ t) : s = t := by
  obtain ⟨l, hl⟩ := s
  obtain ⟨m, hm⟩ := t
  have : l = m := eq_of_ascending hl hm h
  subst this
  rfl

theorem isEmpty_iff {s : IdSet} : s.isEmpty = true ↔ s = ∅ := by
  rw [isEmpty, List.isEmpty_iff]
  constructor
  · intro h; ext a; rw [← mem_toList, h]; simp
  · rintro rfl; rfl

theorem exists_mem_of_ne_empty {s : IdSet} (h : s ≠ ∅) : ∃ a, a ∈ s := by
  obtain ⟨l, hl⟩ := s
  cases l with
  | nil => exact absurd rfl h
  | cons a l => exact ⟨a, List.mem_cons_self⟩

theorem ne_empty_of_mem {a : Nat} {s : IdSet} (h : a ∈ s) : s ≠ ∅ := by
  rintro rfl; exact not_mem_empty a h

end IdSet

end JointPlan
