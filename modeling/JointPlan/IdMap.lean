import JointPlan.IdSet

/-!
# Finite maps keyed by identifiers

A map is kept as its list of entries in ascending order of key. `get?` is the
view of a map: `get?_insert` and `get?_erase` say what an update does to it, and
`IdMap.ext` says that it decides the map.

`unseen` counts the keys outside a set. It goes down when a key joins the set,
which is what ends every traversal of a plan.
-/

namespace JointPlan

/-- Entries in ascending order of key, each key once. -/
structure IdMap (α : Type) where
  entries : List (Nat × α)
  ascending : (entries.map Prod.fst).Pairwise (· < ·)
deriving DecidableEq

namespace IdMap

variable {α : Type}

-- ---------------------------------------------------------------------------
-- Ascending entries
-- ---------------------------------------------------------------------------

/-- Put an entry in its place, over an earlier one of the same key. -/
def insertInto (k : Nat) (v : α) : List (Nat × α) → List (Nat × α)
  | [] => [(k, v)]
  | e :: l =>
    if k < e.1 then (k, v) :: e :: l
    else if k = e.1 then (k, v) :: l
    else e :: insertInto k v l

theorem lookup_cons_ite {x : Nat} {e : Nat × α} {l : List (Nat × α)} :
    (e :: l).lookup x = if x = e.1 then some e.2 else l.lookup x := by
  obtain ⟨k, v⟩ := e
  rw [List.lookup_cons]
  by_cases h : x = k
  · simp [h]
  · simp [h, beq_eq_false_iff_ne.mpr h]

theorem mem_keys_insertInto {k x : Nat} {v : α} {l : List (Nat × α)} :
    x ∈ (insertInto k v l).map Prod.fst ↔ x = k ∨ x ∈ l.map Prod.fst := by
  induction l with
  | nil => simp [insertInto]
  | cons e l ih =>
    rw [insertInto]
    split
    · simp
    · split
      · rename_i h; simp [h]
      · rw [List.map_cons, List.mem_cons, ih, List.map_cons, List.mem_cons]
        constructor
        · rintro (h | h | h) <;> simp [h]
        · rintro (h | h | h) <;> simp [h]

theorem insertInto_ascending {k : Nat} {v : α} {l : List (Nat × α)}
    (h : (l.map Prod.fst).Pairwise (· < ·)) :
    ((insertInto k v l).map Prod.fst).Pairwise (· < ·) := by
  induction l with
  | nil => simp [insertInto]
  | cons e l ih =>
    have he := List.pairwise_cons.mp h
    rw [insertInto]
    split
    · rename_i hlt
      refine List.pairwise_cons.mpr ⟨fun x hx => ?_, h⟩
      rcases List.mem_cons.mp hx with rfl | hx
      · exact hlt
      · exact Nat.lt_trans hlt (he.1 x hx)
    · split
      · rename_i heq
        rw [List.map_cons, heq]
        exact h
      · rename_i hlt hne
        refine List.pairwise_cons.mpr ⟨fun x hx => ?_, ih he.2⟩
        rcases mem_keys_insertInto.mp hx with rfl | hx
        · omega
        · exact he.1 x hx

theorem lookup_insertInto {k x : Nat} {v : α} {l : List (Nat × α)}
    (h : (l.map Prod.fst).Pairwise (· < ·)) :
    (insertInto k v l).lookup x = if x = k then some v else l.lookup x := by
  induction l with
  | nil => by_cases hx : x = k <;> simp [insertInto, lookup_cons_ite, hx]
  | cons e l ih =>
    have he := List.pairwise_cons.mp h
    rw [insertInto]
    by_cases hx : x = k
    · subst hx
      split
      · simp
      · split
        · simp
        · rename_i hne
          rw [lookup_cons_ite, ih he.2]
          simp [hne]
    · split
      · simp [lookup_cons_ite, hx]
      · split
        · rename_i heq
          have hxe : x ≠ e.1 := fun hc => hx (hc.trans heq.symm)
          simp [lookup_cons_ite, hx, hxe]
        · rw [lookup_cons_ite, lookup_cons_ite, ih he.2, if_neg hx]

theorem lookup_eq_none_of_not_mem {k : Nat} {l : List (Nat × α)} (h : k ∉ l.map Prod.fst) :
    l.lookup k = none := by
  induction l with
  | nil => rfl
  | cons e l ih =>
    rw [List.map_cons, List.mem_cons, not_or] at h
    rw [lookup_cons_ite, ih h.2]
    simp [h.1]

-- ---------------------------------------------------------------------------
-- Operations
-- ---------------------------------------------------------------------------

theorem ascending_nil : (([] : List (Nat × α)).map Prod.fst).Pairwise (· < ·) := .nil

def empty : IdMap α := ⟨[], ascending_nil⟩

instance : EmptyCollection (IdMap α) := ⟨empty⟩

instance : Inhabited (IdMap α) := ⟨empty⟩

def get? (m : IdMap α) (k : Nat) : Option α := m.entries.lookup k

def contains (m : IdMap α) (k : Nat) : Bool := (m.get? k).isSome

def insert (m : IdMap α) (k : Nat) (v : α) : IdMap α :=
  ⟨insertInto k v m.entries, insertInto_ascending m.ascending⟩

def erase (m : IdMap α) (k : Nat) : IdMap α :=
  ⟨m.entries.filter (·.1 ≠ k), m.ascending.sublist (List.filter_sublist.map _)⟩

/-- The map with the later of two entries of one key. -/
def ofList (l : List (Nat × α)) : IdMap α := l.foldl (fun m e => m.insert e.1 e.2) ∅

def keys (m : IdMap α) : List Nat := m.entries.map Prod.fst

def values (m : IdMap α) : List α := m.entries.map Prod.snd

def size (m : IdMap α) : Nat := m.entries.length

def isEmpty (m : IdMap α) : Bool := m.entries.isEmpty

/-- The number of keys outside `s`. -/
def unseen (m : IdMap α) (s : IdSet) : Nat := (m.keys.filter (· ∉ s)).length

-- ---------------------------------------------------------------------------
-- Laws
-- ---------------------------------------------------------------------------

@[simp] theorem get?_empty (k : Nat) : (∅ : IdMap α).get? k = none := rfl

theorem get?_insert (m : IdMap α) (k x : Nat) (v : α) :
    (m.insert k v).get? x = if x = k then some v else m.get? x :=
  lookup_insertInto m.ascending

@[simp] theorem get?_insert_self (m : IdMap α) (k : Nat) (v : α) : (m.insert k v).get? k = some v := by
  simp [get?_insert]

theorem get?_insert_ne (m : IdMap α) {k x : Nat} (v : α) (h : x ≠ k) :
    (m.insert k v).get? x = m.get? x := by
  simp [get?_insert, h]

theorem get?_erase (m : IdMap α) (k x : Nat) :
    (m.erase k).get? x = if x = k then none else m.get? x := by
  have key : ∀ l : List (Nat × α),
      (l.filter (·.1 ≠ k)).lookup x = if x = k then none else l.lookup x := by
    intro l
    induction l with
    | nil => simp
    | cons e l ih =>
      by_cases he : e.1 = k
      · rw [List.filter_cons_of_neg (by simpa using he), ih]
        by_cases hx : x = k
        · simp [hx]
        · have hxe : x ≠ e.1 := fun hc => hx (hc.trans he)
          simp [hx, hxe, lookup_cons_ite]
      · rw [List.filter_cons_of_pos (by simpa using he), lookup_cons_ite, lookup_cons_ite, ih]
        by_cases hx : x = k
        · have hxe : x ≠ e.1 := fun hc => he (hc.symm.trans hx)
          simp [hx, show k ≠ e.1 from fun hc => he hc.symm]
        · simp [hx]
  exact key m.entries

theorem mem_keys_iff {m : IdMap α} {k : Nat} : k ∈ m.keys ↔ ∃ v, m.get? k = some v := by
  have key : ∀ l : List (Nat × α), k ∈ l.map Prod.fst ↔ ∃ v, l.lookup k = some v := by
    intro l
    induction l with
    | nil => simp
    | cons e l ih =>
      rw [List.map_cons, List.mem_cons, ih, lookup_cons_ite]
      by_cases h : k = e.1 <;> simp [h]
  exact key m.entries

theorem mem_keys_of_get? {m : IdMap α} {k : Nat} {v : α} (h : m.get? k = some v) : k ∈ m.keys :=
  mem_keys_iff.mpr ⟨v, h⟩

theorem mem_entries_iff {m : IdMap α} {k : Nat} {v : α} :
    (k, v) ∈ m.entries ↔ m.get? k = some v := by
  have key : ∀ l : List (Nat × α), (l.map Prod.fst).Pairwise (· < ·) →
      ((k, v) ∈ l ↔ l.lookup k = some v) := by
    intro l hl
    induction l with
    | nil => simp
    | cons e l ih =>
      have he := List.pairwise_cons.mp hl
      rw [List.mem_cons, ih he.2, lookup_cons_ite]
      by_cases h : k = e.1
      · have hnone : l.lookup k = none := lookup_eq_none_of_not_mem fun hm =>
          Nat.lt_irrefl _ (h ▸ he.1 k hm)
        rw [hnone]
        rw [if_pos h, h]
        simp [Prod.ext_iff, eq_comm]
      · have hne : (k, v) ≠ e := fun hc => h (congrArg Prod.fst hc)
        simp [h, hne]
  exact key m.entries m.ascending

@[ext] theorem ext {m n : IdMap α} (h : ∀ k, m.get? k = n.get? k) : m = n := by
  have hk : m.keys = n.keys := IdSet.eq_of_ascending m.ascending n.ascending fun a => by
    show a ∈ m.keys ↔ a ∈ n.keys
    rw [mem_keys_iff, mem_keys_iff, h]
  have key : ∀ l r : List (Nat × α), (l.map Prod.fst).Pairwise (· < ·) →
      l.map Prod.fst = r.map Prod.fst → (∀ k, l.lookup k = r.lookup k) → l = r := by
    intro l
    induction l with
    | nil => intro r _ hr _; simpa using hr.symm
    | cons e l ih =>
      intro r hl hr hlook
      cases r with
      | nil => simp at hr
      | cons f r =>
        have he := List.pairwise_cons.mp hl
        have hr := List.cons.inj hr
        have hv := hlook e.1
        rw [lookup_cons_ite, lookup_cons_ite, hr.1] at hv
        simp only [if_true, Option.some.injEq] at hv
        congr 1
        · exact Prod.ext hr.1 hv
        · refine ih r he.2 hr.2 fun k => ?_
          have hk := hlook k
          rw [lookup_cons_ite, lookup_cons_ite, ← hr.1] at hk
          by_cases hke : k = e.1
          · rw [lookup_eq_none_of_not_mem fun hm => Nat.lt_irrefl _ (hke ▸ he.1 k hm),
              lookup_eq_none_of_not_mem fun hm => Nat.lt_irrefl _ (hke ▸ he.1 k (hr.2 ▸ hm))]
          · simpa [hke] using hk
  obtain ⟨l, hl⟩ := m
  obtain ⟨r, hr⟩ := n
  have : l = r := key l r hl hk h
  subst this
  rfl

theorem unseen_insert_lt {m : IdMap α} {s : IdSet} {k : Nat} {v : α} (hk : m.get? k = some v)
    (hs : k ∉ s) : m.unseen (s.insert k) < m.unseen s := by
  have key : ∀ l : List Nat, k ∈ l →
      (l.filter (· ∉ s.insert k)).length < (l.filter (· ∉ s)).length := by
    intro l hl
    have hle : ∀ l : List Nat, (l.filter (· ∉ s.insert k)).length ≤ (l.filter (· ∉ s)).length := by
      intro l
      induction l with
      | nil => simp
      | cons a l ih =>
        simp only [List.filter_cons, IdSet.mem_insert]
        by_cases ha : a ∈ s
        · simpa [ha] using ih
        · by_cases hak : a = k
          · simp only [hak, true_or, not_true_eq_false, decide_false, hs, not_false_eq_true,
              decide_true]
            simpa using Nat.le_succ_of_le ih
          · simpa [ha, hak] using ih
    induction l with
    | nil => simp at hl
    | cons a l ih =>
      simp only [List.filter_cons, IdSet.mem_insert]
      by_cases hak : a = k
      · have := hle l
        simp only [hak, true_or, not_true_eq_false, decide_false, hs, not_false_eq_true,
          decide_true]
        simpa using Nat.lt_succ_of_le this
      · have hl : k ∈ l := by
          rcases List.mem_cons.mp hl with h | h
          · exact absurd h.symm hak
          · exact h
        by_cases ha : a ∈ s
        · simpa [ha] using ih hl
        · simpa [ha, hak] using ih hl
  exact key m.keys (mem_keys_of_get? hk)

end IdMap

end JointPlan
