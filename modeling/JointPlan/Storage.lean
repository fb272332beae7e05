import JointPlan.Fault

/-!
# Storage

Where the copies or shares of a relation live. Each locus is a set of parties:
one party holds a copy in the clear, several hold a secret sharing among them.
Several loci hold the rows of a relation split between them. The type carries
what makes such a description sound: there is a locus, no locus is empty, and
all loci have the same number of parties.
-/

namespace JointPlan

structure Storage where
  loci : List PartySet
  nonempty : loci ≠ []
  inhabited : ∀ s ∈ loci, s ≠ ∅
  even : ∀ s ∈ loci, ∀ t ∈ loci, s.size = t.size
deriving DecidableEq

namespace Storage

-- ---------------------------------------------------------------------------
-- Construction
-- ---------------------------------------------------------------------------

/-- The storage with the given loci; an empty list is the first fault looked
for, then an empty locus, then loci of different sizes. -/
def ofLoci (loci : List PartySet) : Except Fault Storage :=
  if h₁ : loci = [] then .error .noLoci
  else if h₂ : ∀ s ∈ loci, s ≠ ∅ then
    if h₃ : ∀ s ∈ loci, ∀ t ∈ loci, s.size = t.size then .ok ⟨loci, h₁, h₂, h₃⟩
    else .error (.unevenLoci loci)
  else .error .emptyLocus

/-- One locus. -/
def single (s : PartySet) (h : s ≠ ∅) : Storage where
  loci := [s]
  nonempty := List.cons_ne_nil _ _
  inhabited := by simpa using h
  even := by simp

/-- Every member of `s` as a locus of its own. -/
def singletons (s : PartySet) (h : s ≠ ∅) : Storage where
  loci := s.toList.map IdSet.singleton
  nonempty := by
    obtain ⟨a, ha⟩ := IdSet.exists_mem_of_ne_empty h
    exact List.ne_nil_of_mem (List.mem_map_of_mem ha)
  inhabited := by
    intro t ht
    obtain ⟨a, _, rfl⟩ := List.mem_map.mp ht
    exact IdSet.ne_empty_of_mem (IdSet.mem_singleton.mpr rfl)
  even := by
    intro t ht u hu
    obtain ⟨a, _, rfl⟩ := List.mem_map.mp ht
    obtain ⟨b, _, rfl⟩ := List.mem_map.mp hu
    rfl

-- ---------------------------------------------------------------------------
-- Views
-- ---------------------------------------------------------------------------

/-- The parties of all loci together. -/
def members (st : Storage) : PartySet := PartySet.unionAll st.loci

/-- The number of parties of a locus. -/
def cardinality (st : Storage) : Nat := (st.loci.head st.nonempty).size

def isShared (st : Storage) : Bool := 1 < st.cardinality

def render (st : Storage) : String := PartySet.renderAll st.loci

theorem mem_members {a : PartyId} {st : Storage} : a ∈ st.members ↔ ∃ s ∈ st.loci, a ∈ s :=
  PartySet.mem_unionAll

theorem members_ne_empty (st : Storage) : st.members ≠ ∅ := by
  have hmem := List.head_mem st.nonempty
  obtain ⟨a, ha⟩ := IdSet.exists_mem_of_ne_empty (st.inhabited _ hmem)
  exact IdSet.ne_empty_of_mem (mem_members.mpr ⟨_, hmem, ha⟩)

@[ext] theorem ext {a b : Storage} (h : a.loci = b.loci) : a = b := by
  cases a; cases b; cases h; rfl

-- ---------------------------------------------------------------------------
-- Changes of place
-- ---------------------------------------------------------------------------

/-- One sharing among all members. -/
def shared (st : Storage) : Storage := single st.members st.members_ne_empty

/-- A copy in the clear for every member. -/
def flattened (st : Storage) : Storage := singletons st.members st.members_ne_empty

/-- Where a relation computed from relations stored at `first :: rest` lives.
Inputs in one and the same place keep it; inputs that are all in the clear give
rows split between their holders; anything else is one sharing. -/
def combineAll (first : Storage) (rest : List Storage) : Storage :=
  if ∀ st ∈ rest, st = first then first
  else
    let all := PartySet.unionAll ((first :: rest).map members)
    have h : all ≠ ∅ := by
      obtain ⟨a, ha⟩ := IdSet.exists_mem_of_ne_empty first.members_ne_empty
      exact IdSet.ne_empty_of_mem (PartySet.mem_unionAll.mpr ⟨_, List.mem_cons_self, ha⟩)
    if ∀ st ∈ first :: rest, st.cardinality = 1 then singletons all h else single all h

def combine : List Storage → Except Fault Storage
  | [] => .error .nothingToCombine
  | first :: rest => .ok (combineAll first rest)

-- ---------------------------------------------------------------------------
-- Checked construction
-- ---------------------------------------------------------------------------

/-- One locus, refused when it is empty. -/
def ofLocus (s : PartySet) : Except Fault Storage := ofLoci [s]

/-- Every member of `s` as a locus of its own, refused when there is none. -/
def ofMembers (s : PartySet) : Except Fault Storage := ofLoci (s.toList.map IdSet.singleton)

end Storage

end JointPlan
