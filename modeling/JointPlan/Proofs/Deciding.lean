import JointPlan.Proofs.Revealing

/-!
# When one party can do it alone

Whether relations can be computed on without MPC is decided from three intersections: of the
parties that hold their columns in the clear, of those entitled to their columns, and of all the loci
they are stored at. A party in the first or the second is in that set for every column of every
relation. A party in the third has a part in every locus, which is less than holding the relations:
one of several parties at a locus has only a share. The rule asks that there be exactly one such
party, so it takes a relation shared by the parties 1 and 2 and one held by the party 1 for relations that
the party 1 can compute on alone. Where no two loci overlap without being equal, one party in all loci is
the only party of each of them.
-/

namespace JointPlan

namespace Relation

open Storage

variable {rels : List Relation} {a : PartyId}

/-- The party is in that set of every column of every relation, and there is one in each of them. -/
def Covers (label : Column → PartySet) (a : PartyId) (rels : List Relation) : Prop :=
  ∀ r ∈ rels, r.columns ≠ [] ∧ ∀ c ∈ r.columns, a ∈ label c

/-- The relations are stored with that party and no other. -/
def SolelyAt (a : PartyId) (rels : List Relation) : Prop := ∀ r ∈ rels, ∀ s ∈ r.storage.loci, s = .singleton a

/-- Two loci of the relations are the same or have no party in common. -/
def Apart (rels : List Relation) : Prop :=
  ∀ r ∈ rels, ∀ s ∈ r.storage.loci, ∀ r' ∈ rels, ∀ s' ∈ r'.storage.loci, s = s' ∨ ∀ a ∈ s, a ∉ s'

/-- Nobody holds a column in the clear or is entitled to one. -/
def Unlabelled (rels : List Relation) : Prop := ∀ r ∈ rels, ∀ c ∈ r.columns, c.trust = ∅ ∧ c.plain = ∅

theorem mem_interAll_merged (label : Column → PartySet) (hrels : rels ≠ []) :
    a ∈ PartySet.interAll (rels.map fun r => PartySet.interAll (r.columns.map label)) ↔ Covers label a rels := by
  rw [PartySet.mem_interAll (by simpa using hrels), List.forall_mem_map]
  refine forall₂_congr fun r _ => ?_
  rcases eq_or_ne r.columns [] with hnil | hne
  · simp [hnil, PartySet.interAll]
  · rw [PartySet.mem_interAll (by simpa using hne), List.forall_mem_map]
    exact (and_iff_right hne).symm

theorem size_meet_eq_one (hrels : rels ≠ []) :
    (meet rels).size = 1 ↔ ∃! a, ∀ r ∈ rels, ∀ s ∈ r.storage.loci, a ∈ s := by
  simp only [← mem_meet hrels]
  rw [IdSet.size_eq_one]
  refine exists_congr fun a => ⟨fun h => ?_, fun ⟨ha, honly⟩ => IdSet.ext fun b => ?_⟩
  · simp [h]
  · exact ⟨fun hb => IdSet.mem_singleton.mpr (honly b hb), fun hb => IdSet.mem_singleton.mp hb ▸ ha⟩

/-- What the rule comes to. -/
theorem requireMpc_eq_false (hrels : rels ≠ []) : requireMpc rels = false ↔
    (∃ a, Covers Column.plain a rels) ∨ (∃ a, Covers Column.trust a rels) ∨
      ∃! a, ∀ r ∈ rels, ∀ s ∈ r.storage.loci, a ∈ s := by
  have hcovers (label : Column → PartySet) :
      PartySet.interAll (rels.map fun r => PartySet.interAll (r.columns.map label)) ≠ ∅ ↔ ∃ a, Covers label a rels := by
    simp only [← mem_interAll_merged label hrels]
    exact ⟨IdSet.exists_mem_of_ne_empty, fun ⟨_, ha⟩ => IdSet.ne_empty_of_mem ha⟩
  rw [← size_meet_eq_one hrels, ← hcovers, ← hcovers, ← Bool.not_eq_true, requireMpc_eq_true]
  simp only [hrels, not_false_eq_true, ne_eq, true_and, not_and_or, not_not]
  rfl

/-- A party in all loci is the only one at each of them, when there is no other such party and no two loci overlap. -/
theorem existsUnique_mem_loci (hrels : rels ≠ []) (hapart : Apart rels) :
    (∃! a, ∀ r ∈ rels, ∀ s ∈ r.storage.loci, a ∈ s) ↔ ∃ a, SolelyAt a rels := by
  constructor
  · rintro ⟨a, ha, honly⟩
    refine ⟨a, fun r hr s hs => IdSet.ext fun b => ?_⟩
    rw [IdSet.mem_singleton]
    refine ⟨fun hb => honly b fun r' hr' s' hs' => ?_, fun hb => hb ▸ ha r hr s hs⟩
    rcases hapart r hr s hs r' hr' s' hs' with rfl | hdisjoint
    · exact hb
    · exact absurd (ha r' hr' s' hs') (hdisjoint a (ha r hr s hs))
  · rintro ⟨a, ha⟩
    refine ⟨a, fun r hr s hs => by simp [ha r hr s hs], fun b hb => ?_⟩
    obtain ⟨r, hr⟩ := List.exists_mem_of_ne_nil rels hrels
    have hmem := hb r hr _ (List.head_mem r.storage.nonempty)
    rwa [ha r hr _ (List.head_mem r.storage.nonempty), IdSet.mem_singleton] at hmem

theorem Unlabelled.not_covers (h : Unlabelled rels) (hrels : rels ≠ []) :
    ¬ Covers Column.plain a rels ∧ ¬ Covers Column.trust a rels := by
  obtain ⟨r, hr⟩ := List.exists_mem_of_ne_nil rels hrels
  constructor
  all_goals
    intro hcovers
    obtain ⟨hne, hall⟩ := hcovers r hr
    obtain ⟨c, hc⟩ := List.exists_mem_of_ne_nil _ hne
    have hmem := hall c hc
    simp [h r hr c hc] at hmem

/-- Nobody is alone at a locus of a shared relation. -/
theorem not_solelyAt_of_isShared {r : Relation} (hr : r ∈ rels) (hshared : r.isShared = true) : ¬ SolelyAt a rels := by
  intro h
  have hhead : r.storage.cardinality = 1 := by
    rw [Storage.cardinality, h r hr _ (List.head_mem r.storage.nonempty)]
    rfl
  simp [Relation.isShared, Storage.isShared, hhead] at hshared

/-- No MPC is needed exactly when some party holds every column in the clear, some party is entitled
to every column, or there is exactly one party that has a part in every locus. When no two loci
overlap, the last is to be the only party at every locus, and shared relations without labels need MPC. -/
theorem requireMpc_decides (hrels : rels ≠ []) :
    (requireMpc rels = false ↔ (∃ a, Covers Column.plain a rels) ∨ (∃ a, Covers Column.trust a rels) ∨
      ∃! a, ∀ r ∈ rels, ∀ s ∈ r.storage.loci, a ∈ s) ∧
    (Apart rels →
      (requireMpc rels = false ↔
        ∃ a, Covers Column.plain a rels ∨ Covers Column.trust a rels ∨ SolelyAt a rels) ∧
      (Unlabelled rels → (∃ r ∈ rels, r.isShared = true) → requireMpc rels = true)) := by
  refine ⟨requireMpc_eq_false hrels, fun hapart => ?_⟩
  have hfalse : requireMpc rels = false ↔
      ∃ a, Covers Column.plain a rels ∨ Covers Column.trust a rels ∨ SolelyAt a rels := by
    rw [requireMpc_eq_false hrels, existsUnique_mem_loci hrels hapart, exists_or, exists_or]
  refine ⟨hfalse, fun hunlabelled ⟨r, hr, hshared⟩ => ?_⟩
  rw [← Bool.not_eq_false, hfalse]
  rintro ⟨a, hplain | htrust | hsolely⟩
  · exact (hunlabelled.not_covers hrels).1 hplain
  · exact (hunlabelled.not_covers hrels).2 htrust
  · exact not_solelyAt_of_isShared hr hshared hsolely

-- ---------------------------------------------------------------------------
-- Instances
-- ---------------------------------------------------------------------------

/-- One column without labels. -/
def bare (name : String) (storage : Storage) : Relation := .owning name [.fresh "c" .integer] storage

/-- Shared by three parties. -/
def sharedByThree : Relation := bare "s" (.single (.ofList [1, 2, 3]) (by decide))

/-- Held by one party. -/
def heldByOne : Relation := bare "q" (.single (.singleton 4) (by decide))

/-- Half of it is shared by the parties 1 and 2, the other half by the parties 1 and 3. -/
def sharedInHalves : Relation := bare "h" ⟨[.ofList [1, 2], .ofList [1, 3]], by decide, by decide, by decide⟩

theorem requireMpc_decides_apart : Apart [sharedByThree, heldByOne] ∧ Unlabelled [sharedByThree, heldByOne] ∧
    (requireMpc [sharedByThree, heldByOne] = false ↔ (∃ a, Covers Column.plain a [sharedByThree, heldByOne]) ∨
      (∃ a, Covers Column.trust a [sharedByThree, heldByOne]) ∨
      ∃! a, ∀ r ∈ [sharedByThree, heldByOne], ∀ s ∈ r.storage.loci, a ∈ s) ∧
    (requireMpc [sharedByThree, heldByOne] = false ↔ ∃ a, Covers Column.plain a [sharedByThree, heldByOne] ∨
      Covers Column.trust a [sharedByThree, heldByOne] ∨ SolelyAt a [sharedByThree, heldByOne]) ∧
    requireMpc [sharedByThree, heldByOne] = true := by
  have hapart : Apart [sharedByThree, heldByOne] := by unfold Apart; decide
  have hunlabelled : Unlabelled [sharedByThree, heldByOne] := by unfold Unlabelled; decide
  have hne : [sharedByThree, heldByOne] ≠ [] := by simp
  obtain ⟨hrule, hrest⟩ := requireMpc_decides hne
  obtain ⟨hfalse, htrue⟩ := hrest hapart
  exact ⟨hapart, hunlabelled, hrule, hfalse, htrue hunlabelled ⟨sharedByThree, List.mem_cons_self, by decide⟩⟩

/-- The party 1 has a share of either half, nobody else has a part in both, and nobody has it all. -/
theorem requireMpc_eq_false_of_shares : requireMpc [sharedInHalves] = false ∧ Unlabelled [sharedInHalves] ∧
    sharedInHalves.isShared = true ∧
    ¬ ∃ a, Covers Column.plain a [sharedInHalves] ∨ Covers Column.trust a [sharedInHalves] ∨ SolelyAt a [sharedInHalves] := by
  have hunlabelled : Unlabelled [sharedInHalves] := by unfold Unlabelled; decide
  have hshared : sharedInHalves.isShared = true := by decide
  refine ⟨by decide, hunlabelled, hshared, ?_⟩
  rintro ⟨a, hplain | htrust | hsolely⟩
  · exact (hunlabelled.not_covers (by simp)).1 hplain
  · exact (hunlabelled.not_covers (by simp)).2 htrust
  · exact not_solelyAt_of_isShared List.mem_cons_self hshared hsolely

end Relation

end JointPlan
