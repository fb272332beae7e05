import JointPlan.Proofs.Sharing

/-!
# Revealing the outputs of joint computations

The second boundary pass reveals what leaves MPC. This changes where the readers are stored,
and with it which nodes need MPC, also among those that have had their turn as readers of a
node that was not revealed. Storage can change in few ways only (`Storage.Reveals`): it stays, it is
spread over the parties in the clear, or it becomes one sharing. So a joint computation stays one
as long as none of its inputs is revealed, and they are not revealed as long as it is one.
A second run finds nothing to do.
-/

namespace JointPlan

/-- What is in the second list has a counterpart in the first. -/
theorem exists_of_forall₂ {α β : Type} {R : α → β → Prop} {l : List α} {l' : List β} (h : List.Forall₂ R l l') {b : β}
    (hb : b ∈ l') : ∃ a ∈ l, R a b := by
  induction h with
  | nil => cases hb
  | @cons a _ _ _ hab _ ih =>
    rcases List.mem_cons.mp hb with rfl | hb
    · exact ⟨a, List.mem_cons_self, hab⟩
    · obtain ⟨a', ha', hR⟩ := ih hb
      exact ⟨a', List.mem_cons_of_mem _ ha', hR⟩

theorem forall₂_trans {α : Type} {R : α → α → Prop} (hR : ∀ {a b c}, R a b → R b c → R a c) {l l' l'' : List α}
    (h : List.Forall₂ R l l') (h' : List.Forall₂ R l' l'') : List.Forall₂ R l l'' := by
  induction h generalizing l'' with
  | nil => exact h'
  | cons hhead _ ih =>
    cases h' with
    | cons hhead' htail' => exact .cons (hR hhead hhead') (ih htail')

namespace IdSet

variable {s t : IdSet} {a : Nat}

theorem size_eq_one : s.size = 1 ↔ ∃ a, s = singleton a := by
  rw [size, List.length_eq_one_iff]
  constructor
  · rintro ⟨a, ha⟩
    refine ⟨a, ext fun b => ?_⟩
    rw [← mem_toList, ha]
    simp
  · rintro ⟨a, rfl⟩
    exact ⟨a, rfl⟩

theorem exists_ne_of_size_ne_one (ha : a ∈ s) (hs : s.size ≠ 1) : ∃ b ∈ s, b ≠ a := by
  by_contra hnone
  refine hs (size_eq_one.mpr ⟨a, ext fun b => ?_⟩)
  rw [mem_singleton]
  constructor
  · exact fun hb => by_contra fun hne => hnone ⟨b, hb, hne⟩
  · rintro rfl
    exact ha

end IdSet

-- ---------------------------------------------------------------------------
-- Storage
-- ---------------------------------------------------------------------------

namespace Storage

variable {st st' st'' first first' : Storage} {rest rest' : List Storage} {s : PartySet} {a : PartyId}

theorem size_eq_cardinality (hs : s ∈ st.loci) : s.size = st.cardinality :=
  st.even s hs _ (List.head_mem st.nonempty)

@[simp] theorem cardinality_singletons {h : s ≠ ∅} : (singletons s h).cardinality = 1 := by
  have hmem := List.head_mem (singletons s h).nonempty
  obtain ⟨a, -, ha⟩ := List.mem_map.mp hmem
  rw [cardinality, ← ha]
  rfl

theorem mem_members_of_loci (ha : ∀ s ∈ st.loci, a ∈ s) : a ∈ st.members :=
  mem_members.mpr ⟨_, List.head_mem st.nonempty, ha _ (List.head_mem st.nonempty)⟩

/-- What one place may turn into when sources of what is stored there are revealed. -/
def Reveals (st st' : Storage) : Prop :=
  st' = st ∨ (st'.members = st.members ∧ st'.cardinality = 1) ∨ (st' = st.shared ∧ st.cardinality ≠ 1)

namespace Reveals

theorem refl : Reveals st st := .inl rfl

theorem flattened : Reveals st st.flattened := .inr (.inl ⟨members_flattened, cardinality_singletons⟩)

theorem members_eq (h : Reveals st st') : st'.members = st.members := by
  rcases h with rfl | ⟨h, -⟩ | ⟨rfl, -⟩
  · rfl
  · exact h
  · exact members_shared

theorem cardinality_eq_one (h : Reveals st st') (hst : st.cardinality = 1) : st'.cardinality = 1 := by
  rcases h with rfl | ⟨-, h⟩ | ⟨-, h⟩
  · exact hst
  · exact h
  · exact absurd hst h

theorem trans (h : Reveals st st') (h' : Reveals st' st'') : Reveals st st'' := by
  rcases h' with rfl | ⟨hmembers, hone⟩ | ⟨rfl, hne⟩
  · exact h
  · exact .inr (.inl ⟨hmembers.trans h.members_eq, hone⟩)
  · rcases h with rfl | ⟨-, hone⟩ | ⟨rfl, hne'⟩
    · exact .inr (.inr ⟨rfl, hne⟩)
    · exact absurd hone hne
    · exact .inr (.inr ⟨Storage.shared_shared, hne'⟩)

end Reveals

theorem members_combineAll (h : List.Forall₂ Reveals (first :: rest) (first' :: rest')) :
    (combineAll first' rest').members = (combineAll first rest).members := by
  ext a
  rw [mem_members_combineAll, mem_members_combineAll]
  generalize first :: rest = l at h
  generalize first' :: rest' = l' at h
  induction h with
  | nil => simp
  | cons hhead _ ih => simp only [List.mem_cons, exists_eq_or_imp, ih, hhead.members_eq]

theorem cardinality_of_combineAll (h : (combineAll first rest).cardinality = 1) :
    ∀ st ∈ first :: rest, st.cardinality = 1 := by
  revert h
  refine combineAll_cases (motive := fun st => st.cardinality = 1 → _) (fun hsame h => ?_) (fun h _ _ => h) ?_
  · simpa [h] using fun st hst => hsame st hst ▸ h
  · -- one party in all, so every locus is that party
    intro _ hne hone st hst
    obtain ⟨b, hb⟩ := IdSet.size_eq_one.mp (show (PartySet.unionAll _).size = 1 from hone)
    have hmem := List.head_mem st.nonempty
    refine IdSet.size_eq_one.mpr ⟨b, IdSet.ext fun a => ?_⟩
    have hsub : ∀ a ∈ st.loci.head st.nonempty, a = b := by
      intro a ha
      rw [← IdSet.mem_singleton, ← hb, PartySet.mem_unionAll]
      exact ⟨st.members, List.mem_map_of_mem hst, mem_members.mpr ⟨_, hmem, ha⟩⟩
    rw [IdSet.mem_singleton]
    constructor
    · exact hsub a
    · rintro rfl
      obtain ⟨c, hc⟩ := IdSet.exists_mem_of_ne_empty (st.inhabited _ hmem)
      exact hsub c hc ▸ hc

theorem shared_eq (h : st'.members = st.members) : st'.shared = st.shared := Storage.ext (congrArg (fun s => [s]) h)

theorem flattened_eq (h : st'.members = st.members) : st'.flattened = st.flattened :=
  Storage.ext (congrArg (fun s => s.toList.map IdSet.singleton) h)

theorem shared_single {h : s ≠ ∅} : (single s h).shared = single s h := Storage.ext (congrArg (fun s => [s]) members_single)

/-- What is computed from several relations changes in the same ways as they do. -/
theorem Reveals.combineAll (h : List.Forall₂ Reveals (first :: rest) (first' :: rest')) :
    Reveals (combineAll first rest) (combineAll first' rest') := by
  have hmembers := members_combineAll h
  by_cases hone : (Storage.combineAll first' rest').cardinality = 1
  · exact .inr (.inl ⟨hmembers, hone⟩)
  have hsome : (Storage.combineAll first rest).cardinality ≠ 1 := by
    intro hcard
    have hall : ∀ st ∈ first' :: rest', st.cardinality = 1 := by
      intro st' hst'
      obtain ⟨st, hst, hreveals⟩ := exists_of_forall₂ h hst'
      exact hreveals.cardinality_eq_one (cardinality_of_combineAll hcard st hst)
    refine hone (combineAll_cases (motive := fun st => st.cardinality = 1) (fun _ => hall _ List.mem_cons_self)
      (fun _ _ => cardinality_singletons) fun hnot => absurd hall hnot)
  revert hone hmembers
  refine combineAll_cases (motive := fun st => st.members = _ → st.cardinality ≠ 1 → Reveals _ st) ?_ ?_ ?_
  · intro hsame hmembers hone
    by_cases hall : ∀ st ∈ first :: rest, st = first'
    · refine .inl ?_
      have hfirst := hall first List.mem_cons_self
      rw [Storage.combineAll, if_pos fun st hst => (hall st (List.mem_cons_of_mem _ hst)).trans hfirst.symm, hfirst]
    · -- one that differs is shared by now, and so all are
      obtain ⟨st, hst, hne⟩ : ∃ st ∈ first :: rest, st ≠ first' := by push Not at hall; exact hall
      obtain ⟨st', hst', hreveals⟩ := exists_of_forall₂ h.flip hst
      have heq : st' = first' := by
        rcases List.mem_cons.mp hst' with rfl | hst'
        · rfl
        · exact hsame st' hst'
      subst heq
      rcases hreveals with heq | ⟨-, hcard⟩ | ⟨heq, -⟩
      · exact absurd heq.symm hne
      · exact absurd hcard hone
      · exact .inr (.inr ⟨heq.trans (shared_eq (by rw [← hmembers, heq, members_shared])), hsome⟩)
  · exact fun _ _ _ hone => absurd cardinality_singletons hone
  · exact fun _ hne hmembers _ => .inr (.inr ⟨shared_single.symm.trans (shared_eq hmembers), hsome⟩)

/-- In the clear with several parties, none of which has it all. -/
def Scattered (st : Storage) : Prop := st.cardinality = 1 ∧ ∃ a ∈ st.members, ∃ b ∈ st.members, a ≠ b

namespace Scattered

theorem exists_not_mem (h : st.Scattered) (a : PartyId) : ∃ s ∈ st.loci, a ∉ s := by
  obtain ⟨hone, b, hb, c, hc, hbc⟩ := h
  obtain ⟨d, hd, hda⟩ : ∃ d ∈ st.members, d ≠ a := by
    by_cases hba : b = a
    · exact ⟨c, hc, fun hca => hbc (hba.trans hca.symm)⟩
    · exact ⟨b, hb, hba⟩
  obtain ⟨s, hs, hds⟩ := mem_members.mp hd
  obtain ⟨e, rfl⟩ := IdSet.size_eq_one.mp ((size_eq_cardinality hs).trans hone)
  rw [IdSet.mem_singleton] at hds
  exact ⟨_, hs, by rw [IdSet.mem_singleton, ← hds]; exact hda.symm⟩

theorem reveals (h : st.Scattered) (hr : Reveals st st') : st'.Scattered :=
  ⟨hr.cardinality_eq_one h.1, hr.members_eq ▸ h.2⟩

theorem flattened (h : ∃ a ∈ st.members, ∃ b ∈ st.members, a ≠ b) : st.flattened.Scattered :=
  ⟨cardinality_singletons, by rwa [members_flattened]⟩

end Scattered

/-- A party in all places stays in all of them, as long as they are not spread over the parties. -/
theorem Reveals.mem_loci (h : Reveals st st') (hst' : ¬ st'.Scattered) (ha : ∀ s ∈ st.loci, a ∈ s) :
    ∀ s ∈ st'.loci, a ∈ s := by
  have hmember := mem_members_of_loci ha
  rcases h with rfl | ⟨hmembers, hone⟩ | ⟨rfl, -⟩
  · exact ha
  · intro s hs
    obtain ⟨b, hb⟩ := IdSet.exists_mem_of_ne_empty (st'.inhabited s hs)
    suffices hba : b = a from hba ▸ hb
    by_contra hne
    exact hst' ⟨hone, b, mem_members.mpr ⟨s, hs, hb⟩, a, hmembers ▸ hmember, hne⟩
  · intro s hs
    rw [show s = st.members from List.mem_singleton.mp hs]
    exact hmember

end Storage

-- ---------------------------------------------------------------------------
-- Joint computations
-- ---------------------------------------------------------------------------

namespace Relation

open Storage

variable {rels rels' : List Relation} {a : PartyId}

/-- The parties that have a part in all places of all relations. -/
def meet (rels : List Relation) : PartySet := PartySet.interAll (rels.flatMap fun r => r.storage.loci)

theorem mem_meet (hrels : rels ≠ []) : a ∈ meet rels ↔ ∀ r ∈ rels, ∀ s ∈ r.storage.loci, a ∈ s := by
  have hne : (rels.flatMap fun r => r.storage.loci) ≠ [] := by
    obtain ⟨r, hr⟩ := List.exists_mem_of_ne_nil rels hrels
    exact List.ne_nil_of_mem (List.mem_flatMap.mpr ⟨r, hr, List.head_mem r.storage.nonempty⟩)
  rw [meet, PartySet.mem_interAll hne]
  simp only [List.mem_flatMap]
  exact ⟨fun h r hr s hs => h s ⟨r, hr, hs⟩, fun h s ⟨r, hr, hs⟩ => h r hr s hs⟩

theorem requireMpc_eq_true : requireMpc rels = true ↔ rels ≠ [] ∧ PartySet.interAll (rels.map plainAll) = ∅ ∧
    PartySet.interAll (rels.map trustAll) = ∅ ∧ (meet rels).size ≠ 1 := by
  unfold requireMpc meet
  simp only [← IdSet.isEmpty_iff]
  split_ifs <;> simp_all

/-- Several parties take part in what needs MPC. -/
theorem exists_ne_of_requireMpc {parties : PartySet} (h : requireMpc rels = true)
    (hsub : ∀ r ∈ rels, ∀ a ∈ r.storage.members, a ∈ parties) : ∃ a ∈ parties, ∃ b ∈ parties, a ≠ b := by
  obtain ⟨hne, -, -, hsize⟩ := requireMpc_eq_true.mp h
  obtain ⟨r, hr⟩ := List.exists_mem_of_ne_nil rels hne
  obtain ⟨a, ha⟩ := IdSet.exists_mem_of_ne_empty r.storage.members_ne_empty
  by_contra hnone
  have hall : ∀ b ∈ parties, b = a := fun b hb => by_contra fun hba => hnone ⟨b, hb, a, hsub r hr a ha, hba⟩
  have hmem : a ∈ meet rels := by
    refine (mem_meet hne).mpr fun r hr s hs => ?_
    obtain ⟨b, hb⟩ := IdSet.exists_mem_of_ne_empty (r.storage.inhabited s hs)
    exact hall b (hsub r hr b (mem_members.mpr ⟨s, hs, hb⟩)) ▸ hb
  obtain ⟨b, hb, hba⟩ := IdSet.exists_ne_of_size_ne_one hmem hsize
  exact hba (hall b (hsub r hr b (mem_members_of_loci ((mem_meet hne).mp hb r hr))))

/-- No single party has all of it, and this will stay so. -/
def Firm (rels : List Relation) : Prop := (∃ r ∈ rels, r.storage.Scattered) ∨
  ∃ a b, a ≠ b ∧ ∀ r ∈ rels, ∀ s ∈ r.storage.loci, a ∈ s ∧ b ∈ s

theorem Firm.size_ne_one (h : Firm rels) (hrels : rels ≠ []) : (meet rels).size ≠ 1 := by
  intro hsize
  obtain ⟨c, hc⟩ := IdSet.size_eq_one.mp hsize
  have hmem {a : PartyId} : a = c ↔ ∀ r ∈ rels, ∀ s ∈ r.storage.loci, a ∈ s := by
    rw [← mem_meet hrels, hc, IdSet.mem_singleton]
  rcases h with ⟨r, hr, hscattered⟩ | ⟨a, b, hab, hall⟩
  · obtain ⟨s, hs, hnot⟩ := hscattered.exists_not_mem c
    exact hnot (hmem.mp rfl r hr s hs)
  · exact hab ((hmem.mpr fun r hr s hs => (hall r hr s hs).1).trans (hmem.mpr fun r hr s hs => (hall r hr s hs).2).symm)

/-- The places of the relations have changed as they do when sources are revealed. -/
abbrev Follow (rels rels' : List Relation) : Prop := List.Forall₂ (fun r r' => r.storage.Reveals r'.storage) rels rels'

theorem Follow.refl : Follow rels rels := List.forall₂_same.mpr fun _ _ => .refl

theorem Follow.trans {rels'' : List Relation} (h : Follow rels rels') (h' : Follow rels' rels'') : Follow rels rels'' :=
  forall₂_trans .trans h h'

theorem Follow.mem_loci (h : Follow rels rels') (hnot : ¬ ∃ r ∈ rels', r.storage.Scattered)
    (ha : ∀ r ∈ rels, ∀ s ∈ r.storage.loci, a ∈ s) : ∀ r ∈ rels', ∀ s ∈ r.storage.loci, a ∈ s := by
  intro r' hr'
  obtain ⟨r, hr, hreveals⟩ := exists_of_forall₂ h hr'
  exact hreveals.mem_loci (fun hs => hnot ⟨r', hr', hs⟩) (ha r hr)

theorem Firm.follow (h : Firm rels) (hfollow : Follow rels rels') : Firm rels' := by
  by_cases hscattered : ∃ r ∈ rels', r.storage.Scattered
  · exact .inl hscattered
  rcases h with ⟨r, hr, hs⟩ | ⟨a, b, hab, hall⟩
  · obtain ⟨r', hr', hreveals⟩ := exists_of_forall₂ hfollow.flip hr
    exact .inl ⟨r', hr', hs.reveals hreveals⟩
  · have ha := hfollow.mem_loci hscattered fun r hr s hs => (hall r hr s hs).1
    have hb := hfollow.mem_loci hscattered fun r hr s hs => (hall r hr s hs).2
    exact .inr ⟨a, b, hab, fun r hr s hs => ⟨ha r hr s hs, hb r hr s hs⟩⟩

/-- Where one party had it all and none has any longer, none will ever have. -/
theorem firm_of_follow (hfollow : Follow rels rels') (hrels : rels' ≠ []) (hone : (meet rels).size = 1)
    (hne : (meet rels').size ≠ 1) : Firm rels' := by
  by_cases hscattered : ∃ r ∈ rels', r.storage.Scattered
  · exact .inl hscattered
  have hrels₀ : rels ≠ [] := by
    rintro rfl
    exact hrels (List.forall₂_nil_left_iff.mp hfollow)
  obtain ⟨a, ha⟩ := IdSet.size_eq_one.mp hone
  have hmem : a ∈ meet rels' := (mem_meet hrels).mpr <| hfollow.mem_loci hscattered <| (mem_meet hrels₀).mp <| by simp [ha]
  obtain ⟨b, hb, hba⟩ := IdSet.exists_ne_of_size_ne_one hmem hne
  exact .inr ⟨a, b, hba.symm, fun r hr s hs => ⟨(mem_meet hrels).mp hmem r hr s hs, (mem_meet hrels).mp hb r hr s hs⟩⟩

/-- Shares in one place, of several parties. -/
theorem firm_of_shared {st : Storage} (h : ∀ r ∈ rels, r.storage = st.shared) (hmpc : requireMpc rels = true) :
    Firm rels := by
  obtain ⟨hrels, -, -, hsize⟩ := requireMpc_eq_true.mp hmpc
  have hmem {a : PartyId} : a ∈ meet rels ↔ a ∈ st.members := by
    rw [mem_meet hrels]
    constructor
    · intro hall
      obtain ⟨r, hr⟩ := List.exists_mem_of_ne_nil rels hrels
      exact hall r hr st.members (by simp [h r hr, shared, single])
    · intro ha r hr s hs
      rw [h r hr] at hs
      rwa [show s = st.members from List.mem_singleton.mp hs]
  obtain ⟨a, ha⟩ := IdSet.exists_mem_of_ne_empty st.members_ne_empty
  obtain ⟨b, hb, hba⟩ := IdSet.exists_ne_of_size_ne_one (hmem.mpr ha) hsize
  exact .inr ⟨a, b, hba.symm, fun r hr s hs =>
    ⟨(mem_meet hrels).mp (hmem.mpr ha) r hr s hs, (mem_meet hrels).mp hb r hr s hs⟩⟩

/-- If two relations have the same columns they have the same labels. -/
theorem requireMpc_of_columns_eq (hcolumns : List.Forall₂ (fun r r' : Relation => r'.columns = r.columns) rels rels') :
    requireMpc rels' = true ↔ rels ≠ [] ∧ PartySet.interAll (rels.map plainAll) = ∅ ∧
      PartySet.interAll (rels.map trustAll) = ∅ ∧ (meet rels').size ≠ 1 := by
  have hmap {f : Relation → PartySet} (hf : ∀ r r' : Relation, r'.columns = r.columns → f r' = f r) :
      rels'.map f = rels.map f := by
    induction hcolumns with
    | nil => rfl
    | cons hhead _ ih => rw [List.map_cons, List.map_cons, ih, hf _ _ hhead]
  have hnil : rels' ≠ [] ↔ rels ≠ [] := by
    rw [← List.length_pos_iff, ← List.length_pos_iff, hcolumns.length_eq]
  have hplain : rels'.map plainAll = rels.map plainAll := hmap fun r r' h => congrArg Column.mergedPlain h
  have htrust : rels'.map trustAll = rels.map trustAll := hmap fun r r' h => congrArg Column.mergedTrust h
  rw [requireMpc_eq_true, hnil, hplain, htrust]

section Follow

variable (hcolumns : List.Forall₂ (fun r r' : Relation => r'.columns = r.columns) rels rels') (hfollow : Follow rels rels')

include hcolumns hfollow

/-- A joint computation stays one when its inputs change their places. -/
theorem Firm.requireMpc (h : Firm rels) (hmpc : requireMpc rels = true) : requireMpc rels' = true := by
  obtain ⟨hrels, hplain, htrust, -⟩ := requireMpc_eq_true.mp hmpc
  have hrels' : rels' ≠ [] := by
    rintro rfl
    exact hrels (List.forall₂_nil_right_iff.mp hcolumns)
  exact (requireMpc_of_columns_eq hcolumns).mpr ⟨hrels, hplain, htrust, (h.follow hfollow).size_ne_one hrels'⟩

/-- What has become a joint computation because its inputs changed their places remains one. -/
theorem firm_of_requireMpc (h : Relation.requireMpc rels = true → Firm rels) (hmpc : Relation.requireMpc rels' = true) :
    Firm rels' := by
  obtain ⟨hrels, hplain, htrust, hne⟩ := (requireMpc_of_columns_eq hcolumns).mp hmpc
  by_cases hone : (meet rels).size = 1
  · exact firm_of_follow hfollow (requireMpc_eq_true.mp hmpc).1 hone hne
  · exact (h (requireMpc_eq_true.mpr ⟨hrels, hplain, htrust, hone⟩)).follow hfollow

end Follow

end Relation

namespace Op

open Boundary Storage

variable {op : Op} {ins ins' : List Relation} {st st' : Storage}

/-- The place of what an operator yields changes as those of its inputs do. -/
theorem outputStorage?_follow (hst : op.outputStorage? ins = .ok (some st)) (hst' : op.outputStorage? ins' = .ok (some st'))
    (h : Relation.Follow ins ins') : st.Reveals st' := by
  cases hsource : op.isSource with
  | true =>
    obtain ⟨recipients, rfl, -⟩ := collect_of_outputStorage? hsource hst
    cases Except.ok.inj (hst.symm.trans hst' :)
    exact .refl
  | false =>
    by_cases hclosing : IsClosing op
    · obtain ⟨st₀, rfl⟩ := hclosing
      cases Except.ok.inj (hst.symm.trans hst' :)
      exact .refl
    by_cases hop : op.arity = .unary
    · cases h with
      | nil => cases op <;> simp_all [outputStorage?, isSource, arity, input, IsClosing]
      | cons hhead _ =>
        by_cases hopen : op = .opening
        · subst hopen
          cases hst
          cases hst'
          exact .inl (flattened_eq hhead.members_eq)
        · have heq := (outputStorage?_of_unary hop hsource hclosing hst).resolve_right fun h => hopen h.1
          have heq' := (outputStorage?_of_unary hop hsource hclosing hst').resolve_right fun h => hopen h.1
          exact heq ▸ heq' ▸ hhead
    · obtain ⟨r, rest, rfl, rfl⟩ := outputStorage?_of_multi hop hsource hst
      obtain ⟨r', rest', rfl, rfl⟩ := outputStorage?_of_multi hop hsource hst'
      exact Reveals.combineAll (by simpa [List.forall₂_map_left_iff, List.forall₂_map_right_iff] using h)

end Op

namespace Plan

open Boundary

variable {p q r : Plan} {k u v x parent : NodeId} {n m o : Node} {cs : NodeSet} {rest : List NodeId} {ins ins' : List Relation}

-- ---------------------------------------------------------------------------
-- Storage that is behind
-- ---------------------------------------------------------------------------

/-- Inputs that correspond to each other yield relations that do. -/
theorem forall₂_inputRelations {R : Relation → Relation → Prop} (hn : p.nodes.get? k = some n) (hm : q.nodes.get? k = some m)
    (hins : p.inputRelations k = .ok ins) (hins' : q.inputRelations k = .ok ins')
    (h : List.Forall₂ (fun u v => ∀ a b, p.nodes.get? u = some a → q.nodes.get? v = some b → R a.rel b.rel)
      n.inputs.ids m.inputs.ids) : List.Forall₂ R ins ins' := by
  obtain ⟨n', hn', hall⟩ := inputRelations_eq_ok.mp hins
  obtain ⟨m', hm', hall'⟩ := inputRelations_eq_ok.mp hins'
  cases hn.symm.trans hn'
  cases hm.symm.trans hm'
  clear hins hins'
  generalize n.inputs.ids = ids at h hall
  generalize m.inputs.ids = ids' at h hall'
  induction h generalizing ins ins' with
  | nil =>
    cases hall
    cases hall'
    exact .nil
  | cons hhead _ ih =>
    cases hall with
    | cons ha hall =>
      cases hall' with
      | cons hb hall' =>
        obtain ⟨a, ha, rfl⟩ := ha
        obtain ⟨b, hb, rfl⟩ := hb
        exact .cons (hhead a b ha hb) (ih hall hall')

/-- Nodes are stored as follows from where their inputs have been stored at some time. -/
def Lagging (p : Plan) : Prop := ∀ k n ins, p.nodes.get? k = some n → n.op ≠ .create → p.inputRelations k = .ok ins →
  ∃ ins₀, Relation.Follow ins₀ ins ∧ n.op.outputStorage? ins₀ = .ok (some n.rel.storage)

theorem Stowed.lagging (h : p.Stowed) : p.Lagging := by
  intro k n ins hn hop hins
  obtain ⟨ins', hins', hst⟩ := (h k n hn hop).outputStorage? Node.restored_derivation hn hop
  cases hins.symm.trans hins'
  exact ⟨ins, .refl, hst⟩

/-- Relations have kept their columns and changed their places. -/
def Moved (p q : Plan) : Prop := ∀ k n, p.nodes.get? k = some n →
  ∃ m, q.nodes.get? k = some m ∧ m.rel.columns = n.rel.columns ∧ n.rel.storage.Reveals m.rel.storage

theorem Moved.refl : Moved p p := fun _ n hn => ⟨n, hn, rfl, .refl⟩

theorem Moved.trans (h : Moved p q) (h' : Moved q r) : Moved p r := by
  intro k n hn
  obtain ⟨m, hm, hcolumns, hst⟩ := h k n hn
  obtain ⟨l, hl, hcolumns', hst'⟩ := h' k m hm
  exact ⟨l, hl, hcolumns'.trans hcolumns, hst.trans hst'⟩

/-- Where the inputs are the same nodes, they have kept their columns and changed their places. -/
theorem Moved.inputRelations (h : Moved p q) (hn : p.nodes.get? k = some n) (hm : q.nodes.get? k = some m)
    (hins : p.inputRelations k = .ok ins) (hins' : q.inputRelations k = .ok ins') (hinputs : m.inputs = n.inputs) :
    List.Forall₂ (fun r r' : Relation => r'.columns = r.columns) ins ins' ∧ Relation.Follow ins ins' := by
  have hboth : List.Forall₂ (fun r r' : Relation => r'.columns = r.columns ∧ r.storage.Reveals r'.storage) ins ins' := by
    refine forall₂_inputRelations hn hm hins hins' ?_
    rw [hinputs, List.forall₂_same]
    intro u _ a b ha hb
    obtain ⟨b', hb', hmoved⟩ := h u a ha
    cases hb.symm.trans hb'
    exact hmoved
  exact ⟨hboth.imp fun _ _ => And.left, hboth.imp fun _ _ => And.right⟩

/-- Bringing one node up to date leaves those behind that it feeds. -/
theorem Lagging.refreshStorage {w : Unit} (h : p.Lagging) (hp : p.Linked) (run : Edit.refreshStorage x p = .ok w q) :
    q.Lagging ∧ Moved p q := by
  obtain ⟨ins, n, m, hins, hn, hm, rfl⟩ := Edit.run_derive.mp run
  obtain ⟨hop, st?, hst, hstorage⟩ := Node.restored_derivation.storage hm
  obtain ⟨hcolumns, hinputs⟩ : m.rel.columns = n.rel.columns ∧ m.inputs = n.inputs := by
    obtain ⟨-, -, -, rfl⟩ := Node.run_refreshStorage.mp hm
    exact ⟨rfl, rfl⟩
  have hcreate (hop : n.op ≠ .create) : st? = some m.rel.storage := by
    cases st? with
    | none => exact absurd (Op.eq_create_of_outputStorage? hst) hop
    | some st => rw [hstorage, Option.getD_some]
  have hmoved : Moved p (p.set x m) := by
    intro k l hl
    by_cases hk : k = x
    · subst hk
      cases hn.symm.trans hl
      refine ⟨m, by rw [get?_set, if_pos rfl], hcolumns, ?_⟩
      by_cases hne : n.op = .create
      · rw [hne, Op.outputStorage?, Except.ok.injEq] at hst
        rw [hstorage, ← hst]
        exact .refl
      · obtain ⟨ins₀, hfollow, hst₀⟩ := h k n ins hn hne hins
        exact Op.outputStorage?_follow hst₀ (hcreate hne ▸ hst) hfollow
    · exact ⟨l, by rw [get?_set, if_neg hk, hl], rfl, .refl⟩
  refine ⟨fun k l ins' hl hne hins' => ?_, hmoved⟩
  have hl' := hl
  rw [get?_set] at hl'
  split at hl'
  case isTrue hk =>
    subst hk
    cases hl'
    -- a node does not feed itself, so what feeds it is as before
    have heq : List.Forall₂ Eq ins ins' := by
      refine forall₂_inputRelations hn hl hins hins' ?_
      rw [hinputs, List.forall₂_same]
      intro u hu a b ha hb
      have hu : u ≠ k := by
        rintro rfl
        exact hp.not_feeds_self ⟨n, hn, hu⟩
      rw [get?_set, if_neg hu, ha] at hb
      rw [Option.some.inj hb]
    rw [List.forall₂_eq_eq_eq] at heq
    subst heq
    have hne' : n.op ≠ .create := by
      rintro heq
      rw [hop, heq] at hne
      exact hne rfl
    exact ⟨ins, .refl, by rw [hop, Node.outputStorage?_fill, hst, hcreate hne']⟩
  case isFalse hk =>
    obtain ⟨ins'', hins''⟩ := exists_inputRelations hl' (hp.exists_input hl')
    obtain ⟨ins₀, hfollow, hst₀⟩ := h k l ins'' hl' hne hins''
    exact ⟨ins₀, hfollow.trans (hmoved.inputRelations hl' hl hins'' hins' rfl).2, hst₀⟩

theorem Lagging.refreshStorages {l : List NodeId} {w : Unit} (h : p.Lagging) (hp : p.Coherent)
    (run : l.forM Edit.refreshStorage p = .ok w q) : q.Lagging ∧ Moved p q := by
  have hloop := forM_loop (motive := fun _ r => r.Coherent ∧ r.Lagging ∧ Moved p r)
    (fun c _ r s ⟨hr, hlag, hmoved⟩ hstep => by
      obtain ⟨hlag', hmoved'⟩ := hlag.refreshStorage hr.toLinked hstep
      exact ⟨hr.of_outline_eq (Edit.Renews.refreshStorage hstep).outline, hlag', hmoved.trans hmoved'⟩) ⟨hp, h, .refl⟩ run
  exact hloop.2

/-- What has been put behind a node is in the clear, and the readers of the node are behind. -/
theorem Lagging.splice {rel : Relation} (h : p.Lagging) (hp : p.Coherent) (ho : p.nodes.get? parent = some o)
    (hst : rel.storage = o.rel.storage.flattened) : (p.splice parent cs .opening rel).Lagging := by
  have hparent := hp.ne_nextId ho
  have hrel : (p.splice parent cs .opening rel).nodes.get? parent = some (relinked parent p.nextId cs parent o) := by
    rw [get?_splice, if_neg hparent, ho, Option.map_some]
  intro k m ins' hm hop hins'
  obtain ⟨rfl, rfl⟩ | ⟨hk, n, hn, rfl⟩ := get?_splice_eq_some hm
  · obtain ⟨m', hm', hall⟩ := inputRelations_eq_ok.mp hins'
    cases hm.symm.trans hm'
    simp only [Inputs.ids_unary] at hall
    cases hall with
    | cons hhead htail =>
      cases htail
      obtain ⟨o', ho', rfl⟩ := hhead
      cases hrel.symm.trans ho'
      refine ⟨_, .refl, ?_⟩
      simp [Op.outputStorage?, Op.input, hst, Functor.map, Except.map]
  · obtain ⟨ins, hins⟩ := exists_inputRelations hn (hp.toLinked.exists_input hn)
    rw [relinked_op] at hop ⊢
    rw [relinked_rel]
    obtain ⟨ins₀, hfollow, hst₀⟩ := h k n ins hn hop hins
    refine ⟨ins₀, hfollow.trans ?_, hst₀⟩
    have hsame {u : NodeId} {a b : Node} (hu : u ≠ p.nextId) (ha : p.nodes.get? u = some a)
        (hb : (p.splice parent cs .opening rel).nodes.get? u = some b) : a.rel.storage.Reveals b.rel.storage := by
      rw [get?_splice, if_neg hu, ha, Option.map_some, Option.some.injEq] at hb
      rw [← hb, relinked_rel]
      exact .refl
    refine forall₂_inputRelations hn hm hins hins' ?_
    rw [relinked_inputs]
    split
    · rw [Inputs.replace, Inputs.ids_map, List.forall₂_map_right_iff, List.forall₂_same]
      intro u hu a b ha hb
      split at hb
      case isTrue hu =>
        subst hu
        cases ho.symm.trans ha
        rw [get?_splice, if_pos rfl, Option.some.injEq] at hb
        rw [← hb]
        exact hst ▸ .flattened
      case isFalse => exact hsame (hp.ne_nextId ha) ha hb
    · exact List.forall₂_same.mpr fun u hu a b ha hb => hsame (hp.ne_nextId ha) ha hb

theorem Lagging.opening (h : p.Lagging) (hp : p.Coherent) (hinserted : p.Inserted parent cs .opening q)
    (ho : p.nodes.get? parent = some o) : q.Lagging ∧ Moved p q ∧
      ∃ new, q.nodes.get? p.nextId = some new ∧ new.op = .opening ∧ new.rel.storage = o.rel.storage.flattened := by
  have hflattened {rel : Relation} (hemits : Op.opening.Emits o.rel rel) : rel.storage = o.rel.storage.flattened := by
    simpa [Op.outputStorage?, Op.input, Functor.map, Except.map, eq_comm] using hemits.1
  obtain ⟨o', rel, ho', hemits, run⟩ := hinserted.derived
  obtain ⟨rel', spliced⟩ := hinserted.spliced
  obtain ⟨_, ho'', hcs⟩ := spliced.subset
  cases ho.symm.trans ho'
  cases ho.symm.trans ho''
  obtain ⟨hlag, hmoved⟩ := (h.splice hp ho (hflattened hemits)).refreshStorages
    (hp.splice ho hcs spliced.arity spliced.room) run
  obtain ⟨new, hnew, hop, hemits'⟩ := hinserted.new hp ho
  refine ⟨hlag, Moved.trans (fun k n hn => ?_) hmoved, new, hnew, hop, hflattened hemits'⟩
  exact ⟨relinked parent p.nextId cs k n, by rw [get?_splice, if_neg (hp.ne_nextId hn), hn, Option.map_some],
    by rw [relinked_rel], relinked_rel (n := n) ▸ .refl⟩

-- ---------------------------------------------------------------------------
-- Nodes that need MPC
-- ---------------------------------------------------------------------------

/-- A node away from the border looks at what feeds it. -/
theorem Linked.requiresMpc_of_inner (hp : p.Linked) (hn : p.nodes.get? k = some n) (hinner : n.op.isInner = true)
    (hcreate : n.op ≠ .create) (hins : p.inputRelations k = .ok ins) :
    p.requiresMpc k = .ok (Relation.requireMpc ins) := by
  rw [hp.requiresMpc_eq, requiresMpcGiven, node_eq_ok.mpr hn]
  simp only [bind, Except.bind, hins]
  cases hcase : n.op <;> first | rfl | simp_all [Op.isInner]

theorem Linked.requiresMpc_of_multi (hp : p.Linked) (hn : p.nodes.get? k = some n)
    (hop : n.op.arity = .binary ∨ n.op.arity = .nary) (hins : p.inputRelations k = .ok ins) :
    p.requiresMpc k = .ok (Relation.requireMpc ins) := by
  apply hp.requiresMpc_of_inner hn _ _ hins <;> cases hcase : n.op <;> simp_all [Op.arity, Op.isInner]

/-- Several parties take part in a joint computation. -/
theorem Lagging.exists_ne (h : p.Lagging) (hp : p.Coherent) (hn : p.nodes.get? k = some n) (hop : n.op.isBoundary = false)
    (hmpc : p.requiresMpc k = .ok true) : ∃ a ∈ n.rel.storage.members, ∃ b ∈ n.rel.storage.members, a ≠ b := by
  obtain ⟨ins, hins⟩ := exists_inputRelations hn (hp.toLinked.exists_input hn)
  obtain ⟨rels, hrels, hsub⟩ : ∃ rels, Relation.requireMpc rels = true ∧
      ∀ r ∈ rels, ∀ a ∈ r.storage.members, a ∈ n.rel.storage.members := by
    rw [hp.toLinked.requiresMpc_eq, requiresMpcGiven, node_eq_ok.mpr hn] at hmpc
    simp only [bind, Except.bind, hins] at hmpc
    by_cases hcreate : n.op = .create
    · rw [hcreate] at hmpc
      exact ⟨[n.rel], Except.ok.inj hmpc, by simp⟩
    obtain ⟨ins₀, hfollow, hst⟩ := h k n ins hn hcreate hins
    have hmpc' : Relation.requireMpc ins = true ∧ n.op.isSource = false ∧ ¬ IsClosing n.op := by
      cases hcase : n.op <;> rw [hcase] at hmpc hop <;>
        first
          | exact ⟨Except.ok.inj hmpc, rfl, by rintro ⟨_, h⟩; cases h⟩
          | exact absurd hcase hcreate
          | exact absurd (Except.ok.inj hmpc : false = true) Bool.false_ne_true
          | exact Bool.noConfusion (hop : true = false)
    refine ⟨ins, hmpc'.1, fun r hr a ha => ?_⟩
    obtain ⟨r₀, hr₀, hreveals⟩ := exists_of_forall₂ hfollow hr
    refine (Op.mem_members_outputStorage? hst (fun hunary => ?_) hmpc'.2.1 hmpc'.2.2).mpr ⟨r₀, hr₀, hreveals.members_eq ▸ ha⟩
    obtain ⟨r', rfl⟩ := hp.inputRelations_of_unary hn hunary hins
    cases hfollow with
    | cons _ htail => exact ⟨_, by rw [List.forall₂_nil_right_iff.mp htail]⟩
  exact Relation.exists_ne_of_requireMpc hrels hsub

-- ---------------------------------------------------------------------------
-- The invariant of the sweep
-- ---------------------------------------------------------------------------

/-- A joint computation that feeds something feeds a joint step. -/
def Revealed (p : Plan) (k : NodeId) : Prop :=
  p.requiresMpc k = .ok true → ∀ v, p.Feeds k v → ∃ c, p.Feeds k c ∧ p.requiresMpc c = .ok true

/-- What holds when the nodes in `rest` are still to be visited: nothing is left to be revealed among the
others, and joint computations stay what they are. -/
structure Revealing (rest : List NodeId) (p : Plan) : Prop where
  coherent : p.Coherent
  ordered : p.Ordered rest
  pending : ∀ u ∈ rest, p.contains u = true
  lagging : p.Lagging
  firm : ∀ k n ins, p.nodes.get? k = some n → (n.op.arity = .binary ∨ n.op.arity = .nary) →
    p.inputRelations k = .ok ins → Relation.requireMpc ins = true → Relation.Firm ins
  revealed : ∀ k n, p.nodes.get? k = some n → n.op.isBoundary = false → k ∉ rest → p.Revealed k

/-- When all inputs of joint computations are shares the sweep can begin. -/
theorem Sharing.revealing {order : List NodeId} (h : Sharing [] p) (horder : p.topSort = .ok order) :
    Revealing order p where
  coherent := h.coherent
  ordered := ordered_of_topSortFrom horder
  pending _ hu := (h.coherent.mem_topSort horder).mp hu
  lagging := Stowed.lagging fun k n hn hop => h.steady k n hn hop List.not_mem_nil
  firm k n ins hn hop hins hmpc := by
    refine Relation.firm_of_shared (fun r hr => show r.storage = n.rel.storage.shared from ?_) hmpc
    have hmpc' := (h.coherent.toLinked.requiresMpc_of_multi hn hop hins).trans (congrArg _ hmpc)
    obtain ⟨u, hu, m, hm, rfl⟩ := (mem_inputRelations hins hn).mp hr
    obtain ⟨⟨m', hm', hst⟩, -⟩ := h.joint k n hn hop List.not_mem_nil hmpc' u ⟨n, hn, hu⟩
    rwa [Option.some.inj (hm.symm.trans hm')]
  revealed k n hn _ hk :=
    absurd ((h.coherent.mem_topSort horder).mpr (contains_of_get? hn)) hk

namespace Revealing

theorem skip (h : Revealing (x :: rest) p)
    (hx : ∀ n, p.nodes.get? x = some n → n.op.isBoundary = false → p.Revealed x) : Revealing rest p where
  coherent := h.coherent
  ordered := h.ordered.2.2
  pending u hu := h.pending u (List.mem_cons_of_mem _ hu)
  lagging := h.lagging
  firm := h.firm
  revealed k n hn hop hk := by
    by_cases hkx : k = x
    · subst hkx
      exact hx n hn hop
    · exact h.revealed k n hn hop (by simp [hkx, hk])

section Opened

variable (h : Revealing (x :: rest) p) (hn : p.nodes.get? x = some n) (hinserted : p.Inserted x n.children .opening q)

include h hn hinserted

/-- Only what the opened node has fed is derived again. -/
theorem alike (hu : u ≠ p.nextId) (hxu : ¬ p.Feeds x u) : Alike p q u := by
  refine hinserted.framed.alike u ?_
  rintro (hnew | hmem)
  · exact hu hnew
  · exact hxu ((h.coherent.children hn).mp hmem)

theorem alike_above : ∀ u ∈ p.above (x :: rest), Alike p q u := by
  intro u hu
  obtain ⟨m, hm⟩ := Option.isSome_iff_exists.mp hu.1
  refine h.alike hn hinserted (h.coherent.ne_nextId hm) fun hxu => hu.2 ?_
  exact h.coherent.mem_of_feeds h.ordered List.mem_cons_self hxu

theorem firm_of_opening (hop : n.op.isBoundary = false) (hmpc : p.requiresMpc x = .ok true) (hm : q.nodes.get? k = some m)
    (hmulti : m.op.arity = .binary ∨ m.op.arity = .nary) (hins' : q.inputRelations k = .ok ins')
    (hmpc' : Relation.requireMpc ins' = true) : Relation.Firm ins' := by
  obtain ⟨-, hmoved, new, hnew, hopening, hstorage⟩ := h.lagging.opening h.coherent hinserted hn
  have hk : k ≠ p.nextId := by
    rintro rfl
    cases hnew.symm.trans hm
    simp [hopening, Op.arity] at hmulti
  by_cases hxk : p.Feeds x k
  · -- the node now reads what has been opened
    have hfeeds : q.Feeds p.nextId k := by
      rw [hinserted.feeds, if_neg hk, if_pos ((h.coherent.children hn).mpr hxk)]
      exact .inl ⟨rfl, hxk⟩
    obtain ⟨m', hm', hu⟩ := hfeeds
    cases hm.symm.trans hm'
    refine .inl ⟨new.rel, (mem_inputRelations hins' hm).mpr ⟨_, hu, new, hnew, rfl⟩, ?_⟩
    rw [hstorage]
    exact .flattened (h.lagging.exists_ne h.coherent hn hop hmpc)
  · obtain ⟨m₀, hm₀, hshape⟩ := (h.alike hn hinserted hk hxk).symm.get? hm
    have hop₀ : m₀.op = m.op := (congrArg Node.op hshape :)
    have hinputs : m₀.inputs = m.inputs := (congrArg Node.inputs hshape :)
    obtain ⟨ins, hins⟩ := exists_inputRelations hm₀ (h.coherent.toLinked.exists_input hm₀)
    obtain ⟨hcolumns, hfollow⟩ := hmoved.inputRelations hm₀ hm hins hins' hinputs.symm
    exact Relation.firm_of_requireMpc hcolumns hfollow (h.firm k m₀ ins hm₀ (hop₀ ▸ hmulti) hins) hmpc'

/-- What a node feeds that has had its turn remains a joint step. -/
theorem requiresMpc_of_opening (hlower : p.isLowerBoundary x = .ok true) (hu : u ∈ p.above (x :: rest)) (huv : p.Feeds u v)
    (hmpc : p.requiresMpc v = .ok true) : q.requiresMpc v = .ok true := by
  obtain ⟨-, hmoved, -⟩ := h.lagging.opening h.coherent hinserted hn
  have hq := (hinserted.coherent h.coherent).toLinked
  have hclosed := h.coherent.above_closed h.ordered
  have ⟨m, hm, hmem⟩ := huv
  have hxv : ¬ p.Feeds x v := by
    intro hxv
    have hfalse := ((isLowerBoundary_eq_true hn).mp hlower).2 v ((h.coherent.children hn).mpr hxv)
    rw [hmpc] at hfalse
    cases hfalse
  have halike := h.alike hn hinserted (h.coherent.ne_nextId hm) hxv
  obtain ⟨m', hm', hshape⟩ := halike.get? hm
  have hop : m'.op = m.op := (congrArg Node.op hshape :)
  have hinputs : m'.inputs = m.inputs := (congrArg Node.inputs hshape :)
  -- one input is the node that has had its turn; several may have moved, but not to one party
  have hmulti (harity : m.op.arity = .binary ∨ m.op.arity = .nary) : q.requiresMpc v = .ok true := by
    obtain ⟨ins, hins⟩ := exists_inputRelations hm (h.coherent.toLinked.exists_input hm)
    obtain ⟨ins', hins'⟩ := exists_inputRelations hm' (hq.exists_input hm')
    rw [h.coherent.toLinked.requiresMpc_of_multi hm harity hins, Except.ok.injEq] at hmpc
    rw [hq.requiresMpc_of_multi hm' (hop ▸ harity) hins', Except.ok.injEq]
    obtain ⟨hcolumns, hfollow⟩ := hmoved.inputRelations hm hm' hins hins' hinputs
    exact (h.firm v m ins hm harity hins hmpc).requireMpc hcolumns hfollow hmpc
  cases harity : m.op.arity
  case nullary =>
    have hfits := h.coherent.fits hm
    cases hin : m.inputs <;> simp [hin, harity, Inputs.fits, Inputs.ids] at hfits hmem
  case unary =>
    obtain ⟨u', honly⟩ := h.coherent.exists_feeder hm harity
    obtain rfl := (honly u).mp huv
    have habove : ∀ a b, p.Feeds a b → b ∈ insert v (p.above (x :: rest)) → a ∈ insert v (p.above (x :: rest)) := by
      rintro a b hab (rfl | hb)
      · exact .inr ((honly a).mp hab ▸ hu)
      · exact .inr (hclosed a b hab hb)
    refine (h.coherent.toLinked.requiresMpc_alike hq habove ?_ v (Set.mem_insert _ _)).trans hmpc
    rintro a (rfl | ha)
    · exact halike
    · exact h.alike_above hn hinserted a ha
  case binary => exact hmulti (.inl harity)
  case nary => exact hmulti (.inr harity)

theorem opened (hop : n.op.isBoundary = false) (hlower : p.isLowerBoundary x = .ok true) : Revealing rest q := by
  obtain ⟨hlagging, hmoved, new, hnew, hopening, -⟩ := h.lagging.opening h.coherent hinserted hn
  have hq := hinserted.coherent h.coherent
  have hclosed := h.coherent.above_closed h.ordered
  have hmpc := ((isLowerBoundary_eq_true hn).mp hlower).1
  have hold {u : NodeId} (hu : u ∈ rest) : u ≠ x ∧ ∃ m, p.nodes.get? u = some m :=
    ⟨fun hux => h.ordered.1 (hux ▸ hu), Option.isSome_iff_exists.mp (h.pending u (List.mem_cons_of_mem _ hu))⟩
  constructor
  case coherent => exact hq
  case ordered =>
    refine h.ordered.2.2.congr (fun u hu => ?_) fun u hu w huw _ => ?_
    · obtain ⟨hux, m, hm⟩ := hold hu
      exact hinserted.framed.children u (by simp [hux, h.coherent.ne_nextId hm])
    · have ⟨m, hm, _⟩ := h.coherent.edge_iff.mp huw
      simp [contains, IdMap.contains, hm]
  case pending =>
    intro u hu
    obtain ⟨-, m, hm⟩ := hold hu
    obtain ⟨m', hm', -⟩ := hmoved u m hm
    simp [contains, IdMap.contains, hm']
  case lagging => exact hlagging
  case firm => exact fun k m ins hm hmulti hins => h.firm_of_opening hn hinserted hop hmpc hm hmulti hins
  case revealed =>
    intro k m hm hplain hk hkmpc v hkv
    by_cases hknew : k = p.nextId
    · subst hknew
      cases hnew.symm.trans hm
      rw [hopening] at hplain
      cases hplain
    by_cases hkx : k = x
    · subst hkx
      refine ⟨p.nextId, ?_, hq.toLinked.requiresMpc_opening hnew hopening⟩
      rw [hinserted.feeds, if_pos rfl]
    -- all else has had its turn before
    have hkv' := (hinserted.feeds_old h.coherent hkx hknew).mp hkv
    obtain ⟨m₀, hm₀⟩ := h.coherent.closed hkv'
    have habove : k ∈ p.above (x :: rest) := mem_above hm₀ (by simp [hkx, hk])
    have halike := h.alike_above hn hinserted
    obtain ⟨m', hm', hshape⟩ := (halike k habove).get? hm₀
    cases hm.symm.trans hm'
    rw [h.coherent.toLinked.requiresMpc_alike hq.toLinked hclosed halike k habove] at hkmpc
    have hopm : m.op = m₀.op := (congrArg Node.op hshape :)
    obtain ⟨c, hkc, hc⟩ := h.revealed k m₀ hm₀ (hopm ▸ hplain) habove.2 hkmpc v hkv'
    exact ⟨c, (hinserted.feeds_old h.coherent hkx hknew).mpr hkc,
      h.requiresMpc_of_opening hn hinserted hlower habove hkc hc⟩

end Opened

end Revealing

end Plan

namespace Pass

open Plan Edit Boundary

variable {p q : Plan} {k : NodeId} {n : Node} {u : Unit}

theorem revealing_of_visitOpen {rest : List NodeId} (h : Revealing (k :: rest) p) (hn : p.nodes.get? k = some n)
    (run : insertOpen.visit k n.op p = .ok u q) : Revealing rest q := by
  simp only [insertOpen] at run
  split at run
  case isTrue hop =>
    obtain ⟨-, rfl⟩ := run_pure.mp run
    refine h.skip fun m hm hplain => ?_
    cases hn.symm.trans hm
    rw [hop] at hplain
    cases hplain
  case isFalse hop =>
    obtain ⟨rfl, hstays⟩ | ⟨hlower, inserted⟩ := run_openOutput h.coherent hn run
    · refine h.skip fun m hm hplain hmpc v hkv => ?_
      cases hn.symm.trans hm
      rcases hstays with hleaf | hlower
      · have hmem := (h.coherent.children hn).mpr hkv
        rw [IdSet.isEmpty_iff.mp hleaf] at hmem
        exact absurd hmem (IdSet.not_mem_empty v)
      · by_contra hnone
        have hlocal : q.isLowerBoundary k = .ok true := by
          refine (isLowerBoundary_eq_true hn).mpr ⟨hmpc, fun c hc => ?_⟩
          have hkc := (h.coherent.children hn).mp hc
          obtain ⟨m, hm, -⟩ := (h.coherent.children hn).mp hc
          obtain ⟨flag, hflag⟩ := h.coherent.toLinked.exists_requiresMpc hm
          cases flag with
          | false => exact hflag
          | true => exact absurd ⟨c, hkc, hflag⟩ hnone
        rw [hlower] at hlocal
        cases hlocal
    · exact h.opened hn inserted (Bool.eq_false_iff.mpr hop) hlower

/-- The second boundary pass leaves nothing to be revealed. -/
theorem revealing_of_insertOpen (hp : Sharing [] p) (run : insertOpen.run p = .ok u q) :
    Revealing [] q := by
  obtain ⟨r, hr, -, hfinish⟩ := exists_of_visits (motive := Revealing) hp.coherent (fun _ _ => insertOpen_visit_reworks) (fun order horder => hp.revealing horder)
    (fun h _ hn hvisit => revealing_of_visitOpen h hn hvisit) run
  obtain ⟨-, rfl⟩ := run_pure.mp hfinish
  exact hr

theorem insertOpen_of_revealing (hp : Revealing [] p) : insertOpen.run p = .ok () p := by
  refine run_of_stays hp.coherent (fun k n hn => ?_) rfl
  simp only [insertOpen]
  split
  case isTrue => rfl
  case isFalse hop =>
    refine run_bind.mpr ⟨n.isLeaf, p, run_ask.mpr ⟨map_eq_ok.mpr ⟨n, node_eq_ok.mpr hn, rfl⟩, rfl⟩, ?_⟩
    cases hleaf : n.isLeaf with
    | true => rfl
    | false =>
      obtain ⟨lower, hlower⟩ := hp.coherent.toLinked.exists_isLowerBoundary hn
      refine run_bind.mpr ⟨lower, p, run_ask.mpr ⟨hlower, rfl⟩, ?_⟩
      cases lower with
      | false => rfl
      | true =>
        -- such a node feeds a joint step, so it does not leave MPC
        obtain ⟨hmpc, hlocal⟩ := (isLowerBoundary_eq_true hn).mp hlower
        have hchildren : n.children ≠ ∅ := fun h => Bool.false_ne_true (hleaf.symm.trans (IdSet.isEmpty_iff.mpr h))
        obtain ⟨v, hv⟩ := IdSet.exists_mem_of_ne_empty hchildren
        obtain ⟨c, hkc, hc⟩ := hp.revealed k n hn (Bool.eq_false_iff.mpr hop) List.not_mem_nil hmpc v
          ((hp.coherent.children hn).mp hv)
        have hfalse := hlocal c ((hp.coherent.children hn).mpr hkc)
        rw [hc] at hfalse
        cases hfalse

end Pass

end JointPlan
