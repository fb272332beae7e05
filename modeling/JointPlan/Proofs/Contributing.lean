import JointPlan.Proofs.Conservation
import JointPlan.Proofs.Deciding
import JointPlan.Proofs.Inheriting
import JointPlan.Proofs.Retaining

/-!
# Who takes part

In a plan without labels the storage of relations decides alone what has to be computed jointly. The rule
asks for a party that has a part in all places, and it takes one party with a share of everything for a party that
holds everything. It is right about a node if this does not happen at its inputs (`PartySet.Balanced`): then
the node needs MPC exactly if several parties take part in it. Pushing work down does not change who takes
part, and leaves inputs balanced.
-/

namespace JointPlan

namespace PartySet

variable {s : PartySet} {sets : List PartySet}

/-- A party that is the only one in all of the sets is the only one in any of them. -/
def Balanced (sets : List PartySet) : Prop := (interAll sets).size = 1 → (unionAll sets).size = 1

instance : Decidable (Balanced sets) := inferInstanceAs (Decidable (_ → _))

@[simp] theorem unionAll_singleton : unionAll [s] = s := IdSet.ext fun a => by simp [mem_unionAll]

@[simp] theorem interAll_singleton : interAll [s] = s := rfl

theorem balanced_singleton : Balanced [s] := by simp [Balanced]

theorem unionAll_of_forall_eq (hne : sets ≠ []) (h : ∀ t ∈ sets, t = s) : unionAll sets = s := by
  obtain ⟨t, ht⟩ := List.exists_mem_of_ne_nil sets hne
  refine IdSet.ext fun a => mem_unionAll.trans ⟨fun ⟨u, hu, ha⟩ => h u hu ▸ ha, fun ha => ⟨t, ht, h t ht ▸ ha⟩⟩

theorem interAll_of_forall_eq (hne : sets ≠ []) (h : ∀ t ∈ sets, t = s) : interAll sets = s := by
  obtain ⟨t, ht⟩ := List.exists_mem_of_ne_nil sets hne
  refine IdSet.ext fun a => (mem_interAll hne).trans ⟨fun ha => h t ht ▸ ha t ht, fun ha u hu => h u hu ▸ ha⟩

theorem balanced_of_forall_eq (hne : sets ≠ []) (h : ∀ t ∈ sets, t = s) : Balanced sets := by
  rw [Balanced, unionAll_of_forall_eq hne h, interAll_of_forall_eq hne h]
  exact id

end PartySet

namespace Storage

variable {st first : Storage} {rest : List Storage} {s : PartySet} {a b : PartyId}

/-- One sharing, or rows in the clear. -/
def Regular (st : Storage) : Prop := st.loci.length = 1 ∨ st.cardinality = 1

instance : Decidable st.Regular := inferInstanceAs (Decidable (_ ∨ _))

theorem regular_single {h : s ≠ ∅} : (single s h).Regular := .inl rfl

theorem regular_singletons {h : s ≠ ∅} : (singletons s h).Regular := by
  obtain ⟨a, -, ha⟩ := List.mem_map.mp (List.head_mem (singletons s h).nonempty)
  right
  rw [cardinality, ← ha]
  rfl

theorem regular_of_ofMembers (h : ofMembers s = .ok st) : st.Regular := by
  have hs : s ≠ ∅ := by
    rintro rfl
    cases h
  rw [ofMembers_eq hs, Except.ok.injEq] at h
  exact h ▸ regular_singletons

theorem Regular.combineAll (hfirst : first.Regular) : (combineAll first rest).Regular :=
  combineAll_cases (fun _ => hfirst) (fun _ _ => regular_singletons) fun _ _ => regular_single

/-- Where one party has a part in all places, any other party has a part in all of them too. -/
theorem Regular.mem_loci (h : st.Regular) (ha : ∀ s ∈ st.loci, a ∈ s) (hb : b ∈ st.members) :
    b = a ∨ ∀ s ∈ st.loci, b ∈ s := by
  obtain ⟨t, ht, hbt⟩ := mem_members.mp hb
  rcases h with hone | hcard
  · obtain ⟨u, hu⟩ := List.length_eq_one_iff.mp hone
    right
    intro s hs
    rw [hu, List.mem_singleton] at hs ht
    rwa [hs, ← ht]
  · have hsize := (size_eq_cardinality ht).trans hcard
    exact .inl (IdSet.eq_of_size_le_one hsize.le hbt (ha t ht))

end Storage

theorem Op.regular_outputStorage? {op : Op} {ins : List Relation} {st : Storage} (hst : op.outputStorage? ins = .ok (some st))
    (hunary : op.arity = .unary → ∃ r, ins = [r]) (hins : ∀ r ∈ ins, r.storage.Regular)
    (hclosing : ∀ st, op = .closing st → st.Regular) : st.Regular := by
  by_cases hsource : op.isSource = true
  · obtain ⟨recipients, rfl, -⟩ := collect_of_outputStorage? hsource hst
    obtain ⟨st', hst', heq⟩ := map_eq_ok.mp hst
    cases heq
    exact Storage.regular_of_ofMembers hst'
  rw [Bool.not_eq_true] at hsource
  by_cases hclose : Boundary.IsClosing op
  · obtain ⟨st', rfl⟩ := hclose
    cases Except.ok.inj hst
    exact hclosing st rfl
  by_cases hop : op.arity = .unary
  · obtain ⟨r, rfl⟩ := hunary hop
    obtain rfl | ⟨-, rfl⟩ := outputStorage?_of_unary hop hsource hclose hst
    · exact hins r List.mem_cons_self
    · exact Storage.regular_singletons
  · obtain ⟨r, rest, rfl, rfl⟩ := outputStorage?_of_multi hop hsource hst
    exact (hins r List.mem_cons_self).combineAll

namespace Relation

variable {rels : List Relation}

/-- The parties that have a part in each of the relations. -/
def holders (rels : List Relation) : List PartySet := rels.map fun r => r.storage.members

theorem mem_holders {s : PartySet} : s ∈ holders rels ↔ ∃ r ∈ rels, r.storage.members = s := List.mem_map

/-- Without labels it depends on the number of parties alone whether relations need MPC. -/
theorem requireMpc_of_balanced (hrels : rels ≠ []) (hunlabelled : Unlabelled rels)
    (hregular : ∀ r ∈ rels, r.storage.Regular) (hbalanced : PartySet.Balanced (holders rels)) :
    requireMpc rels = !decide ((PartySet.unionAll (holders rels)).size = 1) := by
  have hiff : requireMpc rels = false ↔ (PartySet.unionAll (holders rels)).size = 1 := by
    have hnot {a : PartyId} := hunlabelled.not_covers (a := a) hrels
    rw [requireMpc_eq_false hrels]
    simp only [hnot, exists_false, false_or]
    constructor
    · rintro ⟨a, ha, honly⟩
      refine hbalanced (IdSet.size_eq_one.mpr ⟨a, IdSet.ext fun b => ?_⟩)
      rw [PartySet.mem_interAll (by simpa [holders] using hrels), IdSet.mem_singleton]
      simp only [holders, List.forall_mem_map]
      refine ⟨fun hb => by_contra fun hba => ?_, fun hb r hr => hb ▸ Storage.mem_members_of_loci (ha r hr)⟩
      exact hba (honly b fun r hr => ((hregular r hr).mem_loci (ha r hr) (hb r hr)).resolve_left hba)
    · intro hone
      obtain ⟨a, ha⟩ := IdSet.size_eq_one.mp hone
      have hall : ∀ r ∈ rels, ∀ s ∈ r.storage.loci, ∀ b ∈ s, b = a := by
        intro r hr s hs b hb
        rw [← IdSet.mem_singleton, ← ha]
        exact PartySet.mem_unionAll.mpr ⟨_, List.mem_map_of_mem hr, Storage.mem_members.mpr ⟨s, hs, hb⟩⟩
      refine ⟨a, fun r hr s hs => ?_, fun b hb => ?_⟩
      · obtain ⟨b, hb⟩ := IdSet.exists_mem_of_ne_empty (r.storage.inhabited s hs)
        exact hall r hr s hs b hb ▸ hb
      · obtain ⟨r, hr⟩ := List.exists_mem_of_ne_nil rels hrels
        have hhead := List.head_mem r.storage.nonempty
        exact hall r hr _ hhead b (hb r hr _ hhead)
  by_cases hone : (PartySet.unionAll (holders rels)).size = 1
  · simp [hone, hiff.mpr hone]
  · simpa [hone] using fun h => hone (hiff.mp h)

end Relation

-- ---------------------------------------------------------------------------
-- Labels
-- ---------------------------------------------------------------------------

namespace Op

variable {op op' part : Op} {rest : List Op} {i : Nat}

theorem Splits.isSource (h : Splits op part rest) : ∀ o ∈ op :: part :: rest, o.isSource = false := by
  cases h with
  | rowWise h => cases op <;> simp_all [isRowWise, Op.isSource]
  | _ => simp [Op.isSource]

/-- Some of what the operator yields is open to all parties that store it, whatever it gets. -/
def publishes : Op → Bool
  | .index _ | .opening => true
  | op => op.grouping?.any fun grouping => grouping.1.isEmpty

theorem Detached.publishes (h : op.Detached i) : op.publishes = true := by
  obtain ⟨lists, h⟩ | ⟨name, rfl, -⟩ := h
  · cases op <;> first | rfl | (cases h; done) | simp_all [Op.publishes, grouping?]
  · rfl

theorem publishes_bare : op.bare.publishes = op.publishes := by
  cases op <;> simp [bare, mapBound, publishes, grouping?]

theorem publishes_eq_of_bare_eq (h : op.bare = op'.bare) : op.publishes = op'.publishes := by
  rw [← publishes_bare, h, publishes_bare]

/-- Work that is divided publishes nothing if it did not before. -/
theorem Splits.publishes (h : Splits op part rest) (hop : op.publishes = false) :
    ∀ o ∈ part :: rest, o.publishes = false := by
  have hnil {groups groups' : List Column} (h : positions groups' = List.range groups.length) :
      groups' = [] ↔ groups = [] := by
    have hlength : groups'.length = groups.length := by simpa [positions] using congrArg List.length h
    rw [← List.length_eq_zero_iff, hlength, List.length_eq_zero_iff]
  cases h
  case rowWise => simpa using hop
  case numRows => cases hop
  case distinct => simp [Op.publishes, grouping?]
  case sum hgroups _ => simpa [Op.publishes, grouping?, hnil hgroups] using hop
  case count hgroups _ => simpa [Op.publishes, grouping?, hnil hgroups] using hop
  case mean hgroups _ _ => simpa [Op.publishes, grouping?, hnil hgroups] using hop
  case stdDev hgroups₁ _ hgroups₂ _ _ _ => simpa [Op.publishes, grouping?, hnil hgroups₁, hnil hgroups₂] using hop

/-- The operator takes one input, and that may be found again from what it yields. -/
def undoable : Op → Bool
  | .project _ | .arithmetic .. | .sortBy .. | .shuffle | .index _ | .persist | .send => true
  | .opening | .closing _ | .store | .read => true
  | _ => false

theorem undoable_of_isReversible {ins : List Relation} (hop : op.arity = .unary) (h : op.isReversible ins = true) :
    op.undoable = true := by
  cases op <;> simp_all [undoable, isReversible, arity]

theorem undoable_eq_of_bare_eq (h : op.bare = op'.bare) : op.undoable = op'.undoable := by
  have hbare {op : Op} : op.bare.undoable = op.undoable := by cases op <;> rfl
  rw [← hbare, h, hbare]

/-- Work that is divided ends with a step that cannot be undone, unless all of it can be. -/
theorem Splits.undoable (h : Splits op part rest) : ∀ o ∈ rest, o.undoable = false := by
  cases h <;> simp [Op.undoable]

end Op

namespace Node

variable {ins : List Relation} {n m : Node}

/-- Labels come from labels. -/
theorem unlabelled_of_anew (hins : ∀ r ∈ ins, r.Numbered) (hop : n.op ≠ .create) (hquiet : n.op.publishes = false)
    (hunlabelled : Relation.Unlabelled ins) (run : anew ins n = .ok () m) : Relation.Unlabelled [m.rel] := by
  intro r hr c hc
  cases List.mem_singleton.mp hr
  obtain ⟨i, hi⟩ := List.mem_iff_getElem?.mp hc
  have hlt : i < (n.op.lineage (ins.map fun r => r.columns.length)).length := by
    rw [← length_columns_of_anew hins hop run]
    exact (List.getElem?_eq_some_iff.mp hi).1
  obtain ⟨ds, hds, -, hlabels⟩ := inherits_of_anew hins hop run hi (List.getElem?_eq_getElem hlt)
  have hnot : ¬ n.op.Detached i := fun h => by simp [h.publishes] at hquiet
  have hopening : n.op ≠ .opening := fun h => by simp [h, Op.publishes] at hquiet
  obtain ⟨hne, hlabels⟩ := hlabels hnot
  obtain ⟨d, hd⟩ := List.exists_mem_of_ne_nil ds hne
  obtain ⟨s, -, hs⟩ := exists_of_forall₂ hds hd
  obtain ⟨r, hr, hd'⟩ := Option.bind_eq_some_iff.mp hs
  obtain ⟨htrust, hplain⟩ := hunlabelled r (List.mem_of_getElem? hr) d (List.mem_of_getElem? hd')
  constructor <;> refine IdSet.ext fun a => iff_of_false (fun ha => ?_) (IdSet.not_mem_empty a)
  · have hmem := ((hlabels a).1.mp ha).resolve_right (fun h => hopening h.1) d hd
    exact IdSet.not_mem_empty a (htrust ▸ hmem)
  · have hmem := ((hlabels a).2.mp ha).resolve_right (fun h => hopening h.1) d hd
    exact IdSet.not_mem_empty a (hplain ▸ hmem)

end Node

-- ---------------------------------------------------------------------------
-- Those that have a part in what a node yields
-- ---------------------------------------------------------------------------

namespace Rule

variable {op : Op} {ops : List Op} {ins : List PartySet} {y : PartySet}

/-- The parties that store what a node yields. -/
def holders : Rule PartySet where
  allows n ins y := (n.op = .create → y = n.rel.storage.members) ∧
    (∀ recipients, n.op = .collect recipients → y = recipients) ∧ (n.op.isSource = false → y = PartySet.unionAll ins)
  congr {n m ins y} hop hrel h := by
    have hback {op : Op} (hb : op.bound = []) (hm : m.op = op) : n.op = op :=
      Op.eq_of_bare_eq (hop.symm.trans (congrArg _ hm)) hb
    refine ⟨fun hm => ?_, fun recipients hm => h.2.1 recipients (hback rfl hm), fun hm => h.2.2 ?_⟩
    · have hn := hback rfl hm
      rw [hrel hn, h.1 hn]
    · rw [← hm]
      exact Op.isSource_eq_of_blank_eq (Op.blank_eq_of_bare_eq hop.symm)

theorem holders_unique {n : Node} {y' : PartySet} (h : holders.allows n ins y) (h' : holders.allows n ins y') : y = y' := by
  cases hsource : n.op.isSource with
  | false => rw [h.2.2 hsource, h'.2.2 hsource]
  | true =>
    obtain hop | ⟨recipients, hop⟩ := Op.isSource_iff.mp hsource
    · rw [h.1 hop, h'.1 hop]
    · rw [h.2.1 recipients hop, h'.2.1 recipients hop]

/-- No labels come in, and the inputs of every node are balanced. -/
def quiet : Rule PartySet where
  allows n ins y := holders.allows n ins y ∧ n.op.publishes = false ∧
    (n.op = .create → Relation.Unlabelled [n.rel] ∧ n.rel.storage.Regular) ∧
    (n.op.arity = .binary ∨ n.op.arity = .nary → PartySet.Balanced ins)
  congr {n m ins y} hop hrel h := by
    obtain ⟨hholders, hquiet, hcreate, hmulti⟩ := h
    refine ⟨holders.congr hop hrel hholders, (Op.publishes_eq_of_bare_eq hop).trans hquiet, fun hm => ?_, fun hm => hmulti ?_⟩
    · have hn := Op.eq_of_bare_eq (hop.symm.trans (congrArg _ hm)) rfl
      rw [hrel hn]
      exact hcreate hn
    · rwa [← Op.arity_eq_of_blank_eq (Op.blank_eq_of_bare_eq hop)]

theorem quiet_of_yields (h : quiet.Yields ins op y) : op.publishes = false ∧ (op.isSource = false → y = PartySet.unionAll ins) ∧
    (op.arity = .binary ∨ op.arity = .nary → PartySet.Balanced ins) :=
  have ⟨hholders, hquiet, _, hmulti⟩ := h ⟨0, op, .blank "", .none, ∅, ∅⟩ rfl
  ⟨hquiet, hholders.2.2, hmulti⟩

theorem quiet_yields (hop : op.arity = .unary) (hsource : op.isSource = false) (hquiet : op.publishes = false) :
    quiet.Yields [y] op y := by
  rintro n rfl
  have hcreate := Op.ne_create_of_unary hop
  refine ⟨⟨fun h => absurd h hcreate, fun recipients h => ?_, fun _ => PartySet.unionAll_singleton.symm⟩, hquiet,
    fun h => absurd h hcreate, fun _ => PartySet.balanced_singleton⟩
  rw [h] at hsource
  cases hsource

theorem quiet_leads (hops : ∀ op ∈ ops, op.isSource = false ∧ op.publishes = false) : quiet.Leads ops y y := by
  induction ops with
  | nil => exact .nil
  | cons op ops ih =>
    obtain ⟨⟨hsource, hquiet⟩, hops⟩ := List.forall_mem_cons.mp hops
    exact .cons (fun hop => quiet_yields hop hsource hquiet) (ih hops)

theorem quiet_divides : quiet.Divides := by
  intro op part rest ins c y hsplits hconcat hop
  have hsource := hsplits.isSource
  obtain ⟨hquiet, hy, -⟩ := quiet_of_yields hop
  obtain ⟨-, hc, hbalanced⟩ := quiet_of_yields hconcat
  obtain rfl : y = c := by rw [hy (hsource op List.mem_cons_self), PartySet.unionAll_singleton]
  have hothers := hsplits.publishes hquiet
  have hpart {a : PartySet} : quiet.Yields [a] part a :=
    quiet_yields hsplits.arity.2 (hsource part (by simp)) (hothers part List.mem_cons_self)
  refine ⟨y, ins, y, hpart, List.forall₂_same.mpr fun _ _ => hpart, hconcat, quiet_leads fun o ho => ?_⟩
  exact ⟨hsource o (by simp [ho]), hothers o (List.mem_cons_of_mem _ ho)⟩

/-- What may be undone is not delivered. -/
def binding : Rule Bool where
  allows n ins y := (n.op.undoable = true → y = true) ∧ ∀ recipients, n.op = .collect recipients → ∀ i ∈ ins, i = false
  congr {n m ins y} hop _ h := by
    refine ⟨fun hm => h.1 ?_, fun recipients hm => h.2 recipients (Op.eq_of_bare_eq (hop.symm.trans (congrArg _ hm)) rfl)⟩
    rwa [← Op.undoable_eq_of_bare_eq hop]

theorem binding_yields {ins : List Bool} {y : Bool} (hop : op.undoable = true → y = true) (hsource : op.isSource = false) :
    binding.Yields ins op y := by
  rintro n rfl
  refine ⟨hop, fun recipients h => ?_⟩
  rw [h] at hsource
  cases hsource

theorem binding_leads {y : Bool} (hops : ∀ op ∈ ops, op.isSource = false ∧ op.undoable = false) : binding.Leads ops y y := by
  induction ops with
  | nil => exact .nil
  | cons op ops ih =>
    obtain ⟨⟨hsource, hop⟩, hops⟩ := List.forall_mem_cons.mp hops
    exact .cons (fun _ => binding_yields (by simp [hop]) hsource) (ih hops)

theorem binding_divides : binding.Divides := by
  intro op part rest ins c y hsplits _ _
  have hsource := hsplits.isSource
  have hpart {ins : List Bool} : binding.Yields ins part true := binding_yields (fun _ => rfl) (hsource part (by simp))
  refine ⟨true, ins.map fun _ => true, y, hpart, ?_, binding_yields (by simp [Op.undoable]) rfl, binding_leads fun o ho => ?_⟩
  · rw [List.forall₂_map_right_iff, List.forall₂_same]
    exact fun _ _ => hpart
  · exact ⟨hsource o (by simp [ho]), hsplits.undoable o ho⟩

end Rule

namespace Plan

variable {p q : Plan} {k s u v : NodeId} {n m : Node} {recipients : PartySet}

/-- The parties that store what a node yields. -/
def holdersAt (p : Plan) (k : NodeId) : PartySet := (p.relationAt k).storage.members

theorem holdersAt_of_get? (hn : p.nodes.get? k = some n) : p.holdersAt k = n.rel.storage.members := by
  rw [holdersAt, relationAt_of_get? hn]

theorem map_holdersAt {ins : List Relation} (hn : p.nodes.get? k = some n) (hins : p.inputRelations k = .ok ins) :
    Relation.holders ins = n.inputs.ids.map p.holdersAt :=
  map_inputRelations (fun hn => holdersAt_of_get? hn) hn hins

theorem Settled.obeys_holders (hsettled : p.Settled) (hp : p.Coherent) (hplain : p.Plain) :
    p.Obeys .holders p.holdersAt p.holdersAt := by
  intro k n hn
  rw [holdersAt_of_get? hn]
  have hstorage (hop : n.op ≠ .create) := (hsettled k n hn hop).outputStorage? Node.anew_derivation hn hop
  refine ⟨fun _ => rfl, fun recipients hop => ?_, fun hsource => ?_⟩
  · obtain ⟨ins, -, hst⟩ := hstorage (by simp [hop])
    obtain ⟨recipients', hop', hmembers⟩ := Op.collect_of_outputStorage? (by rw [hop]; rfl) hst
    rw [hmembers, Op.collect.inj (hop.symm.trans hop')]
  · have hcreate : n.op ≠ .create := fun hop => by simp [hop, Op.isSource] at hsource
    obtain ⟨ins, hins, hst⟩ := hstorage hcreate
    rw [← map_holdersAt hn hins]
    refine IdSet.ext fun a => ?_
    rw [Op.mem_members_outputStorage? hst (fun hop => hp.inputRelations_of_unary hn hop hins) hsource
      (hplain.not_isClosing hn), PartySet.mem_unionAll]
    simp [Relation.holders]

-- ---------------------------------------------------------------------------
-- Clear plans
-- ---------------------------------------------------------------------------

/-- Sources have no labels, and are not shared in several places. Nothing is published, and what is collected is
not computed with any further. Where just one party has a part in all inputs of a node, no other has a part in any. -/
def Clear (p : Plan) : Prop := ∀ e ∈ p.nodes.entries, e.2.op.publishes = false ∧
  (e.2.op = .create → Relation.Unlabelled [e.2.rel] ∧ e.2.rel.storage.Regular) ∧
  (e.2.op.arity = .binary ∨ e.2.op.arity = .nary → PartySet.Balanced (e.2.inputs.ids.map p.holdersAt)) ∧
  (e.2.op.isSource = true → e.2.op = .create ∨ e.2.children = ∅)

instance : Decidable (Relation.Unlabelled rels) := inferInstanceAs (Decidable (∀ r ∈ rels, ∀ c ∈ r.columns, _))

instance : Decidable p.Clear := inferInstanceAs (Decidable (∀ e ∈ p.nodes.entries, _))

/-- What is delivered cannot be undone. -/
def EndsFirmly (p : Plan) : Prop := ∀ e ∈ p.nodes.entries, e.2.op.isSource = true →
  ∀ u ∈ e.2.inputs.ids, ∀ m ∈ p.nodes.get? u, m.op.undoable = false

instance : Decidable p.EndsFirmly := inferInstanceAs (Decidable (∀ e ∈ p.nodes.entries, _))

theorem Clear.obeys (h : p.Clear) (hholders : p.Obeys .holders p.holdersAt p.holdersAt) :
    p.Obeys .quiet p.holdersAt p.holdersAt := by
  intro k n hn
  obtain ⟨hquiet, hcreate, hmulti, -⟩ := h (k, n) (IdMap.mem_entries_iff.mpr hn)
  exact ⟨hholders k n hn, hquiet, hcreate, hmulti⟩

theorem EndsFirmly.obeys (h : p.EndsFirmly) : ∃ w, p.Obeys .binding w w := by
  refine ⟨fun k => (p.nodes.get? k).any fun n => n.op.undoable, fun k n hn => ⟨fun hop => ?_, fun recipients hop => ?_⟩⟩
  · simp [hn, hop]
  · rw [List.forall_mem_map]
    intro u hu
    cases hm : p.nodes.get? u with
    | none => rfl
    | some m => exact h (k, n) (IdMap.mem_entries_iff.mpr hn) (by rw [hop]; rfl) u hu m hm

/-- No relation has labels or is shared in several places. -/
structure Quiet (p : Plan) : Prop where
  obeys : p.Obeys .quiet p.holdersAt p.holdersAt
  unlabelled : ∀ k n, p.nodes.get? k = some n → Relation.Unlabelled [n.rel]
  regular : ∀ k n, p.nodes.get? k = some n → n.rel.storage.Regular

theorem unlabelled_inputs {ins : List Relation} (hn : p.nodes.get? k = some n) (hins : p.inputRelations k = .ok ins)
    (h : ∀ u ∈ n.inputs.ids, ∀ m, p.nodes.get? u = some m → Relation.Unlabelled [m.rel]) : Relation.Unlabelled ins := by
  intro r hr
  obtain ⟨u, hu, m, hm, rfl⟩ := (mem_inputRelations hins hn).mp hr
  exact h u hu m hm m.rel List.mem_cons_self

theorem Settled.quiet {w : NodeId → PartySet} (hsettled : p.Settled) (hp : p.Orderly) (hplain : p.Plain)
    (h : p.Obeys .quiet w w) : p.Quiet := by
  have hcoherent := hp.coherent
  have hholders := hsettled.obeys_holders hcoherent hplain
  have hw : ∀ k n, p.nodes.get? k = some n → p.holdersAt k = w k := fun k n hn =>
    hcoherent.toLinked.eq_of_obeys hholders (fun k n hn => (h k n hn).1) Rule.holders_unique hn
  have hobeys := h.congr hcoherent.toLinked hw hw
  have hboth : ∀ k n, p.nodes.get? k = some n → Relation.Unlabelled [n.rel] ∧ n.rel.storage.Regular := fun k n hn => by
    refine hcoherent.toLinked.input_induction (motive := fun _ n => Relation.Unlabelled [n.rel] ∧ n.rel.storage.Regular) ?_ hn
    intro k n hn ih
    obtain ⟨-, hquiet, hcreate, -⟩ := hobeys k n hn
    by_cases hop : n.op = .create
    · exact hcreate hop
    obtain ⟨ins, _, hins, hn', hnew⟩ := steadyAt_iff.mp (hsettled k n hn hop)
    cases hn.symm.trans hn'
    obtain ⟨ins', hins', hst⟩ := (hsettled k n hn hop).outputStorage? Node.anew_derivation hn hop
    cases hins.symm.trans hins'
    refine ⟨Node.unlabelled_of_anew (hp.sound.inputs hins) hop hquiet (unlabelled_inputs hn hins fun u hu m hm => (ih u hu m hm).1) hnew,
      Op.regular_outputStorage? hst (fun hop => hcoherent.inputRelations_of_unary hn hop hins) (fun r hr => ?_) fun st hst => ?_⟩
    · obtain ⟨u, hu, m, hm, rfl⟩ := (mem_inputRelations hins hn).mp hr
      exact (ih u hu m hm).2
    · exact absurd ⟨st, hst⟩ (hplain.not_isClosing hn)
  exact ⟨hobeys, fun k n hn => (hboth k n hn).1, fun k n hn => (hboth k n hn).2⟩

-- ---------------------------------------------------------------------------
-- Joint computations
-- ---------------------------------------------------------------------------

/-- Where the inputs of a node have no labels and are balanced, it needs MPC if several parties have a part in them. -/
theorem Linked.requiresMpc_of_balanced {ins : List Relation} {parties : PartySet} (hp : p.Linked)
    (hn : p.nodes.get? k = some n) (hinner : n.op.isInner = true) (hop : n.op ≠ .create)
    (hins : p.inputRelations k = .ok ins) (hunlabelled : Relation.Unlabelled ins)
    (hregular : ∀ r ∈ ins, r.storage.Regular) (hbalanced : PartySet.Balanced (Relation.holders ins))
    (hunion : PartySet.unionAll (Relation.holders ins) = parties) (hsome : parties ≠ ∅) :
    p.requiresMpc k = .ok !decide (parties.size = 1) := by
  have hne : ins ≠ [] := by
    rintro rfl
    exact hsome hunion.symm
  rw [hp.requiresMpc_of_inner hn hinner hop hins,
    Relation.requireMpc_of_balanced hne hunlabelled hregular hbalanced, hunion]

/-- So does a source without labels. -/
theorem Linked.requiresMpc_of_source (hp : p.Linked) (hn : p.nodes.get? k = some n) (hop : n.op = .create)
    (hunlabelled : Relation.Unlabelled [n.rel]) (hregular : n.rel.storage.Regular) :
    p.requiresMpc k = .ok !decide (n.rel.storage.members.size = 1) := by
  rw [hp.requiresMpc_create hn hop, Relation.requireMpc_of_balanced (by simp) hunlabelled (by simpa using hregular)
    PartySet.balanced_singleton]
  simp [Relation.holders]

theorem Quiet.requiresMpc (h : p.Quiet) (hp : p.Coherent) (hn : p.nodes.get? k = some n) (hinner : n.op.isInner = true) :
    p.requiresMpc k = .ok !decide ((p.holdersAt k).size = 1) := by
  by_cases hop : n.op = .create
  · rw [holdersAt_of_get? hn]
    exact hp.toLinked.requiresMpc_of_source hn hop (h.unlabelled k n hn) (h.regular k n hn)
  obtain ⟨ins, hins⟩ := exists_inputRelations hn (hp.toLinked.exists_input hn)
  obtain ⟨⟨-, -, hunion⟩, -, -, hmulti⟩ := h.obeys k n hn
  have hsource : n.op.isSource = false := by cases hcase : n.op <;> simp_all [Op.isInner, Op.isSource]
  rw [← map_holdersAt hn hins] at hunion hmulti
  refine hp.toLinked.requiresMpc_of_balanced hn hinner hop hins
    (unlabelled_inputs hn hins fun u _ m hm => h.unlabelled u m hm) (fun r hr => ?_) ?_ (hunion hsource).symm ?_
  · obtain ⟨u, -, m, hm, rfl⟩ := (mem_inputRelations hins hn).mp hr
    exact h.regular u m hm
  · cases harity : n.op.arity
    case nullary => exact absurd (Op.arity_eq_nullary.mp harity) hop
    case unary =>
      obtain ⟨r, rfl⟩ := hp.inputRelations_of_unary hn harity hins
      exact PartySet.balanced_singleton
    case binary => exact hmulti (.inl harity)
    case nary => exact hmulti (.inr harity)
  · rw [holdersAt_of_get? hn]
    exact n.rel.storage.members_ne_empty

/-- Whoever has a part in an input has a part in what is computed from it. -/
theorem Obeys.size_eq_one {w : NodeId → PartySet} (h : p.Obeys .holders w w) (hn : p.nodes.get? k = some n)
    (hsource : n.op.isSource = false) (hu : u ∈ n.inputs.ids) (hsome : w u ≠ ∅) (hone : (w k).size = 1) : (w u).size = 1 := by
  obtain ⟨a, ha⟩ := IdSet.size_eq_one.mp hone
  have hsub : ∀ b ∈ w u, b = a := by
    intro b hb
    rw [← IdSet.mem_singleton, ← ha, (h k n hn).2.2 hsource]
    exact PartySet.mem_unionAll.mpr ⟨_, List.mem_map_of_mem hu, hb⟩
  obtain ⟨b, hb⟩ := IdSet.exists_mem_of_ne_empty hsome
  exact IdSet.size_eq_one.mpr ⟨a, IdSet.ext fun c => ⟨fun hc => IdSet.mem_singleton.mpr (hsub c hc), fun hc => by
    rwa [IdSet.mem_singleton.mp hc, ← hsub b hb]⟩⟩

end Plan

namespace PushUp

open Plan Edit

variable {p q : Plan} {k s : NodeId} {u : Unit} {recipients : PartySet}

/-- Only what is delivered leaves MPC, so nothing is widened if that cannot be undone. -/
theorem eq_of_visit {w : NodeId → Bool} (h : p.Quiet) (hp : p.Delivers s recipients) (hplain : p.Plain)
    (hbinding : p.Obeys .binding w w) (run : visit k p = .ok u q) : q = p := by
  obtain rfl | ⟨n, parent, m, hn, hin, -, -, hreversible, hlower, -⟩ := run_visit hp.coherent run
  · rfl
  exfalso
  have harity := hp.coherent.arity_of_inputs hn hin
  have hundoable : n.op.undoable = true := by
    rw [isReversible, node_eq_ok.mpr hn] at hreversible
    obtain ⟨ins, -, hop⟩ := map_eq_ok.mp hreversible
    exact Op.undoable_of_isReversible harity hop
  have hinner : n.op.isInner = true := by
    have := hplain k n hn
    cases hop : n.op <;> simp_all [Op.undoable, Op.isInner, Op.isBoundary]
  obtain ⟨hmpc, hlocal⟩ := (isLowerBoundary_eq_true hn).mp hlower
  have hchildren : n.children ≠ ∅ := by
    intro hleaf
    obtain ⟨e, he, hop, -⟩ := hp.sink
    cases hp.only k n hn hleaf
    cases hn.symm.trans he
    rw [hop] at hinner
    cases hinner
  obtain ⟨c, hc⟩ := IdSet.exists_mem_of_ne_empty hchildren
  obtain ⟨l, hl, hk⟩ := (hp.coherent.children hn).mp hc
  have hborder := hplain c l hl
  cases hinner' : l.op.isInner with
  | true =>
    have hsource : l.op.isSource = false := by
      have := hp.coherent.ne_create hl hk
      cases hop : l.op <;> simp_all [Op.isInner, Op.isSource]
    have hjoint := h.requiresMpc hp.coherent hl hinner'
    rw [hlocal c hc, Except.ok.injEq, eq_comm, Bool.not_eq_false', decide_eq_true_iff] at hjoint
    have hone := Obeys.size_eq_one (fun k n hn => (h.obeys k n hn).1) hl hsource hk
      (by rw [holdersAt_of_get? hn]; exact n.rel.storage.members_ne_empty) hjoint
    rw [h.requiresMpc hp.coherent hn hinner] at hmpc
    simp [hone] at hmpc
  | false =>
    obtain ⟨recipients, hop⟩ : ∃ recipients, l.op = .collect recipients := by
      cases hop : l.op <;> simp_all [Op.isInner, Op.isBoundary]
    have hfalse := (hbinding c l hl).2 recipients hop (w k) (List.mem_map_of_mem hk)
    rw [(hbinding k n hn).1 hundoable] at hfalse
    cases hfalse

end PushUp

namespace Edit

open Plan

variable {p q : Plan} {optimize : Bool}

/-- A plan stays quiet when it is prepared. -/
theorem quiet_of_prepare (hp : p.Built) (hclear : p.Clear) (hfirm : optimize = true → p.EndsFirmly)
    (run : prepare optimize p = .ok () q) : q.Quiet := by
  have hsimple := hp.simple
  have hsettled := hp.settled
  have hobeys := hclear.obeys (hsettled.obeys_holders hsimple.coherent hsimple.plain)
  cases optimize with
  | false =>
    obtain ⟨-, rfl⟩ := run_pure.mp run
    exact hsettled.quiet hsimple.toOrderly hsimple.plain hobeys
  | true =>
    obtain ⟨_, a, hdown, hup⟩ := run_bind.mp run
    have horderly := hsimple.toOrderly
    obtain ⟨ha, -, hplaced⟩ := Pass.pushDown_serves horderly hdown
    have hplain := hplaced _ plain_placement hsimple.plain
    obtain ⟨r, -, hr, hrefresh, -⟩ := Pass.exists_of_pushDown (motive := fun _ => True) horderly trivial
      (fun _ _ _ _ => trivial) hdown
    obtain ⟨-, -, hsettled'⟩ := settled_of_refreshAll hr.coherent hr.sound.sourced hrefresh
    obtain ⟨v, hv⟩ := Pass.pushDown_retains Rule.quiet_divides horderly hobeys hdown
    obtain ⟨w₀, hw₀⟩ := (hfirm rfl).obeys
    obtain ⟨w, hw⟩ := Pass.pushDown_retains Rule.binding_divides horderly hw₀ hdown
    have hquiet := hsettled'.quiet ha hplain hv.obeys
    obtain ⟨s, recipients, n, -, -, -, hcarries⟩ := hp.exists_carries
    have hdelivers := Pass.pushDown_delivers hcarries.toDelivers hdown
    have hstays (id : NodeId) (op : Op) (r : Plan) (hvisit : Pass.pushUp.visit id op a = .ok () r) : r = a := by
      simp only [Pass.pushUp] at hvisit
      split at hvisit
      · exact PushUp.eq_of_visit hquiet hdelivers hplain hw.obeys hvisit
      · exact (run_pure.mp hvisit).2.symm
    obtain ⟨_, rfl, -, hfinish⟩ := Pass.exists_of_visits (motive := fun _ r => r = a) (K := fun _ => True) ha.coherent
      (fun _ _ => Pass.pushUp_visit_reworks) (fun _ _ => rfl)
      (fun heq _ _ hvisit => hstays _ _ _ (heq ▸ hvisit)) hup
    obtain ⟨-, rfl⟩ := run_pure.mp hfinish
    exact hquiet

end Edit
end JointPlan
