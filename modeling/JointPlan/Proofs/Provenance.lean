import JointPlan.Proofs.Handoffs

/-!
# Provenance

Where a relation is stored changes in the course of a compilation, but not by whom. All
parties that store a source of a relation store the relation, and no others do. There are
two exceptions. What is collected is stored with the recipients, and it counts as a source
of what is computed from it. What is closed is stored with all parties that take part in
the computation behind it, so its members are those of its reader.
-/

namespace JointPlan

-- ---------------------------------------------------------------------------
-- Members
-- ---------------------------------------------------------------------------

namespace Storage

variable {s : PartySet} {st first : Storage} {rest : List Storage} {a : PartyId}

@[simp] theorem members_single {h : s ≠ ∅} : (single s h).members = s := by
  ext a
  simp [mem_members, single]

@[simp] theorem members_singletons {h : s ≠ ∅} : (singletons s h).members = s := by
  ext a
  simp [mem_members, singletons]

@[simp] theorem members_shared : st.shared.members = st.members := members_single

@[simp] theorem members_flattened : st.flattened.members = st.members := members_singletons

/-- One place for all, copies of all rows at all members, or one sharing among them. -/
theorem combineAll_cases {motive : Storage → Prop} (same : (∀ st ∈ rest, st = first) → motive first)
    (apart : (∀ st ∈ first :: rest, st.cardinality = 1) →
      ∀ h, motive (singletons (PartySet.unionAll ((first :: rest).map members)) h))
    (joint : (¬ ∀ st ∈ first :: rest, st.cardinality = 1) →
      ∀ h, motive (single (PartySet.unionAll ((first :: rest).map members)) h)) : motive (combineAll first rest) := by
  unfold combineAll
  dsimp only
  split
  case isTrue h => exact same h
  case isFalse =>
    split
    case isTrue h => exact apart h _
    case isFalse h => exact joint h _

theorem mem_members_combineAll : a ∈ (combineAll first rest).members ↔ ∃ st ∈ first :: rest, a ∈ st.members := by
  refine combineAll_cases (motive := fun st => a ∈ st.members ↔ _) (fun h => ?_) (fun _ _ => ?_) fun _ _ => ?_
  · simpa using fun st hst ha => h st hst ▸ ha
  · simp [PartySet.mem_unionAll]
  · simp [PartySet.mem_unionAll]

theorem members_of_ofMembers (h : ofMembers s = .ok st) : st.members = s := by
  have hs : s ≠ ∅ := by
    rintro rfl
    cases h
  rw [ofMembers_eq hs, Except.ok.injEq] at h
  rw [← h, members_singletons]

end Storage

namespace Op

open Boundary

variable {op op' : Op} {ins : List Relation} {st : Storage} {a : PartyId}

/-- The operators whose output does not come from their inputs. -/
def isSource : Op → Bool
  | .create | .collect _ => true
  | _ => false

theorem isSource_iff : op.isSource = true ↔ op = .create ∨ ∃ recipients, op = .collect recipients := by
  cases op <;> simp [isSource]

theorem isSource_of_isInner (h : op.isInner = true) (hop : op ≠ .create) : op.isSource = false := by
  cases op <;> first | rfl | (cases h; done) | exact absurd rfl hop

theorem not_isClosing_of_isInner (h : op.isInner = true) : ¬ IsClosing op := by
  rintro ⟨st, rfl⟩
  cases h

theorem isSource_of_isBoundary (hop : op.isBoundary = true) : op.isSource = false := by
  cases op <;> first | rfl | cases hop

/-- What an operator of one input yields is where the input is, but for openings. -/
theorem outputStorage?_of_unary {r : Relation} (hop : op.arity = .unary) (hsource : op.isSource = false)
    (hclosing : ¬ IsClosing op) (hst : op.outputStorage? (r :: ins) = .ok (some st)) :
    st = r.storage ∨ op = .opening ∧ st = r.storage.flattened := by
  cases op <;> simp_all [outputStorage?, isSource, IsClosing, input, arity]

theorem outputStorage?_of_multi (hop : op.arity ≠ .unary) (hsource : op.isSource = false)
    (hst : op.outputStorage? ins = .ok (some st)) :
    ∃ r rest, ins = r :: rest ∧ st = .combineAll r.storage (rest.map Relation.storage) := by
  cases ins <;> cases op <;>
    simp_all [outputStorage?, isSource, arity, Storage.combine]

theorem mem_members_outputStorage? (hst : op.outputStorage? ins = .ok (some st)) (hins : op.arity = .unary → ∃ r, ins = [r])
    (hsource : op.isSource = false) (hclosing : ¬ IsClosing op) :
    a ∈ st.members ↔ ∃ r ∈ ins, a ∈ r.storage.members := by
  by_cases hop : op.arity = .unary
  · obtain ⟨r, rfl⟩ := hins hop
    rcases outputStorage?_of_unary hop hsource hclosing hst with rfl | ⟨-, rfl⟩ <;> simp
  · obtain ⟨r, rest, rfl, rfl⟩ := outputStorage?_of_multi hop hsource hst
    simp [Storage.mem_members_combineAll]

theorem collect_of_outputStorage? (hsource : op.isSource = true) (hst : op.outputStorage? ins = .ok (some st)) :
    ∃ recipients, op = .collect recipients ∧ st.members = recipients := by
  cases op <;> simp [isSource] at hsource <;> simp [outputStorage?] at hst
  case collect recipients =>
    refine ⟨recipients, rfl, ?_⟩
    obtain ⟨st', hst', hsome⟩ := map_eq_ok.mp hst
    cases hsome
    exact Storage.members_of_ofMembers hst'

theorem isSource_eq_of_blank_eq (h : op.blank = op'.blank) : op.isSource = op'.isSource := by
  have hblank (op : Op) : op.blank.isSource = op.isSource := by cases op <;> rfl
  rw [← hblank, h, hblank]

theorem closing_of_blank_eq (h : op.blank = op'.blank) (hop : op' = .closing st) : op = .closing st := by
  subst hop
  exact eq_of_blank_eq h rfl

theorem isClosing_of_blank_eq (h : op.blank = op'.blank) : IsClosing op ↔ IsClosing op' :=
  ⟨fun ⟨st, hst⟩ => ⟨st, closing_of_blank_eq h.symm hst⟩, fun ⟨st, hst⟩ => ⟨st, closing_of_blank_eq h hst⟩⟩

end Op

namespace Plan

open Boundary

variable {p q : Plan} {k u v : NodeId} {n m : Node} {a : PartyId}

-- ---------------------------------------------------------------------------
-- Parties that store a source
-- ---------------------------------------------------------------------------

/-- The party stores a source of what the node yields. -/
inductive Draws (p : Plan) : NodeId → PartyId → Prop where
  | source {k : NodeId} {n : Node} {a : PartyId} (node : p.nodes.get? k = some n) (source : n.op.isSource = true)
      (stores : a ∈ n.rel.storage.members) : Draws p k a
  | input {k u : NodeId} {n : Node} {a : PartyId} (node : p.nodes.get? k = some n) (derived : n.op.isSource = false)
      (fed : u ∈ n.inputs.ids) (draws : Draws p u a) : Draws p k a

theorem draws_source (hn : p.nodes.get? k = some n) (hop : n.op.isSource = true) :
    p.Draws k a ↔ a ∈ n.rel.storage.members := by
  refine ⟨fun h => ?_, .source hn hop⟩
  cases h with
  | source hn' _ ha => exact Option.some.inj (hn.symm.trans hn') ▸ ha
  | input hn' hop' _ _ =>
    cases hn.symm.trans hn'
    exact absurd (hop.symm.trans hop') (by decide)

theorem draws_input (hn : p.nodes.get? k = some n) (hop : n.op.isSource = false) :
    p.Draws k a ↔ ∃ u ∈ n.inputs.ids, p.Draws u a := by
  refine ⟨fun h => ?_, fun ⟨u, hu, h⟩ => .input hn hop hu h⟩
  cases h with
  | source hn' hop' _ =>
    cases hn.symm.trans hn'
    exact absurd (hop.symm.trans hop') (by decide)
  | input hn' _ hu h =>
    cases hn.symm.trans hn'
    exact ⟨_, hu, h⟩

/-- The members of both plans are the same. -/
def SameMembers (p q : Plan) : Prop :=
  ∀ k n m, p.nodes.get? k = some n → q.nodes.get? k = some m → m.rel.storage.members = n.rel.storage.members

theorem Draws.of_outline_eq (h : p.Draws k a) (houtline : p.outline = q.outline) (hsame : SameMembers p q) :
    q.Draws k a := by
  induction h with
  | source hn hop ha =>
    obtain ⟨m, hm, hs⟩ := get?_of_outline_eq houtline hn
    refine .source hm ?_ (hsame _ _ _ hn hm ▸ ha)
    rw [← Op.isSource_eq_of_blank_eq (Node.blank_eq_of_outline_eq hs), hop]
  | input hn hop hu _ ih =>
    obtain ⟨m, hm, hs⟩ := get?_of_outline_eq houtline hn
    refine .input hm ?_ (Node.inputs_eq_of_outline_eq hs ▸ hu) ih
    rw [← Op.isSource_eq_of_blank_eq (Node.blank_eq_of_outline_eq hs), hop]

theorem draws_of_outline_eq (houtline : q.outline = p.outline) (hsame : SameMembers p q) :
    q.Draws k a ↔ p.Draws k a :=
  ⟨fun h => h.of_outline_eq houtline fun k n m hn hm => (hsame k m n hm hn).symm,
    fun h => h.of_outline_eq houtline.symm hsame⟩

/-- Relations are stored with those who store the sources, but for what is collected or closed. -/
structure Conserves (p : Plan) : Prop where
  stored : ∀ k n, p.nodes.get? k = some n → ¬ IsClosing n.op → ∀ a, a ∈ n.rel.storage.members ↔ p.Draws k a
  collected : ∀ k n recipients, p.nodes.get? k = some n → n.op = .collect recipients →
    n.rel.storage.members = recipients
  closed : ∀ k n st, p.nodes.get? k = some n → n.op = .closing st → n.rel.storage.members = st.members
  shared : ∀ k n st v m, p.nodes.get? k = some n → n.op = .closing st → p.nodes.get? v = some m →
    k ∈ m.inputs.ids → ¬ IsClosing m.op → ∀ a, a ∈ st.members ↔ p.Draws v a

theorem Conserves.of_outline_eq (h : p.Conserves) (houtline : q.outline = p.outline) (hsame : SameMembers p q) :
    q.Conserves := by
  have hback {k : NodeId} {n : Node} (hn : q.nodes.get? k = some n) : ∃ m, p.nodes.get? k = some m ∧
      n.rel.storage.members = m.rel.storage.members ∧ n.op.blank = m.op.blank ∧ n.inputs = m.inputs := by
    obtain ⟨m, hm, hs⟩ := get?_of_outline_eq houtline hn
    exact ⟨m, hm, hsame k m n hm hn, Node.blank_eq_of_outline_eq hs, Node.inputs_eq_of_outline_eq hs⟩
  constructor
  case stored =>
    intro k n hn hop a
    obtain ⟨m, hm, hmembers, hblank, -⟩ := hback hn
    rw [hmembers, draws_of_outline_eq houtline hsame]
    exact h.stored k m hm (by rwa [← Op.isClosing_of_blank_eq hblank]) a
  case collected =>
    intro k n recipients hn hop
    obtain ⟨m, hm, hmembers, hblank, -⟩ := hback hn
    rw [hmembers]
    exact h.collected k m recipients hm (Op.eq_of_blank_eq (hop ▸ hblank.symm) rfl)
  case closed =>
    intro k n st hn hop
    obtain ⟨m, hm, hmembers, hblank, -⟩ := hback hn
    rw [hmembers]
    exact h.closed k m st hm (Op.closing_of_blank_eq hblank.symm hop)
  case shared =>
    intro k n st v n' hn hop hn' hfed hop' a
    obtain ⟨m, hm, -, hblank, -⟩ := hback hn
    obtain ⟨m', hm', -, hblank', hinputs⟩ := hback hn'
    rw [draws_of_outline_eq houtline hsame]
    exact h.shared k m st v m' hm (Op.closing_of_blank_eq hblank.symm hop) hm' (hinputs ▸ hfed)
      (by rwa [← Op.isClosing_of_blank_eq hblank']) a

-- ---------------------------------------------------------------------------
-- Deriving nodes
-- ---------------------------------------------------------------------------

theorem Coherent.inputRelations_of_unary {ins : List Relation} (hp : p.Coherent) (hn : p.nodes.get? k = some n)
    (hop : n.op.arity = .unary) (hins : p.inputRelations k = .ok ins) : ∃ r, ins = [r] := by
  obtain ⟨u, hin⟩ := hp.inputs_of_arity hn hop
  obtain ⟨n', hn', hall⟩ := inputRelations_eq_ok.mp hins
  cases hn.symm.trans hn'
  rw [hin] at hall
  obtain _ | ⟨-, hnil⟩ := hall
  cases hnil
  exact ⟨_, rfl⟩

/-- The storage on record is the one that follows from the inputs. -/
theorem SteadyAt.outputStorage? {change : List Relation → NodeEdit Unit} (h : p.SteadyAt change k)
    (hc : Node.Derivation change) (hn : p.nodes.get? k = some n) (hop : n.op ≠ .create) :
    ∃ ins, p.inputRelations k = .ok ins ∧ n.op.outputStorage? ins = .ok (some n.rel.storage) := by
  obtain ⟨ins, n', hins, hn', hnew⟩ := steadyAt_iff.mp h
  cases hn.symm.trans hn'
  obtain ⟨-, st?, hst, hstorage⟩ := hc.storage hnew
  refine ⟨ins, hins, ?_⟩
  cases st? with
  | none => exact absurd (Op.eq_create_of_outputStorage? hst) hop
  | some st => rw [hst, hstorage, Option.getD_some]

section Derive

variable {change : List Relation → NodeEdit Unit} (h : p.Conserves) (hp : p.Coherent) (hc : Node.Derivation change)

include h hp

/-- The parties that a node should be stored with are those that its inputs are stored with. -/
theorem Conserves.mem_outputStorage? {ins : List Relation} {st : Storage} (hn : p.nodes.get? k = some n)
    (hins : p.inputRelations k = .ok ins) (hst : n.op.outputStorage? ins = .ok (some st)) :
    st.members = n.rel.storage.members := by
  by_cases hclosing : IsClosing n.op
  · obtain ⟨st', hop⟩ := hclosing
    rw [hop, Op.outputStorage?, Except.ok.injEq, Option.some.injEq] at hst
    rw [h.closed k n st' hn hop, hst]
  cases hsource : n.op.isSource with
  | true =>
    obtain ⟨recipients, hop, hmembers⟩ := Op.collect_of_outputStorage? hsource hst
    rw [h.collected k n recipients hn hop, hmembers]
  | false =>
    ext a
    rw [Op.mem_members_outputStorage? hst (fun hop => hp.inputRelations_of_unary hn hop hins) hsource hclosing,
      h.stored k n hn hclosing]
    constructor
    · rintro ⟨r, hr, ha⟩
      obtain ⟨u, hu, m, hm, rfl⟩ := (mem_inputRelations hins hn).mp hr
      by_cases hop : IsClosing m.op
      · obtain ⟨st', hop⟩ := hop
        rw [h.closed u m st' hm hop] at ha
        exact (h.shared u m st' k n hm hop hn hu hclosing a).mp ha
      · exact .input hn hsource hu ((h.stored u m hm hop a).mp ha)
    · intro hdraws
      obtain ⟨u, hu, hdraws'⟩ := (draws_input hn hsource).mp hdraws
      obtain ⟨m, hm⟩ := hp.closed ⟨n, hn, hu⟩
      refine ⟨m.rel, (mem_inputRelations hins hn).mpr ⟨u, hu, m, hm, rfl⟩, ?_⟩
      by_cases hop : IsClosing m.op
      · obtain ⟨st', hop⟩ := hop
        rw [h.closed u m st' hm hop]
        exact (h.shared u m st' k n hm hop hn hu hclosing a).mpr hdraws
      · exact (h.stored u m hm hop a).mpr hdraws'

include hc

theorem Conserves.sameMembers (run : Edit.derive change k p = .ok () q) : SameMembers p q := by
  intro j n' m' hn' hm'
  obtain ⟨ins, n, m, hins, hn, hm, rfl⟩ := Edit.run_derive.mp run
  obtain ⟨hop, st?, hst, hstorage⟩ := hc.storage hm
  rw [get?_set] at hm'
  split at hm'
  case isTrue hj =>
    subst hj
    cases hn.symm.trans hn'
    cases hm'
    rw [hstorage]
    cases st? with
    | none => rfl
    | some st => exact h.mem_outputStorage? hp hn hins hst
  case isFalse => rw [Option.some.inj (hm'.symm.trans hn')]

end Derive

-- ---------------------------------------------------------------------------
-- Putting nodes in
-- ---------------------------------------------------------------------------

section Splice

variable {parent : NodeId} {cs : NodeSet} {op : Op} {rel : Relation} {o : Node} (hp : p.Coherent)
  (ho : p.nodes.get? parent = some o) (hop : op.isSource = false)

include hp ho hop

theorem Draws.splice (h : p.Draws k a) : (p.splice parent cs op rel).Draws k a := by
  have hold {k : NodeId} {n : Node} (hn : p.nodes.get? k = some n) :
      (p.splice parent cs op rel).nodes.get? k = some (relinked parent p.nextId cs k n) := by
    rw [get?_splice, if_neg (hp.ne_nextId hn), hn, Option.map_some]
  induction h with
  | source hn hsource ha => exact .source (hold hn) (by rwa [relinked_op]) (by rwa [relinked_rel])
  | @input k u n a hn hsource hu _ ih =>
    by_cases hnew : k ∈ cs ∧ u = parent
    · obtain ⟨hk, rfl⟩ := hnew
      have hnode : (p.splice u cs op rel).nodes.get? p.nextId = _ := (get?_splice p.nextId).trans (if_pos rfl)
      refine .input (u := p.nextId) (hold hn) (by rwa [relinked_op]) ?_ (.input hnode hop (by simp) ih)
      rw [relinked_inputs, if_pos hk, Inputs.mem_ids_replace]
      exact .inl ⟨rfl, hu⟩
    · refine .input (hold hn) (by rwa [relinked_op]) ?_ ih
      rw [relinked_inputs]
      split
      case isTrue hk => exact Inputs.mem_ids_replace.mpr (.inr ⟨fun h => hnew ⟨hk, h⟩, hu⟩)
      case isFalse => exact hu

theorem Draws.of_splice (h : (p.splice parent cs op rel).Draws k a) :
    p.Draws (if k = p.nextId then parent else k) a := by
  have hparent := hp.ne_nextId ho
  induction h with
  | @source k n a hn hsource ha =>
    obtain ⟨rfl, rfl⟩ | ⟨hk, m, hm, rfl⟩ := get?_splice_eq_some hn
    · exact absurd (hop.symm.trans hsource) (by decide)
    · rw [if_neg hk]
      exact .source hm (by rwa [relinked_op] at hsource) (by rwa [relinked_rel] at ha)
  | @input k u n a hn hsource hu _ ih =>
    obtain ⟨rfl, rfl⟩ | ⟨hk, m, hm, rfl⟩ := get?_splice_eq_some hn
    · obtain rfl : u = parent := by simpa using hu
      rw [if_pos rfl]
      rwa [if_neg hparent] at ih
    · rw [if_neg hk]
      rw [relinked_op] at hsource
      rw [relinked_inputs] at hu
      have hcases : (u = p.nextId ∧ parent ∈ m.inputs.ids) ∨ u ∈ m.inputs.ids := by
        split at hu
        · exact (Inputs.mem_ids_replace.mp hu).imp_right And.right
        · exact .inr hu
      rcases hcases with ⟨rfl, hin⟩ | hin
      · rw [if_pos rfl] at ih
        exact .input hm hsource hin ih
      · obtain ⟨l, hl⟩ := hp.closed ⟨m, hm, hin⟩
        rw [if_neg (hp.ne_nextId hl)] at ih
        exact .input hm hsource hin ih

/-- What a node comes from does not depend on what has been put in. -/
theorem draws_splice (hk : k ≠ p.nextId) : (p.splice parent cs op rel).Draws k a ↔ p.Draws k a := by
  refine ⟨fun h => ?_, Draws.splice hp ho hop⟩
  have := h.of_splice hp ho hop
  rwa [if_neg hk] at this

theorem draws_splice_new : (p.splice parent cs op rel).Draws p.nextId a ↔ p.Draws parent a := by
  rw [draws_input ((get?_splice p.nextId).trans (if_pos rfl)) hop]
  simpa using draws_splice hp ho hop (hp.ne_nextId ho)

/-- What is put in is stored as what feeds it, and what is closed is stored as its readers. -/
theorem Conserves.splice (h : p.Conserves) (hopen : ¬ IsClosing op → ¬ IsClosing o.op ∧ rel.storage.members = o.rel.storage.members)
    (hclose : ∀ st, op = .closing st → rel.storage.members = st.members ∧ ∀ c ∈ cs, ∀ a, a ∈ st.members ↔ p.Draws c a) :
    (p.splice parent cs op rel).Conserves := by
  have hreads {k v : NodeId} {m : Node} (hm : p.nodes.get? v = some m) (hk : k ∈ (relinked parent p.nextId cs v m).inputs.ids) :
      (k = p.nextId ∧ v ∈ cs) ∨ (k ≠ p.nextId ∧ k ∈ m.inputs.ids) := by
    have hold (hk : k ∈ m.inputs.ids) : k ≠ p.nextId := fun h => hp.not_nextId_feeds ⟨m, hm, h ▸ hk⟩
    rw [relinked_inputs] at hk
    split at hk
    case isTrue hv =>
      exact (Inputs.mem_ids_replace.mp hk).imp (fun h => ⟨h.1, hv⟩) fun h => ⟨hold h.2, h.2⟩
    case isFalse => exact .inr ⟨hold hk, hk⟩
  constructor
  case stored =>
    intro k n hn hclosing a
    obtain ⟨rfl, rfl⟩ | ⟨hk, m, hm, rfl⟩ := get?_splice_eq_some hn
    · obtain ⟨hparent, hmembers⟩ := hopen hclosing
      rw [draws_splice_new hp ho hop, hmembers]
      exact h.stored parent o ho hparent a
    · rw [relinked_op] at hclosing
      rw [draws_splice hp ho hop hk, relinked_rel]
      exact h.stored k m hm hclosing a
  case collected =>
    intro k n recipients hn hcollect
    obtain ⟨rfl, rfl⟩ | ⟨hk, m, hm, rfl⟩ := get?_splice_eq_some hn
    · rw [show op = _ from hcollect] at hop
      cases hop
    · rw [relinked_op] at hcollect
      rw [relinked_rel]
      exact h.collected k m recipients hm hcollect
  case closed =>
    intro k n st hn hclosing
    obtain ⟨rfl, rfl⟩ | ⟨hk, m, hm, rfl⟩ := get?_splice_eq_some hn
    · exact (hclose st hclosing).1
    · rw [relinked_op] at hclosing
      rw [relinked_rel]
      exact h.closed k m st hm hclosing
  case shared =>
    intro k n st v m hget hclosing hgetV hk hreader a
    obtain ⟨rfl, rfl⟩ | ⟨hv, m, hm, rfl⟩ := get?_splice_eq_some hgetV
    · obtain rfl : k = parent := by simpa using hk
      obtain ⟨hknew, -⟩ | ⟨-, n, hn, rfl⟩ := get?_splice_eq_some hget
      · exact absurd hknew (hp.ne_nextId ho)
      · cases ho.symm.trans hn
        exact absurd ⟨st, by rwa [relinked_op] at hclosing⟩ (hopen hreader).1
    · rw [relinked_op] at hreader
      rw [draws_splice hp ho hop hv]
      rcases hreads hm hk with ⟨rfl, hv⟩ | ⟨hk, hin⟩
      · rw [get?_splice, if_pos rfl, Option.some.injEq] at hget
        subst hget
        exact (hclose st hclosing).2 v hv a
      · obtain ⟨hknew, -⟩ | ⟨-, n, hn, rfl⟩ := get?_splice_eq_some hget
        · exact absurd hknew hk
        · rw [relinked_op] at hclosing
          exact h.shared k n st v m hn hclosing hm hin hreader a

end Splice

-- ---------------------------------------------------------------------------
-- What changes storage and not its members
-- ---------------------------------------------------------------------------

/-- All parties that stored a node before store it afterwards, and no others do. -/
structure Keeping (p q : Plan) : Prop where
  conserves : q.Conserves
  outline : q.outline = p.outline
  same : SameMembers p q

namespace Keeping

variable {r : Plan}

theorem refl (h : p.Conserves) : Keeping p p where
  conserves := h
  outline := rfl
  same k n m hn hm := by rw [Option.some.inj (hn.symm.trans hm)]

theorem trans (h₁ : Keeping p q) (h₂ : Keeping q r) : Keeping p r where
  conserves := h₂.conserves
  outline := h₂.outline.trans h₁.outline
  same k n m hn hm := by
    obtain ⟨l, hl, -⟩ := get?_of_outline_eq h₂.outline hm
    rw [h₂.same k l m hl hm, h₁.same k n l hn hl]

theorem draws (h : Keeping p q) : q.Draws k a ↔ p.Draws k a := draws_of_outline_eq h.outline h.same

end Keeping

end Plan

namespace Edit

open Plan Boundary

variable {p q : Plan} {k : NodeId} {u : Unit}

theorem keeping_of_derive {change : List Relation → NodeEdit Unit} (hc : Node.Derivation change)
    (hrenews : Renews {k} (derive change k)) (hp : p.Coherent) (h : p.Conserves)
    (run : derive change k p = .ok u q) : Keeping p q :=
  have houtline := (hrenews run).outline
  have hsame := h.sameMembers hp hc run
  ⟨h.of_outline_eq houtline hsame, houtline, hsame⟩

theorem keeping_of_forM {ι : Type} {l : List ι} {x : ι → Edit Unit}
    (step : ∀ i p q, p.Coherent → p.Conserves → x i p = .ok () q → Keeping p q) (hp : p.Coherent) (h : p.Conserves)
    (run : l.forM x p = .ok u q) : Keeping p q :=
  forM_loop (motive := fun _ r => Keeping p r)
    (fun i _ r s hr hstep => hr.trans (step i r s (hp.of_outline_eq hr.outline) hr.conserves hstep)) (.refl h) run

theorem keeping_of_refreshStorage (hp : p.Coherent) (h : p.Conserves) (run : refreshStorage k p = .ok u q) :
    Keeping p q := keeping_of_derive Node.restored_derivation Renews.refreshStorage hp h run

theorem keeping_of_forEachDerived {change : List Relation → NodeEdit Unit} (hc : Node.Derivation change)
    (hrenews : ∀ k, Renews {k} (derive change k)) (hp : p.Coherent) (h : p.Conserves)
    (run : forEachDerived (derive change) p = .ok u q) : Keeping p q := by
  obtain ⟨order, _, asked, run⟩ := run_bind.mp run
  obtain ⟨-, rfl⟩ := run_ask.mp asked
  refine keeping_of_forM (fun k p q hp h run => ?_) hp h run
  obtain ⟨n, _, asked, run⟩ := run_bind.mp run
  obtain ⟨-, rfl⟩ := run_node.mp asked
  split at run
  · exact keeping_of_derive hc (hrenews k) hp h run
  · obtain ⟨-, rfl⟩ := run_pure.mp run
    exact .refl h

theorem keeping_of_refreshAll (hp : p.Coherent) (h : p.Conserves) (run : refreshAll p = .ok u q) : Keeping p q :=
  keeping_of_forEachDerived Node.anew_derivation (fun _ => Renews.refresh) hp h run

theorem keeping_of_propagateStorage (hp : p.Coherent) (h : p.Conserves) (run : propagateStorage p = .ok u q) :
    Keeping p q := keeping_of_forEachDerived Node.restored_derivation (fun _ => Renews.refreshStorage) hp h run

end Edit

end JointPlan
