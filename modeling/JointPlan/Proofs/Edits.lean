import JointPlan.Plan.Refresh
import JointPlan.Plan.Surgery
import JointPlan.Plan.Sweep
import Mathlib.Tactic

/-!
# Reasoning about edits

An edit either finishes with a value and a plan or stops with a fault. The
lemmas here say when it finishes: one lemma per way of putting edits together and
one per elementary edit, so that a program in `Edit` is taken apart by rewriting.
A loop is followed by what holds of the plan and of the elements still to come.

An edit that fails keeps what it had done before. What holds of it whatever its
outcome is said by `Leads R`: the plan that it leaves behind is related by `R` to the
plan that it was run on.

Numbers are given out in order, and the edit that asks for one when none is left fails with a
fault of its own. `Edit.Exhausts` says that this is how an edit ends.
-/

namespace JointPlan

-- ---------------------------------------------------------------------------
-- Finished runs
-- ---------------------------------------------------------------------------

section Runs

variable {ε σ α β : Type} {s t : σ}

@[simp] theorem run_pure {a b : α} : (pure a : EStateM ε σ α) s = .ok b t ↔ a = b ∧ s = t := by
  simp [pure, EStateM.pure]

@[simp] theorem run_bind {x : EStateM ε σ α} {f : α → EStateM ε σ β} {b : β} :
    (x >>= f) s = .ok b t ↔ ∃ a r, x s = .ok a r ∧ f a r = .ok b t := by
  cases h : x s <;> simp [bind, EStateM.bind, h]

@[simp] theorem run_throw {e : ε} {a : α} : (throw e : EStateM ε σ α) s = .ok a t ↔ False := by
  change EStateM.Result.error e s = .ok a t ↔ False
  simp

@[simp] theorem run_get {r : σ} : (get : EStateM ε σ σ) s = .ok r t ↔ s = r ∧ s = t := by
  change EStateM.Result.ok s s = .ok r t ↔ s = r ∧ s = t
  simp

@[simp] theorem run_modify {f : σ → σ} {u : Unit} :
    (modify f : EStateM ε σ PUnit) s = .ok u t ↔ f s = t := by
  change EStateM.Result.ok PUnit.unit (f s) = .ok u t ↔ f s = t
  simp

@[simp] theorem run_discard {x : EStateM ε σ α} {u : Unit} :
    (discard x : EStateM ε σ PUnit) s = .ok u t ↔ ∃ a, x s = .ok a t := by
  cases h : x s <;> simp [discard, Functor.mapConst, Function.const, EStateM.map, h]

/-- A check, and a check in front of the rest. -/
theorem run_check {c : Prop} [Decidable c] {e : ε} {u : Unit} :
    (if c then throw e else pure () : EStateM ε σ PUnit) s = .ok u t ↔ ¬ c ∧ s = t := by
  split
  · simp [*]
  · simp [*]

theorem run_guard {c : Prop} [Decidable c] {e : ε} {f : PUnit → EStateM ε σ α} {a : α} :
    (if c then throw e >>= f else f ()) s = .ok a t ↔ ¬ c ∧ f () s = .ok a t := by
  split
  · simp [*]
  · simp [*]

theorem run_forM_nil {f : α → EStateM ε σ PUnit} {u : Unit} :
    ([] : List α).forM f s = .ok u t ↔ s = t := by
  simp

theorem run_forM_cons {f : α → EStateM ε σ PUnit} {a : α} {l : List α} {u : Unit} :
    (a :: l).forM f s = .ok u t ↔ ∃ r, f a s = .ok () r ∧ l.forM f r = .ok () t :=
  run_bind.trans ⟨fun ⟨_, r, h⟩ => ⟨r, h⟩, fun ⟨r, h⟩ => ⟨(), r, h⟩⟩

theorem run_forM_append {f : α → EStateM ε σ PUnit} {l l' : List α} {u : Unit} :
    (l ++ l').forM f s = .ok u t ↔ ∃ r, l.forM f s = .ok () r ∧ l'.forM f r = .ok () t := by
  induction l generalizing s with
  | nil => simp only [List.nil_append, run_forM_nil, exists_eq_left']
  | cons a l ih =>
    simp only [List.cons_append, run_forM_cons, ih]
    exact ⟨fun ⟨r, ha, m, hl, hl'⟩ => ⟨m, ⟨r, ha, hl⟩, hl'⟩, fun ⟨m, ⟨r, ha, hl⟩, hl'⟩ => ⟨r, ha, m, hl, hl'⟩⟩

theorem run_mapM_nil {f : α → EStateM ε σ β} {bs : List β} :
    ([] : List α).mapM f s = .ok bs t ↔ [] = bs ∧ s = t := by
  simp

theorem run_mapM_cons {f : α → EStateM ε σ β} {a : α} {l : List α} {bs : List β} :
    (a :: l).mapM f s = .ok bs t ↔
      ∃ b r cs, f a s = .ok b r ∧ l.mapM f r = .ok cs t ∧ b :: cs = bs := by
  rw [List.mapM_cons]
  simp only [run_bind, run_pure]
  constructor
  · rintro ⟨b, r, hb, cs, _, hl, rfl, rfl⟩
    exact ⟨b, r, cs, hb, hl, rfl⟩
  · rintro ⟨b, r, cs, hb, hl, rfl⟩
    exact ⟨b, r, hb, cs, t, hl, rfl, rfl⟩

theorem bind_eq_ok {x : Except ε α} {f : α → Except ε β} {b : β} :
    (x >>= f) = .ok b ↔ ∃ a, x = .ok a ∧ f a = .ok b := by
  cases x <;> simp [bind, Except.bind]

theorem map_eq_ok {x : Except ε α} {f : α → β} {b : β} :
    f <$> x = .ok b ↔ ∃ a, x = .ok a ∧ f a = b := by
  cases x <;> simp [Functor.map, Except.map]

theorem pure_eq_ok {a b : α} : (pure a : Except ε α) = .ok b ↔ a = b := by
  simp [pure, Except.pure]

/-- Lookups that agree where they are made. -/
theorem mapM_congr {f g : α → Except ε β} {l : List α} (h : ∀ a ∈ l, f a = g a) :
    l.mapM f = l.mapM g := by
  induction l with
  | nil => rfl
  | cons a l ih =>
    rw [List.mapM_cons, List.mapM_cons, h a List.mem_cons_self,
      ih fun b hb => h b (List.mem_cons_of_mem _ hb)]

/-- Lookups in a row succeed when each of them does. -/
theorem mapM_eq_ok {f : α → Except ε β} {l : List α} {bs : List β} :
    l.mapM f = .ok bs ↔ List.Forall₂ (fun a b => f a = .ok b) l bs := by
  induction l generalizing bs with
  | nil => cases bs <;> simp [pure, Except.pure]
  | cons a l ih =>
    rw [List.mapM_cons]
    cases ha : f a with
    | error e => cases bs <;> simp [bind, Except.bind, ha]
    | ok b =>
      cases hl : l.mapM f with
      | error e =>
        cases bs with
        | nil => simp [bind, Except.bind]
        | cons c cs => simp [bind, Except.bind, ← ih, hl]
      | ok cs =>
        cases bs with
        | nil => simp [bind, Except.bind, pure, Except.pure]
        | cons c cs => simp [bind, Except.bind, pure, Except.pure, ← ih, hl, ha]

theorem exists_forall₂ {R : α → β → Prop} {l : List α} (h : ∀ a ∈ l, ∃ b, R a b) :
    ∃ bs, List.Forall₂ R l bs := by
  induction l with
  | nil => exact ⟨[], .nil⟩
  | cons a l ih =>
    obtain ⟨b, hb⟩ := h a List.mem_cons_self
    obtain ⟨bs, hbs⟩ := ih fun c hc => h c (List.mem_cons_of_mem _ hc)
    exact ⟨b :: bs, .cons hb hbs⟩

/-- What holds before a loop, with all elements to come, holds after it with none. -/
theorem forM_loop {f : α → EStateM ε σ PUnit} {motive : List α → σ → Prop}
    (step : ∀ a l s t, motive (a :: l) s → f a s = .ok () t → motive l t)
    {l : List α} {u : Unit} (h : motive l s) (run : l.forM f s = .ok u t) : motive [] t := by
  induction l generalizing s with
  | nil => exact run_forM_nil.mp run ▸ h
  | cons a l ih =>
    obtain ⟨r, ha, hl⟩ := run_forM_cons.mp run
    exact ih (step a l s r h ha) hl

/-- A loop each of whose steps finishes. -/
theorem forM_total {f : α → EStateM ε σ PUnit} {motive : List α → σ → Prop}
    (step : ∀ a l s, motive (a :: l) s → ∃ t, f a s = .ok () t ∧ motive l t) {l : List α} (h : motive l s) :
    ∃ t, l.forM f s = .ok () t ∧ motive [] t := by
  induction l generalizing s with
  | nil => exact ⟨s, rfl, h⟩
  | cons a l ih =>
    obtain ⟨r, ha, hr⟩ := step a l s h
    obtain ⟨t, hl, ht⟩ := ih hr
    exact ⟨t, run_forM_cons.mpr ⟨r, ha, hl⟩, ht⟩

/-- A loop of which no step changes anything. -/
theorem forM_stays {f : α → EStateM ε σ PUnit} {l : List α} (h : ∀ a ∈ l, f a s = .ok () s) :
    l.forM f s = .ok () s := by
  induction l with
  | nil => rfl
  | cons a l ih =>
    exact run_forM_cons.mpr ⟨s, h a List.mem_cons_self, ih fun b hb => h b (List.mem_cons_of_mem _ hb)⟩

end Runs

-- ---------------------------------------------------------------------------
-- Runs whatever their outcome
-- ---------------------------------------------------------------------------

section Outcomes

variable {ε σ α β : Type} {s t : σ} {x : EStateM ε σ α} {f : α → EStateM ε σ β}

/-- The state that a run ends in, be it finished or failed. -/
def after (x : EStateM ε σ α) (s : σ) : σ :=
  match x s with
  | .ok _ t => t
  | .error _ t => t

theorem after_of_ok {a : α} (run : x s = .ok a t) : after x s = t := by rw [after, run]

theorem after_of_error {e : ε} (run : x s = .error e t) : after x s = t := by rw [after, run]

theorem after_congr {y : EStateM ε σ α} (h : x s = y t) : after x s = after y t := by rw [after, h, after]

theorem bind_of_ok {a : α} (run : x s = .ok a t) : (x >>= f) s = f a t := by
  simp [bind, EStateM.bind, run]

theorem bind_of_error {e : ε} (run : x s = .error e t) : (x >>= f) s = .error e t := by
  simp [bind, EStateM.bind, run]

theorem after_bind_of_ok {a : α} (run : x s = .ok a t) : after (x >>= f) s = after (f a) t := by
  rw [after, bind_of_ok run, after]

theorem after_bind_of_error {e : ε} (run : x s = .error e t) : after (x >>= f) s = t :=
  after_of_error (bind_of_error run)

/-- What is returned does not matter. -/
theorem after_bind_pure {g : α → β} : after (x >>= fun a => pure (g a)) s = after x s := by
  cases run : x s with
  | ok a t => rw [after_bind_of_ok run, after_of_ok run]; rfl
  | error e t => rw [after_bind_of_error run, after_of_error run]

theorem after_discard : after (discard x) s = after x s := by
  unfold after
  cases run : x s <;> simp [Functor.discard, Functor.mapConst, EStateM.map, run]

/-- Every run leads from a state to one that is related to it. -/
def Leads (R : σ → σ → Prop) (x : EStateM ε σ α) : Prop := ∀ s, R s (after x s)

namespace Leads

variable {R : σ → σ → Prop}

theorem of_ok {a : α} (h : Leads R x) (run : x s = .ok a t) : R s t := after_of_ok run ▸ h s

theorem of_error {e : ε} (h : Leads R x) (run : x s = .error e t) : R s t := after_of_error run ▸ h s

theorem modify {g : σ → σ} (h : ∀ s, R s (g s)) : Leads R (modify g : EStateM ε σ PUnit) := h

theorem discard (hx : Leads R x) : Leads R (discard x) := by
  intro s
  rw [after_discard]
  exact hx s

theorem ite {c : Prop} [Decidable c] {y z : EStateM ε σ α} (hy : Leads R y) (hz : Leads R z) :
    Leads R (if c then y else z) := by
  split
  · exact hy
  · exact hz

variable [IsPreorder σ R]

theorem pure {a : α} : Leads R (Pure.pure a : EStateM ε σ α) := fun s => refl_of R s

theorem throw {e : ε} : Leads R (throw e : EStateM ε σ α) := fun s => refl_of R s

theorem get : Leads R (get : EStateM ε σ σ) := fun s => refl_of R s

theorem bind (hx : Leads R x) (hf : ∀ a, Leads R (f a)) : Leads R (x >>= f) := by
  intro s
  cases run : x s with
  | ok a t =>
    rw [after, bind_of_ok run]
    exact trans_of R (hx.of_ok run) (hf a t)
  | error e t =>
    rw [after, bind_of_error run]
    exact hx.of_error run

/-- A check in front of the rest. -/
theorem guard {c : Prop} [Decidable c] {e : ε} {y : PUnit → EStateM ε σ α}
    (hy : ∀ u, Leads R (y u)) : Leads R (if c then MonadExcept.throw e >>= y else y ()) :=
  ite (throw.bind hy) (hy ())

theorem forM {ι : Type} {l : List ι} {g : ι → EStateM ε σ PUnit} (h : ∀ a ∈ l, Leads R (g a)) :
    Leads R (l.forM g) := by
  induction l with
  | nil => exact pure
  | cons a l ih =>
    exact bind (h a List.mem_cons_self) fun _ => ih fun b hb => h b (List.mem_cons_of_mem _ hb)

theorem mapM {ι : Type} {l : List ι} {g : ι → EStateM ε σ α} (h : ∀ a ∈ l, Leads R (g a)) :
    Leads R (l.mapM g) := by
  induction l with
  | nil => rw [List.mapM_nil]; exact pure
  | cons a l ih =>
    rw [List.mapM_cons]
    exact bind (h a List.mem_cons_self) fun _ =>
      bind (ih fun b hb => h b (List.mem_cons_of_mem _ hb)) fun _ => pure

end Leads

/-- The run only looks things up. -/
abbrev Reads (x : EStateM ε σ α) : Prop := Leads (· = ·) x

theorem Reads.leads {R : σ → σ → Prop} [IsPreorder σ R] (h : Reads x) : Leads R x :=
  fun s => (h s) ▸ refl_of R s

/-- Either the run has failed with nothing done, or its outcome is as `good` says. -/
def FailsOr (good : EStateM.Result ε σ α → Prop) (s : σ) (r : EStateM.Result ε σ α) : Prop :=
  (∃ e, r = .error e s) ∨ good r

namespace FailsOr

variable {good : EStateM.Result ε σ β → Prop}

/-- A lookup in front of the rest. -/
theorem bind (hx : Reads x) (h : ∀ a, x s = .ok a s → FailsOr good s (f a s)) :
    FailsOr good s ((x >>= f) s) := by
  cases run : x s with
  | ok a t =>
    obtain rfl := hx.of_ok run
    rw [bind_of_ok run]
    exact h a run
  | error e t =>
    obtain rfl := hx.of_error run
    exact .inl ⟨e, bind_of_error run⟩

/-- A check in front of the rest. -/
theorem guard {c : Prop} [Decidable c] {e : ε} {y : PUnit → EStateM ε σ β}
    (h : ¬ c → FailsOr good s (y () s)) : FailsOr good s ((if c then throw e >>= y else y ()) s) := by
  split
  · exact .inl ⟨e, rfl⟩
  · exact h ‹_›

theorem done {r : EStateM.Result ε σ β} (h : good r) : FailsOr good s r := .inr h

/-- A finished run has not failed. -/
theorem of_ok {b : β} (h : FailsOr good s (.ok b t)) : good (.ok b t) :=
  h.resolve_left fun ⟨_, he⟩ => nomatch he

end FailsOr

end Outcomes

-- ---------------------------------------------------------------------------
-- Lookups and elementary edits
-- ---------------------------------------------------------------------------

namespace Plan

/-- The plan with the node `n` under the number `id`. -/
def set (p : Plan) (id : NodeId) (n : Node) : Plan := { p with nodes := p.nodes.insert id n }

variable {p : Plan} {id : NodeId} {n : Node}

theorem get?_set (k : NodeId) :
    (p.set id n).nodes.get? k = if k = id then some n else p.nodes.get? k :=
  IdMap.get?_insert _ _ _ _

@[simp] theorem set_roots : (p.set id n).roots = p.roots := rfl

@[simp] theorem set_nextId : (p.set id n).nextId = p.nextId := rfl

@[simp] theorem node_eq_ok : p.node id = .ok n ↔ p.nodes.get? id = some n := by
  unfold node
  cases p.nodes.get? id <;> simp

/-- The relations that feed a node are those of its inputs, in their order. -/
theorem inputRelations_eq_ok {ins : List Relation} :
    p.inputRelations id = .ok ins ↔ ∃ n, p.nodes.get? id = some n ∧
      List.Forall₂ (fun k r => ∃ m, p.nodes.get? k = some m ∧ m.rel = r) n.inputs.ids ins := by
  have hrel (k : NodeId) (r : Relation) :
      Node.rel <$> p.node k = .ok r ↔ ∃ m, p.nodes.get? k = some m ∧ m.rel = r := by
    unfold node
    cases p.nodes.get? k <;> simp [Functor.map, Except.map]
  unfold inputRelations
  cases hn : p.node id with
  | error fault =>
    have hnone (n : Node) : p.nodes.get? id ≠ some n := fun h => by
      simp [node_eq_ok.mpr h] at hn
    simp [bind, Except.bind, hnone]
  | ok n =>
    simp only [bind, Except.bind, mapM_eq_ok, hrel, node_eq_ok.mp hn, Option.some.injEq,
      exists_eq_left']

/-- The plan when the next number has been given away. -/
def reserve (p : Plan) : Plan := { p with nextId := p.nextId + 1 }

end Plan

namespace Edit

variable {α β : Type} {p q : Plan} {id : NodeId}

@[simp] theorem run_ask {f : Plan → Except Fault α} {a : α} :
    ask f p = .ok a q ↔ f p = .ok a ∧ p = q := by
  unfold ask
  cases f p <;> simp

@[simp] theorem run_node {n : Node} : node id p = .ok n q ↔ p.nodes.get? id = some n ∧ p = q := by
  simp [node]

theorem run_onNode {change : NodeEdit α} {a : α} :
    onNode id change p = .ok a q ↔
      ∃ n m, p.nodes.get? id = some n ∧ change n = .ok a m ∧ q = p.set id m := by
  simp only [onNode, run_bind, run_node]
  constructor
  · rintro ⟨n, r, ⟨hn, rfl⟩, h⟩
    cases hc : change n with
    | ok b m =>
      simp only [hc, run_bind, run_modify, run_pure] at h
      obtain ⟨_, _, rfl, rfl, rfl⟩ := h
      exact ⟨n, m, hn, hc, rfl⟩
    | error fault m =>
      simp only [hc, run_bind, run_throw, and_false, exists_false] at h
  · rintro ⟨n, m, hn, hc, rfl⟩
    refine ⟨n, p, ⟨hn, rfl⟩, ?_⟩
    simp only [hc, run_bind, run_modify, run_pure]
    exact ⟨(), _, rfl, trivial, rfl⟩

@[simp] theorem run_modifyNode {f : Node → Node} {u : Unit} :
    modifyNode id f p = .ok u q ↔ ∃ n, p.nodes.get? id = some n ∧ q = p.set id (f n) := by
  simp [modifyNode, run_onNode]

theorem freshId_eq_error (h : ¬ p.nextId + 1 < Word.limit) : freshId p = .error .exhausted p := by
  change (if p.nextId + 1 < Word.limit then _ else _ : Edit NodeId) p = _
  rw [if_neg h]
  rfl

@[simp] theorem run_freshId {k : NodeId} :
    freshId p = .ok k q ↔ p.nextId + 1 < Word.limit ∧ k = p.nextId ∧ q = p.reserve := by
  by_cases hroom : p.nextId + 1 < Word.limit
  · have hfresh : freshId p = .ok p.nextId p.reserve := by
      change (if p.nextId + 1 < Word.limit then _ else _ : Edit NodeId) p = _
      rw [if_pos hroom]
      rfl
    simp [hfresh, hroom, eq_comm]
  · simp [freshId_eq_error hroom, hroom]

theorem run_addNode {op : Op} {rel : Relation} {inputs : Inputs} {parents : NodeSet} {k : NodeId} :
    addNode op rel inputs parents p = .ok k q ↔ p.nextId + 1 < Word.limit ∧ k = p.nextId ∧
      q = p.reserve.set k { id := k, op, rel, inputs, parents, children := ∅ } := by
  simp only [addNode, run_bind, run_freshId, run_modify, run_pure]
  constructor
  · rintro ⟨k', _, ⟨hroom, rfl, rfl⟩, _, _, rfl, rfl, rfl⟩
    exact ⟨hroom, rfl, rfl⟩
  · rintro ⟨hroom, rfl, rfl⟩
    exact ⟨_, _, ⟨hroom, rfl, rfl⟩, (), _, rfl, rfl, rfl⟩

/-- No node can be added when the last number has been given away. -/
theorem addNode_eq_error {op : Op} {rel : Relation} {inputs : Inputs} {parents : NodeSet}
    (h : ¬ p.nextId + 1 < Word.limit) : addNode op rel inputs parents p = .error .exhausted p :=
  bind_of_error (freshId_eq_error h)

-- ---------------------------------------------------------------------------
-- Edits whatever their outcome
-- ---------------------------------------------------------------------------

variable {R : Plan → Plan → Prop} [IsPreorder Plan R]

theorem ask_leads {g : Plan → Except Fault α} : Leads R (ask g) := by
  intro p
  unfold after ask
  cases g p <;> exact refl_of R p

theorem node_leads : Leads R (node id) := ask_leads

/-- A change of one node keeps what it had done when it failed. -/
theorem onNode_leads {change : NodeEdit α}
    (h : ∀ p n, p.nodes.get? id = some n → R p (p.set id (after change n))) :
    Leads R (onNode id change) := by
  intro p
  cases hn : p.nodes.get? id with
  | none =>
    have hfault : node id p = .error (.unknownNode id) p := by simp [node, ask, Plan.node, hn]
    rw [after, onNode, bind_of_error hfault]
    exact refl_of R p
  | some n =>
    have hp := h p n hn
    rw [after, onNode, bind_of_ok (run_node.mpr ⟨hn, rfl⟩)]
    unfold after at hp
    cases hc : change n <;> simp only [hc] at hp ⊢ <;> exact hp

theorem forEachDerived_leads {g : NodeId → Edit Unit} (h : ∀ id, Leads R (g id)) :
    Leads R (forEachDerived g) :=
  ask_leads.bind fun _ => .forM fun id _ => node_leads.bind fun _ => .ite (h id) .pure

/-- The edit comes to a halt because no number is left. -/
def Exhausts (x : Edit α) (p : Plan) : Prop := ∃ q, x p = .error .exhausted q

theorem not_exhausts_of_ok {x : Edit α} {a : α} (run : x p = .ok a q) : ¬ Exhausts x p := by
  rintro ⟨r, hr⟩
  cases run.symm.trans hr

end Edit

-- ---------------------------------------------------------------------------
-- Sweeps
-- ---------------------------------------------------------------------------

namespace Direction

/-- The nodes of a topological order as they are visited. -/
def arrange : Direction → List NodeId → List NodeId
  | .forward, order => order
  | .backward, order => order.reverse

end Direction

namespace Pass

variable {pass : Pass} {p q : Plan} {id : NodeId} {u : Unit}

/-- What a pass does when the turn of a node has come. -/
def step (pass : Pass) (id : NodeId) : Edit Unit := do
  match (← get).nodes.get? id with
  | none => return
  | some n => pass.visit id n.op

theorem run_step : pass.step id p = .ok u q ↔
    (p.nodes.get? id = none ∧ p = q) ∨
      ∃ n, p.nodes.get? id = some n ∧ pass.visit id n.op p = .ok () q := by
  simp only [step, run_bind, run_get]
  constructor
  · rintro ⟨_, _, ⟨rfl, rfl⟩, run⟩
    cases hn : p.nodes.get? id with
    | none => exact .inl ⟨rfl, by simpa [hn] using run⟩
    | some n => exact .inr ⟨n, rfl, by simpa [hn] using run⟩
  · rintro (⟨hn, rfl⟩ | ⟨n, hn, run⟩)
    · exact ⟨p, p, ⟨rfl, rfl⟩, by simp [hn]⟩
    · exact ⟨p, p, ⟨rfl, rfl⟩, by simpa [hn] using run⟩

theorem step_leads {R : Plan → Plan → Prop} [IsPreorder Plan R]
    (h : ∀ op, Leads R (pass.visit id op)) : Leads R (pass.step id) := Leads.get.bind fun p => by
  cases p.nodes.get? id with
  | none => exact .pure
  | some n => exact h n.op

/-- A pass fixes an order, takes one step per node and finishes. -/
theorem run_eq (pass : Pass) : pass.run = (do
    let order ← Edit.ask Plan.topSort
    (pass.direction.arrange order).forM pass.step
    pass.finish) := by
  have hfold (l : List NodeId) : l.foldlM (fun (_ : Unit) id => pass.step id) () = l.forM pass.step := by
    induction l with
    | nil => rfl
    | cons a l ih =>
      rw [List.foldlM_cons]
      exact congrArg (pass.step a >>= ·) (funext fun _ => ih)
  obtain ⟨name, direction, visit, finish⟩ := pass
  unfold run Edit.sweep
  rw [bind_assoc]
  refine congrArg (Edit.ask Plan.topSort >>= ·) (funext fun order => ?_)
  cases direction <;> exact congrArg (· >>= fun _ => finish) (hfold _)

theorem run_run : pass.run p = .ok u q ↔
    ∃ order r, p.topSort = .ok order ∧
      (pass.direction.arrange order).forM pass.step p = .ok () r ∧ pass.finish r = .ok () q := by
  rw [run_eq]
  simp only [run_bind, Edit.run_ask]
  constructor
  · rintro ⟨order, _, ⟨horder, rfl⟩, _, r, hsteps, hfinish⟩
    exact ⟨order, r, horder, hsteps, hfinish⟩
  · rintro ⟨order, r, horder, hsteps, hfinish⟩
    exact ⟨order, p, ⟨horder, rfl⟩, (), r, hsteps, hfinish⟩

theorem run_leads {R : Plan → Plan → Prop} [IsPreorder Plan R]
    (hvisit : ∀ id op, Leads R (pass.visit id op)) (hfinish : Leads R pass.finish) :
    Leads R pass.run := by
  rw [run_eq]
  exact Edit.ask_leads.bind fun _ => (Leads.forM fun id _ => step_leads (hvisit id)).bind fun _ => hfinish

end Pass

end JointPlan
