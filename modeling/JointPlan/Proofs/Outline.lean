import JointPlan.Proofs.Skeleton

/-!
# The outline of a plan

The skeleton of a plan is what a finished derivation leaves alone when the columns are
numbered. Less is left alone by a derivation that fails half way, or on a plan whose
columns carry any positions: where the nodes stand, what their relations are called,
and what is not bound to an input in their operators. This is the outline of the plan.
-/

namespace JointPlan

-- ---------------------------------------------------------------------------
-- Operators
-- ---------------------------------------------------------------------------

namespace Binding

variable {α β : Type} {P : α → Prop} {Q : β → Prop}

/-- The result is as `P` says, be there a fault or not. -/
def Yields (P : α → Prop) (x : Binding α) : Prop := ∀ fault?, P (x fault?).1

theorem Yields.pure {a : α} (h : P a) : Yields P (Pure.pure a) := fun _ => h

theorem Yields.bind {x : Binding α} {f : α → Binding β} (hx : Yields P x)
    (hf : ∀ a, P a → Yields Q (f a)) : Yields Q (x >>= f) := fun fault? =>
  hf _ (hx fault?) (x fault?).2

theorem Yields.mapM {R : α → β → Prop} {f : α → Binding β} {l : List α}
    (h : ∀ a ∈ l, Yields (R a) (f a)) : Yields (List.Forall₂ R l) (l.mapM f) := by
  induction l with
  | nil => rw [List.mapM_nil]; exact .pure .nil
  | cons a l ih =>
    rw [List.mapM_cons]
    exact (h a List.mem_cons_self).bind fun b hb =>
      (ih fun a ha => h a (List.mem_cons_of_mem _ ha)).bind fun bs hbs => .pure (.cons hb hbs)

end Binding

namespace Op

open Binding

variable {op op' : Op} {ins : List Relation} {kind : String} {side : Nat}

/-- The operator without its bound columns. -/
def blank (op : Op) : Op := op.mapBound fun _ _ => default

theorem bindColumn_yields {c : Column} : Yields (fun _ => True) (bindColumn ins kind side c) := fun _ => trivial

theorem requireInput_yields : Yields (fun _ => True) (requireInput ins kind side) := fun _ => trivial

theorem bindColumns_yields {cs : List Column} :
    Yields (fun ds => ds.length = cs.length) (bindColumns ins kind side cs) :=
  requireInput_yields.bind fun _ _ fault? =>
    (Yields.mapM (fun _ _ => bindColumn_yields) fault?).length_eq.symm

theorem mapM_bindOperand_yields {os : List Operand} :
    Yields (fun os' => os'.map (·.mapColumn fun _ => default) = os.map (·.mapColumn fun _ => default))
      (os.mapM (bindOperand ins kind)) := by
  have hone : ∀ o ∈ os, Yields (fun o' : Operand => o'.mapColumn (fun _ => default) = o.mapColumn fun _ => default)
      (bindOperand ins kind o) := by
    intro o _
    cases o with
    | column c => exact bindColumn_yields.bind fun _ _ => .pure rfl
    | scalar s => exact .pure rfl
  intro fault?
  have h := Yields.mapM hone fault?
  generalize (os.mapM (bindOperand ins kind) fault?).1 = os' at h
  clear hone
  induction h with
  | nil => rfl
  | cons ho _ ih => rw [List.map_cons, List.map_cons, ho, ih]

theorem mapM_weight_yields {weight : Option Column} :
    Yields (fun w => w.isSome = weight.isSome) (weight.mapM (bindColumn ins kind side)) := by
  cases weight with
  | none => rw [Option.mapM_none]; exact .pure rfl
  | some c => rw [Option.mapM_some]; exact fun _ => rfl

/-- Binding leaves the rest of an operator alone, as far as it may come. -/
theorem rebind_yields : Yields (fun op' => op'.blank = op.blank) (op.rebind ins) := by
  cases op
  case arithmetic fn target operands appends =>
    refine requireInput_yields.bind fun _ _ => ?_
    cases appends
    · exact bindColumn_yields.bind fun _ _ => mapM_bindOperand_yields.bind fun _ h =>
        .pure (by simp [blank, mapBound, h])
    · exact Yields.bind (P := (· = target)) (.pure rfl) fun _ ht => mapM_bindOperand_yields.bind fun _ h =>
        .pure (by simp [blank, mapBound, h, ht])
  case project | distinct => exact bindColumns_yields.bind fun _ h => .pure (by simp [blank, mapBound, h])
  case count => exact bindColumns_yields.bind fun _ h => .pure (by simp [blank, mapBound, h])
  case filterByColumn => exact bindColumn_yields.bind fun _ _ => bindColumn_yields.bind fun _ _ => .pure rfl
  case filterByScalar | sortBy => exact bindColumn_yields.bind fun _ _ => .pure rfl
  case sum | stdDev | sumCount | sumSquaresCount =>
    exact bindColumns_yields.bind fun _ h => bindColumn_yields.bind fun _ _ =>
      .pure (by simp [blank, mapBound, h])
  case mean groups c name weight =>
    refine bindColumns_yields.bind fun _ h => bindColumn_yields.bind fun _ _ =>
      mapM_weight_yields.bind fun w hw => .pure ?_
    cases weight <;> cases w <;> simp_all [blank, mapBound]
  case variance =>
    exact bindColumns_yields.bind fun _ h => bindColumn_yields.bind fun _ _ =>
      bindColumn_yields.bind fun _ _ => bindColumn_yields.bind fun _ _ =>
      .pure (by simp [blank, mapBound, h])
  case columnSums | join =>
    exact bindColumns_yields.bind fun _ h => bindColumns_yields.bind fun _ h' =>
      .pure (by simp [blank, mapBound, h, h'])
  case memberFilter | columnUnion =>
    exact bindColumn_yields.bind fun _ _ => bindColumn_yields.bind fun _ _ => .pure rfl
  all_goals exact .pure rfl

theorem blank_bare : op.bare.blank = op.blank := by
  rw [bare, blank, blank, mapBound_mapBound]

theorem blank_eq_of_bare_eq (h : op.bare = op'.bare) : op.blank = op'.blank := by
  rw [← blank_bare, h, blank_bare]

theorem arity_eq_of_blank_eq (h : op.blank = op'.blank) : op.arity = op'.arity := by
  simpa [blank] using congrArg arity h

/-- Operators that differ in what is bound to them only. -/
theorem eq_of_blank_eq (h : op.blank = op'.blank) (hb : op'.bound = []) : op = op' := by
  have hop : op.bound = [] := by
    have := congrArg bound h
    simpa [blank, bound_mapBound, hb] using this
  simpa [blank, mapBound_eq_self, hop, hb] using h

end Op

-- ---------------------------------------------------------------------------
-- Nodes
-- ---------------------------------------------------------------------------

/-- What `f` sees has stayed the same. -/
def Same {σ τ : Type} (f : σ → τ) (s t : σ) : Prop := f t = f s

instance {σ τ : Type} {f : σ → τ} : IsPreorder σ (Same f) where
  refl _ := rfl
  trans _ _ _ h₁ h₂ := Eq.trans h₂ h₁

namespace Node

variable {n m : Node} {ins : List Relation}

/-- The node without what a derivation may change. -/
def outline (n : Node) : Node := { n with op := n.op.blank, rel := .blank n.rel.name }

theorem outline_skeleton : n.skeleton.outline = n.outline := by
  unfold skeleton outline
  split <;> simp [Op.blank_bare, Relation.blank]

section Same

variable (h : n.outline = m.outline)

include h

theorem id_eq_of_outline_eq : n.id = m.id :=
  show n.outline.id = m.outline.id from congrArg _ h

theorem inputs_eq_of_outline_eq : n.inputs = m.inputs :=
  show n.outline.inputs = m.outline.inputs from congrArg _ h

theorem parents_eq_of_outline_eq : n.parents = m.parents :=
  show n.outline.parents = m.outline.parents from congrArg _ h

theorem children_eq_of_outline_eq : n.children = m.children :=
  show n.outline.children = m.outline.children from congrArg _ h

theorem blank_eq_of_outline_eq : n.op.blank = m.op.blank :=
  show n.outline.op = m.outline.op from congrArg _ h

end Same

theorem after_rebind : after (Node.rebind ins) n = { n with op := (n.op.rebind ins none).1 } := by
  rw [after, Node.rebind, bind_of_ok (run_get.mpr ⟨rfl, rfl⟩)]
  rcases n.op.rebind ins none with ⟨op, _ | fault⟩ <;> rfl

theorem rebind_leads : Leads (Same outline) (Node.rebind ins) := by
  intro n
  rw [after_rebind]
  exact congrArg (fun op => { n with op, rel := .blank n.rel.name }) (Op.rebind_yields none)

theorem restore_leads : Leads (Same outline) (Node.restore ins) := Leads.get.bind fun n => by
  split
  · exact .throw
  · exact .pure
  · exact .modify fun _ => rfl

/-- Parameters and storage are derived without a change of the columns. -/
theorem restored_columns : Leads (Same fun n : Node => n.rel.columns) (do Node.rebind ins; Node.restore ins) := by
  refine Leads.bind (fun n => ?_) fun _ => Leads.get.bind fun n => ?_
  · rw [after_rebind]
    rfl
  · split
    · exact .throw
    · exact .pure
    · exact .modify fun _ => rfl

theorem recolumn_leads : Leads (Same outline) (Node.recolumn ins) := Leads.get.bind fun n => by
  dsimp only
  split
  · exact .throw
  · exact .pure
  · exact .modify fun _ => rfl

end Node

-- ---------------------------------------------------------------------------
-- Plans
-- ---------------------------------------------------------------------------

namespace Plan

variable {p q : Plan} {k : NodeId} {n m : Node}

/-- The plan without what a derivation may change. -/
def outline (p : Plan) : Plan := { p with nodes := p.nodes.map fun _ => Node.outline }

theorem get?_outline (p : Plan) (k : NodeId) :
    p.outline.nodes.get? k = (p.nodes.get? k).map Node.outline :=
  IdMap.get?_map _ _ _

theorem get?_of_outline_eq (h : q.outline = p.outline) (hn : q.nodes.get? k = some n) :
    ∃ m, p.nodes.get? k = some m ∧ n.outline = m.outline := by
  have hk : (q.nodes.get? k).map Node.outline = (p.nodes.get? k).map Node.outline := by
    rw [← get?_outline, ← get?_outline, h]
  rw [hn, Option.map_some] at hk
  obtain ⟨m, hm, hs⟩ := Option.map_eq_some_iff.mp hk.symm
  exact ⟨m, hm, hs.symm⟩

theorem nextId_eq_of_outline_eq (h : q.outline = p.outline) : q.nextId = p.nextId :=
  show q.outline.nextId = p.outline.nextId from congrArg _ h

theorem roots_eq_of_outline_eq (h : q.outline = p.outline) : q.roots = p.roots :=
  show q.outline.roots = p.outline.roots from congrArg _ h

theorem contains_eq_of_outline_eq (h : q.outline = p.outline) : q.contains k = p.contains k := by
  have hk : (q.nodes.get? k).map Node.outline = (p.nodes.get? k).map Node.outline := by
    rw [← get?_outline, ← get?_outline, h]
  simpa [contains, IdMap.contains] using congrArg Option.isSome hk

theorem ext_get? (h : ∀ k, p.nodes.get? k = q.nodes.get? k) (hroots : p.roots = q.roots)
    (hnext : p.nextId = q.nextId) : p = q := by
  obtain ⟨nodes, roots, next⟩ := p
  cases hroots
  cases hnext
  exact congrArg (Plan.mk · _ _) (IdMap.ext h)

theorem outline_eq_of_skeleton_eq (h : q.skeleton = p.skeleton) : q.outline = p.outline := by
  have hroots : q.roots = p.roots := roots_eq_of_skeleton_eq h
  have hnext : q.nextId = p.nextId := nextId_eq_of_skeleton_eq h
  refine ext_get? (fun k => ?_) hroots hnext
  have hk := congrArg (fun p => (p.nodes.get? k).map Node.outline) h
  simpa only [get?_skeleton, get?_outline, Option.map_map, Function.comp_def, Node.outline_skeleton] using hk

theorem outline_set (hn : p.nodes.get? k = some n) (hm : m.outline = n.outline) :
    (p.set k m).outline = p.outline := by
  refine ext_get? (fun j => ?_) rfl rfl
  rw [get?_outline, get?_outline, get?_set]
  split
  · rename_i h
    rw [h, hn, Option.map_some, Option.map_some, hm]
  · rfl

/-- The columns that the nodes have. -/
def columnsAt (p : Plan) (k : NodeId) : Option (List Column) := (p.nodes.get? k).map fun n => n.rel.columns

theorem Numbered.of_columnsAt_eq (hp : p.Numbered) (h : q.columnsAt = p.columnsAt) : q.Numbered := by
  intro k n hn
  have hk := congrFun h k
  rw [columnsAt, hn, columnsAt, Option.map_some, eq_comm, Option.map_eq_some_iff] at hk
  obtain ⟨m, hm, hcolumns⟩ := hk
  exact fun i c hc => hp k m hm i c (hcolumns ▸ hc)

/-- Some of the nodes in `S` have been derived anew. How a node reads its inputs stays
as it is if columns have the numbers that they should have. -/
structure Renewed (S : Set NodeId) (p q : Plan) : Prop where
  outline : q.outline = p.outline
  touched : p.Sound → Touched S p q
  sound : p.Sound → q.Sound

namespace Renewed

variable {r : Plan} {S T : Set NodeId}

theorem refl : Renewed S p p := ⟨rfl, fun _ => .refl, id⟩

theorem trans (h₁ : Renewed S p q) (h₂ : Renewed S q r) : Renewed S p r where
  outline := h₂.outline.trans h₁.outline
  touched hp := (h₁.touched hp).trans (h₂.touched (h₁.sound hp))
  sound hp := h₂.sound (h₁.sound hp)

theorem mono (hST : S ⊆ T) (h : Renewed S p q) : Renewed T p q where
  outline := h.outline
  touched hp := (h.touched hp).mono hST
  sound := h.sound

end Renewed

end Plan

namespace Edit

open Plan

variable {id : NodeId}

/-- An edit that derives nodes anew and does nothing else. -/
abbrev Redraws {α : Type} (x : Edit α) : Prop := Leads (Same Plan.outline) x

theorem onNode_redraws {change : NodeEdit Unit} (h : Leads (Same Node.outline) change) :
    Redraws (onNode id change) :=
  onNode_leads fun _ n hn => outline_set hn (h n)

theorem refresh_redraws : Redraws (refresh id) := ask_leads.bind fun _ =>
  onNode_redraws (Node.rebind_leads.bind fun _ => Node.restore_leads.bind fun _ => Node.recolumn_leads)

theorem refreshStorage_redraws : Redraws (refreshStorage id) := ask_leads.bind fun _ =>
  onNode_redraws (Node.rebind_leads.bind fun _ => Node.restore_leads)

theorem refreshStorage_columns : Leads (Same Plan.columnsAt) (refreshStorage id) := ask_leads.bind fun ins =>
  onNode_leads fun p n hn => funext fun k => by
    have hcolumns : (after (do Node.rebind ins; Node.restore ins : NodeEdit Unit) n).rel.columns = n.rel.columns :=
      Node.restored_columns n
    rw [columnsAt, get?_set, columnsAt]
    split
    · rename_i hk
      rw [hk, hn]
      exact congrArg some hcolumns
    · rfl

theorem propagateStorage_columns : Leads (Same Plan.columnsAt) propagateStorage :=
  forEachDerived_leads fun _ => refreshStorage_columns

theorem refreshAll_redraws : Redraws refreshAll := forEachDerived_leads fun _ => refresh_redraws

/-- The edit derives nodes in `S` anew at most. -/
def Renews (S : Set NodeId) (x : Edit Unit) : Prop := ∀ ⦃p q⦄, x p = .ok () q → Renewed S p q

namespace Renews

variable {S T : Set NodeId}

theorem mono {x : Edit Unit} (hST : S ⊆ T) (h : Renews S x) : Renews T x := fun _ _ run => (h run).mono hST

theorem forM {ι : Type} {l : List ι} {x : ι → Edit Unit} (h : ∀ a ∈ l, Renews S (x a)) :
    Renews S (l.forM x) := by
  intro p q run
  induction l generalizing p with
  | nil => exact run_forM_nil.mp run ▸ .refl
  | cons a l ih =>
    obtain ⟨r, ha, hl⟩ := run_forM_cons.mp run
    exact (h a List.mem_cons_self ha).trans (ih (fun b hb => h b (List.mem_cons_of_mem _ hb)) hl)

theorem forEachDerived {step : NodeId → Edit Unit} (h : ∀ id, Renews Set.univ (step id)) :
    Renews Set.univ (forEachDerived step) := by
  intro p q run
  simp only [Edit.forEachDerived, run_bind, run_ask] at run
  obtain ⟨order, _, ⟨-, rfl⟩, run⟩ := run
  refine Renews.forM (fun id _ p q run => ?_) run
  simp only [run_bind, run_node] at run
  obtain ⟨n, _, ⟨-, rfl⟩, run⟩ := run
  split at run
  · exact h id run
  · obtain ⟨-, rfl⟩ := run_pure.mp run
    exact .refl

theorem refresh : Renews {id} (refresh id) := fun _ _ run =>
  ⟨refresh_redraws.of_ok run, fun hp => (touched_of_refresh hp run).1, fun hp => (touched_of_refresh hp run).2⟩

theorem refreshStorage : Renews {id} (refreshStorage id) := fun _ _ run =>
  ⟨refreshStorage_redraws.of_ok run, fun hp => (touched_of_refreshStorage hp run).1,
    fun hp => (touched_of_refreshStorage hp run).2⟩

theorem refreshAll : Renews Set.univ refreshAll :=
  forEachDerived fun _ => refresh.mono (Set.subset_univ _)

theorem propagateStorage : Renews Set.univ propagateStorage :=
  forEachDerived fun _ => refreshStorage.mono (Set.subset_univ _)

end Renews

end Edit

end JointPlan
