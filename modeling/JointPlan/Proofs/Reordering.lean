import JointPlan.Proofs.Labelling
import JointPlan.Proofs.Retracing

/-!
# The order of calls

A workflow can be written in any order in which relations are defined before they are used. The node
of a call depends on the call and on the relations of its inputs only (`Call.Made`), so that another
order gives the same plan under other numbers. Compilation then gives the same plan under other
numbers as well.
-/

namespace JointPlan

open Plan

-- ---------------------------------------------------------------------------
-- Calls under other numbers
-- ---------------------------------------------------------------------------

/-- The request with other numbers for what feeds the node. -/
def Request.renumber (σ : Equiv.Perm NodeId) : Request → Request
  | .source columns storage => .source columns storage
  | .node op inputs => .node op (inputs.map σ)

namespace Call

variable {σ : Equiv.Perm NodeId} {call : Call}

/-- The call with other numbers for its inputs. -/
def renumber (σ : Equiv.Perm NodeId) : Call → Call
  | .create name columns storage => .create name columns storage
  | .project input out names => .project (σ input) out names
  | .distinct input out names => .distinct (σ input) out names
  | .arithmetic fn input out target terms => .arithmetic fn (σ input) out target terms
  | .limit input out size => .limit (σ input) out size
  | .filterByColumn input out name test against => .filterByColumn (σ input) out name test against
  | .filterByScalar input out name test scalar => .filterByScalar (σ input) out name test scalar
  | .sortBy input out name increasing => .sortBy (σ input) out name increasing
  | .numRows input out countName => .numRows (σ input) out countName
  | .count input out groups countName => .count (σ input) out groups countName
  | .sum input out groups name outName => .sum (σ input) out groups name outName
  | .mean input out groups name outName => .mean (σ input) out groups name outName
  | .stdDev input out groups name outName => .stdDev (σ input) out groups name outName
  | .index input out name => .index (σ input) out name
  | .shuffle input out => .shuffle (σ input) out
  | .persist input out => .persist (σ input) out
  | .send input out => .send (σ input) out
  | .join left right out leftNames rightNames => .join (σ left) (σ right) out leftNames rightNames
  | .concat inputs out => .concat (inputs.map σ) out
  | .collect input out recipients => .collect (σ input) out recipients

@[simp] theorem out_renumber : (call.renumber σ).out = call.out := by cases call <;> rfl

@[simp] theorem renumber_refl : call.renumber (Equiv.refl _) = call := by cases call <;> simp [renumber]

@[simp] theorem renumber_symm : (call.renumber σ).renumber σ.symm = call := by cases call <;> simp [renumber]

end Call

namespace Workflow

variable {σ : Equiv.Perm NodeId} {w w' : Workflow} {u : NodeId}

/-- What is found in `w` under a number is found in `w'` under the other one. -/
def Covers (σ : Equiv.Perm NodeId) (w w' : Workflow) : Prop :=
  ∀ u r, w.relation u = .ok r → w'.relation (σ u) = .ok r

namespace Covers

theorem column (h : Covers σ w w') {name : String} {c : Column} (hc : w.column u name = .ok c) :
    w'.column (σ u) name = .ok c := by
  obtain ⟨r, hr, hc⟩ := bind_eq_ok.mp hc
  exact bind_eq_ok.mpr ⟨r, h u r hr, hc⟩

theorem columnsOf (h : Covers σ w w') {names : List String} {cs : List Column} (hcs : w.columnsOf u names = .ok cs) :
    w'.columnsOf (σ u) names = .ok cs :=
  mapM_eq_ok.mpr ((mapM_eq_ok.mp hcs).imp fun _ _ => h.column)

theorem operands (h : Covers σ w w') {terms : List Term} {operands : List Operand}
    (hterms : terms.mapM (w.operandOf u) = .ok operands) : terms.mapM (w'.operandOf (σ u)) = .ok operands := by
  refine mapM_eq_ok.mpr ((mapM_eq_ok.mp hterms).imp fun term operand hoperand => ?_)
  cases term with
  | column name =>
    obtain ⟨c, hc, hpure⟩ := bind_eq_ok.mp hoperand
    exact bind_eq_ok.mpr ⟨c, h.column hc, hpure⟩
  | scalar value => exact hoperand

theorem relations (h : Covers σ w w') {ids : List NodeId} {ins : List Relation} (hins : ids.mapM w.relation = .ok ins) :
    (ids.map σ).mapM w'.relation = .ok ins := by
  rw [mapM_eq_ok] at hins ⊢
  rw [List.forall₂_map_left_iff]
  exact hins.imp h

/-- A call asks for the same node under other numbers. -/
theorem request (h : Covers σ w w') {call : Call} {request : Request} (hrequest : call.request w = .ok request) :
    (call.renumber σ).request w' = .ok (request.renumber σ) := by
  cases call <;> simp only [Call.request, Call.renumber, bind_eq_ok, pure_eq_ok] at hrequest ⊢
  case create | limit | numRows | index | shuffle | persist | send =>
    cases hrequest
    rfl
  case project | distinct | count =>
    obtain ⟨cs, hcs, rfl⟩ := hrequest
    exact ⟨cs, h.columnsOf hcs, rfl⟩
  case arithmetic fn input out target terms =>
    obtain ⟨operands, hoperands, rel, hrel, hrequest⟩ := hrequest
    refine ⟨operands, h.operands hoperands, rel, h _ _ hrel, ?_⟩
    cases hfind : rel.columns.find? (·.name = target) <;> cases operands <;> simp only [hfind] at hrequest ⊢ <;> cases hrequest <;> rfl
  case filterByColumn =>
    obtain ⟨c, hc, d, hd, rfl⟩ := hrequest
    exact ⟨c, h.column hc, d, h.column hd, rfl⟩
  case filterByScalar | sortBy =>
    obtain ⟨c, hc, rfl⟩ := hrequest
    exact ⟨c, h.column hc, rfl⟩
  case sum | mean | stdDev =>
    obtain ⟨cs, hcs, c, hc, rfl⟩ := hrequest
    exact ⟨cs, h.columnsOf hcs, c, h.column hc, rfl⟩
  case join =>
    obtain ⟨cs, hcs, ds, hds, rfl⟩ := hrequest
    exact ⟨cs, h.columnsOf hcs, ds, h.columnsOf hds, rfl⟩
  case concat =>
    rw [List.length_map]
    split at hrequest <;> cases hrequest
    rename_i hmany
    rw [if_neg hmany]
    rfl
  case collect =>
    split at hrequest <;> cases hrequest
    rename_i hrecipients
    rw [if_neg hrecipients]
    rfl

end Covers

end Workflow

-- ---------------------------------------------------------------------------
-- The node of a call
-- ---------------------------------------------------------------------------

/-- The node is the one that is asked for, where relations are those of the workflow. -/
def Request.Met (name : String) (w : Workflow) (n : Node) : Request → Prop
  | .source columns storage => n.op = .create ∧ n.rel = .owning name columns storage ∧ n.inputs = .none
  | .node op inputs => n.inputs = inputs ∧ ∃ ins storage columns?, inputs.ids.mapM w.relation = .ok ins ∧ n.op = op.fill ins ∧
      n.op.outputStorage? ins = .ok (some storage) ∧ n.op.outputColumns? ins storage.members = .ok columns? ∧
      n.rel = (Relation.owning name [] storage).recolumned columns?

/-- The node is the one that the call defines. -/
def Call.Made (call : Call) (w : Workflow) (n : Node) : Prop :=
  ∃ request, call.request w = .ok request ∧ request.Met call.out w n

namespace Request.Met

variable {σ : Equiv.Perm NodeId} {name : String} {w w' : Workflow} {n m : Node} {request : Request}

theorem renumber (h : request.Met name w n) (hw : w.Covers σ w') : (request.renumber σ).Met name w' (n.permute σ) := by
  cases request with
  | source columns storage =>
    obtain ⟨hop, hrel, hinputs⟩ := h
    exact ⟨hop, hrel, by simp [Node.permute, hinputs, Inputs.map]⟩
  | node op inputs =>
    obtain ⟨rfl, ins, storage, columns?, hins, hn⟩ := h
    exact ⟨rfl, ins, storage, columns?, by simpa using hw.relations hins, hn⟩

theorem unique (h : request.Met name w n) (h' : request.Met name w m) :
    n.op = m.op ∧ n.rel = m.rel ∧ n.inputs = m.inputs := by
  cases request with
  | source columns storage =>
    obtain ⟨hop, hrel, hinputs⟩ := h
    obtain ⟨hop', hrel', hinputs'⟩ := h'
    exact ⟨hop.trans hop'.symm, hrel.trans hrel'.symm, hinputs.trans hinputs'.symm⟩
  | node op inputs =>
    obtain ⟨hinputs, ins, storage, columns?, hins, hop, hst, hcols, hrel⟩ := h
    obtain ⟨hinputs', ins', storage', columns?', hins', hop', hst', hcols', hrel'⟩ := h'
    cases hins.symm.trans hins'
    have heq : n.op = m.op := hop.trans hop'.symm
    rw [← heq] at hst' hcols'
    cases hst.symm.trans hst'
    cases hcols.symm.trans hcols'
    exact ⟨heq, hrel.trans hrel'.symm, hinputs.trans hinputs'.symm⟩

/-- Readers of the node make no difference. -/
theorem congr (h : request.Met name w n) (hop : m.op = n.op) (hrel : m.rel = n.rel) (hinputs : m.inputs = n.inputs) :
    request.Met name w m := by
  cases request with
  | source columns storage => exact ⟨hop.trans h.1, hrel.trans h.2.1, hinputs.trans h.2.2⟩
  | node op inputs =>
    obtain ⟨rfl, ins, storage, columns?, hins, hn⟩ := h
    exact ⟨hinputs, ins, storage, columns?, hins, by rwa [hop, hrel]⟩

end Request.Met

namespace Call.Made

variable {σ : Equiv.Perm NodeId} {w w' : Workflow} {n m : Node} {call : Call}

theorem renumber (h : call.Made w n) (hw : w.Covers σ w') : (call.renumber σ).Made w' (n.permute σ) := by
  obtain ⟨request, hrequest, hmet⟩ := h
  refine ⟨_, hw.request hrequest, ?_⟩
  rw [out_renumber]
  exact hmet.renumber hw

/-- What is added to a workflow makes no difference. -/
theorem mono (h : call.Made w n) (hw : w.Covers (Equiv.refl _) w') (hop : m.op = n.op) (hrel : m.rel = n.rel)
    (hinputs : m.inputs = n.inputs) : call.Made w' m := by
  have hmade := h.renumber hw
  rw [renumber_refl] at hmade
  obtain ⟨request, hrequest, hmet⟩ := hmade
  have hsame : (n.permute (Equiv.refl _)).inputs = n.inputs := by
    cases hin : n.inputs <;> simp [Node.permute, hin, Inputs.map]
  exact ⟨request, hrequest, hmet.congr hop hrel (hinputs.trans hsame.symm)⟩

theorem unique (h : call.Made w n) (h' : call.Made w m) : n.op = m.op ∧ n.rel = m.rel ∧ n.inputs = m.inputs := by
  obtain ⟨request, hrequest, hmet⟩ := h
  obtain ⟨request', hrequest', hmet'⟩ := h'
  cases hrequest.symm.trans hrequest'
  exact hmet.unique hmet'

end Call.Made


-- ---------------------------------------------------------------------------
-- Calls one by one
-- ---------------------------------------------------------------------------

theorem Plan.Alike.exists_same {p q : Plan} {k : NodeId} {n : Node} (h : Alike p q k) (hn : p.nodes.get? k = some n) :
    ∃ m, q.nodes.get? k = some m ∧ m.op = n.op ∧ m.rel = n.rel ∧ m.inputs = n.inputs := by
  obtain ⟨m, hm, hshape⟩ := h.get? hn
  have hop : m.shape.op = n.shape.op := congrArg Node.op hshape
  have hrel : m.shape.rel = n.shape.rel := congrArg Node.rel hshape
  have hinputs : m.shape.inputs = n.shape.inputs := congrArg Node.inputs hshape
  exact ⟨m, hm, hop, hrel, hinputs⟩

namespace Workflow

variable {σ : Equiv.Perm NodeId} {w w' v : Workflow} {call : Call} {calls calls' done rest : List Call} {id u k : NodeId} {n m : Node}

theorem relation_eq_ok {r : Relation} : w.relation u = .ok r ↔ ∃ n, w.plan.nodes.get? u = some n ∧ n.rel = r := by
  simp only [relation, map_eq_ok, node_eq_ok]

/-- A call adds the node that it defines, with inputs that were there before. -/
theorem Regular.made (hw : w.Regular) (run : call.run w = .ok id w') :
    ∃ n, w'.plan.nodes.get? w.plan.nextId = some n ∧ call.Made w n ∧ ∀ u ∈ n.inputs.ids, u < w.plan.nextId := by
  obtain ⟨request, hrequest, -, plan, hadd, rfl⟩ := Call.run_eq_ok.mp run
  have hcoherent := hw.simple.coherent
  cases request with
  | source columns storage =>
    obtain ⟨-, -, rfl⟩ := Edit.run_addCreate hadd
    refine ⟨_, by rw [extended, get?_joined, if_pos rfl], ⟨_, hrequest, rfl, rfl, rfl⟩, ?_⟩
    simp [Inputs.ids]
  | node op inputs =>
    obtain ⟨-, hop, -, -, hin, storage, hrefresh⟩ := Edit.run_insertNode hcoherent.toLinked hadd
    obtain ⟨ins, n, m, hins, hn, hm, rfl⟩ := Edit.run_derive.mp (Edit.refresh_eq ▸ hrefresh)
    have hnew : (w.plan.extended op (.owning call.out [] storage) inputs).nodes.get? w.plan.nextId = _ := get?_joined _
    rw [if_pos rfl] at hnew
    obtain ⟨n', hn', hins⟩ := inputRelations_eq_ok.mp hins
    cases hn.symm.trans hnew
    cases hn'.symm.trans hnew
    obtain ⟨-, st?, columns?, hst, hcols, rfl⟩ := Node.run_refresh.mp hm
    have hbelow : ∀ u ∈ inputs.ids, u < w.plan.nextId := fun u hu => by
      obtain ⟨m, hm⟩ := hin u hu
      exact hcoherent.below hm
    have hold : inputs.ids.mapM w.relation = .ok ins := by
      refine mapM_eq_ok.mpr (List.forall₂_iff_get.mpr ⟨hins.length_eq, fun i hi hi' => ?_⟩)
      obtain ⟨m, hm, hrel⟩ := (List.forall₂_iff_get.mp hins).2 i hi hi'
      have hne := (hbelow _ (List.get_mem _ ⟨i, hi⟩)).ne
      rcases get?_extended_eq_some hm with ⟨heq, -⟩ | ⟨-, n, hn, rfl⟩
      · exact absurd heq hne
      · exact relation_eq_ok.mpr ⟨n, hn, by rwa [fedNode_rel] at hrel⟩
    have hsome : st? ≠ none := by
      rintro rfl
      exact hop (Op.eq_create_of_outputStorage? (Node.outputStorage?_fill ▸ hst))
    obtain ⟨storage', rfl⟩ := Option.ne_none_iff_exists'.mp hsome
    refine ⟨_, by rw [get?_set, if_pos rfl], ⟨_, hrequest, rfl, ins, storage', columns?, hold, rfl, hst, hcols, rfl⟩, hbelow⟩

theorem covers_of_added (hw : w.Regular) {name : String} (hadded : w.plan.Added name w'.plan) : w.Covers (Equiv.refl _) w' := by
  intro u r hr
  obtain ⟨n, hn, -⟩ := relation_eq_ok.mp hr
  exact (hadded.alike u (hw.simple.coherent.ne_nextId hn)).rel.trans hr

/-- The workflow is what the calls have written: each of them has defined the node whose number is its place. -/
structure Written (calls : List Call) (w : Workflow) : Prop where
  regular : w.Regular
  next : w.plan.nextId = calls.length
  made : ∀ i call, calls[i]? = some call → ∃ n, w.plan.nodes.get? i = some n ∧ call.Made w n
  rises : ∀ u v, w.plan.Feeds u v → u < v

namespace Written

theorem empty : Written [] .empty where
  regular := regular_empty
  next := rfl
  made _ _ hcall := nomatch hcall
  rises _ _ := fun ⟨_, hn, _⟩ => nomatch hn

theorem step (h : Written done w) (run : call.run w = .ok id w') : Written (done ++ [call]) w' := by
  have hw := h.regular
  obtain ⟨-, hadded⟩ := hw.added run
  obtain ⟨m, hm, hmade, hbelow⟩ := hw.made run
  have hcovers := covers_of_added hw hadded
  refine ⟨hw.step run, by rw [hadded.next, h.next, List.length_append]; rfl, fun i c hc => ?_, fun u v huv => ?_⟩
  · by_cases hi : i = w.plan.nextId
    · rw [hi, h.next, List.getElem?_append_right (Nat.le_refl _), Nat.sub_self, List.getElem?_cons_zero, Option.some.injEq] at hc
      exact ⟨m, hi ▸ hm, hc ▸ hmade.mono hcovers rfl rfl rfl⟩
    · have hlt : i < done.length := by
        have := (List.getElem?_eq_some_iff.mp hc).1
        rw [List.length_append, List.length_singleton] at this
        rw [h.next] at hi
        omega
      rw [List.getElem?_append_left hlt] at hc
      obtain ⟨n, hn, hmade⟩ := h.made i c hc
      obtain ⟨n', hn', hop, hrel, hinputs⟩ := (hadded.alike i hi).exists_same hn
      exact ⟨n', hn', hmade.mono hcovers hop hrel hinputs⟩
  · by_cases hv : v = w.plan.nextId
    · obtain ⟨m', hm', hu⟩ := huv
      rw [hv] at hm'
      cases hm.symm.trans hm'
      exact hv ▸ hbelow u hu
    · exact h.rises u v ((hadded.alike v hv).feeds.mp huv)

theorem exists_node_iff (h : Written calls w) : (∃ n, w.plan.nodes.get? k = some n) ↔ k < calls.length := by
  constructor
  · rintro ⟨n, hn⟩
    exact h.next ▸ h.regular.simple.coherent.below hn
  · intro hk
    obtain ⟨n, hn, -⟩ := h.made k _ (List.getElem?_eq_getElem hk)
    exact ⟨n, hn⟩

end Written

/-- What holds of the empty workflow and is kept by every call holds in the end. -/
theorem written_of_write {p : Plan} {motive : Workflow → Prop} (run : write calls .empty = .ok p w)
    (empty : motive .empty) (step : ∀ {done call rest w w' id}, done ++ call :: rest = calls → Written done w → motive w →
      call.run w = .ok id w' → motive w') : w.plan = p ∧ Written calls w ∧ motive w := by
  obtain ⟨hcalls, -, rfl⟩ := run_write.mp run
  obtain ⟨done, hdone, hwritten, hmotive⟩ := forM_loop
    (motive := fun rest w => ∃ done, done ++ rest = calls ∧ Written done w ∧ motive w)
    (fun call rest w w' hw hstep => by
      obtain ⟨done, hdone, hwritten, hmotive⟩ := hw
      obtain ⟨id, hrun⟩ := run_discard.mp hstep
      refine ⟨done ++ [call], by rw [List.append_assoc]; exact hdone, hwritten.step hrun, ?_⟩
      exact step hdone hwritten hmotive hrun)
    ⟨[], rfl, .empty, empty⟩ hcalls
  rw [List.append_nil] at hdone
  exact ⟨rfl, hdone ▸ hwritten, hmotive⟩

-- ---------------------------------------------------------------------------
-- Two orders
-- ---------------------------------------------------------------------------

/-- The calls in another order: the one at place `i` comes at place `σ i`, and inputs are named by their new places. -/
structure Reordered (σ : Equiv.Perm NodeId) (calls calls' : List Call) : Prop where
  moved : ∀ i, calls'[σ i]? = calls[i]?.map (Call.renumber σ)
  fixed : ∀ i, calls.length ≤ i → σ i = i

namespace Reordered

variable (h : Reordered σ calls calls')

include h

theorem lt_iff {i : NodeId} : σ i < calls'.length ↔ i < calls.length := by
  have hsome := congrArg Option.isSome (h.moved i)
  rwa [Option.isSome_map, Bool.eq_iff_iff, isSome_getElem?, isSome_getElem?] at hsome

theorem lt_length_iff {i : NodeId} : σ i < calls.length ↔ i < calls.length := by
  constructor
  · intro hi
    by_contra hle
    rw [h.fixed i (Nat.not_lt.mp hle)] at hi
    exact hle hi
  · intro hi
    by_contra hle
    have := σ.injective (h.fixed (σ i) (Nat.not_lt.mp hle))
    exact hle (this.symm ▸ hi)

theorem length_eq : calls'.length = calls.length := by
  refine Nat.le_antisymm (Nat.not_lt.mp fun hlt => ?_) (Nat.not_lt.mp fun hlt => ?_)
  · obtain ⟨i, hi⟩ := σ.surjective calls.length
    exact absurd (h.lt_length_iff.mpr (h.lt_iff.mp (hi ▸ hlt))) (hi ▸ Nat.lt_irrefl _)
  · obtain ⟨i, hi⟩ := σ.surjective calls'.length
    exact absurd (h.lt_iff.mpr (h.lt_length_iff.mp (hi ▸ hlt))) (hi ▸ Nat.lt_irrefl _)

/-- The calls are put back in order. -/
theorem symm : Reordered σ.symm calls' calls where
  moved i := by
    have hmoved := h.moved (σ.symm i)
    rw [σ.apply_symm_apply] at hmoved
    rw [hmoved, Option.map_map]
    simp [Function.comp_def]
  fixed i hi := σ.symm_apply_eq.mpr (h.fixed i (h.length_eq ▸ hi)).symm

end Reordered

/-- Every node of `w` has its counterpart in `v`. -/
def Echoed (σ : Equiv.Perm NodeId) (w v : Workflow) : Prop := ∀ k n, w.plan.nodes.get? k = some n →
  ∃ m, v.plan.nodes.get? (σ k) = some m ∧ m.op = n.op ∧ m.rel = n.rel ∧ m.inputs = n.inputs.map σ

namespace Echoed

theorem covers (h : Echoed σ w v) : w.Covers σ v := by
  intro u r hr
  obtain ⟨n, hn, hrel⟩ := relation_eq_ok.mp hr
  obtain ⟨m, hm, -, hsame, -⟩ := h u n hn
  exact relation_eq_ok.mpr ⟨m, hm, hsame.trans hrel⟩

theorem step (h : Echoed σ w v) (hw : w.Regular) (run : call.run w = .ok id w')
    (hcall : ∃ m, v.plan.nodes.get? (σ w.plan.nextId) = some m ∧ (call.renumber σ).Made v m) : Echoed σ w' v := by
  obtain ⟨-, hadded⟩ := hw.added run
  intro k n hn
  by_cases hk : k = w.plan.nextId
  · obtain ⟨n', hn', hmade, -⟩ := hw.made run
    obtain ⟨m, hm, hmade'⟩ := hcall
    subst hk
    cases hn.symm.trans hn'
    obtain ⟨hop, hrel, hinputs⟩ := hmade'.unique (hmade.renumber h.covers)
    exact ⟨m, hm, hop, hrel, hinputs⟩
  · obtain ⟨n', hn', hop', hrel', hinputs'⟩ := (hadded.alike k hk).symm.exists_same hn
    obtain ⟨m, hm, hop, hrel, hinputs⟩ := h k n' hn'
    exact ⟨m, hm, hop.trans hop', hrel.trans hrel', by rw [hinputs, hinputs']⟩

end Echoed

theorem echoed_of_reordered {p : Plan} (hσ : Reordered σ calls calls') (run : write calls .empty = .ok p w)
    (hv : Written calls' v) : w.plan = p ∧ Written calls w ∧ Echoed σ w v := by
  have hempty : Echoed σ .empty v := fun _ _ hn => nomatch hn
  refine written_of_write (motive := fun w => Echoed σ w v) run hempty fun {done call rest w w' id} hcalls hw hecho hrun => ?_
  refine hecho.step hw.regular hrun (hv.made _ _ ?_)
  rw [hσ.moved, hw.next, ← hcalls, List.getElem?_append_right (Nat.le_refl _), Nat.sub_self]
  rfl

end Workflow

namespace Plan

variable {σ : Equiv.Perm NodeId} {p q : Plan}

/-- A plan is known from the operators, relations and inputs of its nodes. -/
theorem Coherent.eq_permute (hp : p.Coherent) (hq : q.Coherent) (hnext : q.nextId = p.nextId)
    (hexists : ∀ k, (∃ m, q.nodes.get? (σ k) = some m) ↔ ∃ n, p.nodes.get? k = some n)
    (hsame : ∀ k n, p.nodes.get? k = some n → ∃ m, q.nodes.get? (σ k) = some m ∧ m.op = n.op ∧ m.rel = n.rel ∧
      m.inputs = n.inputs.map σ) : q = p.permute σ := by
  have hnode {k : NodeId} {n m : Node} (hn : p.nodes.get? k = some n) (hm : q.nodes.get? (σ k) = some m) :
      m.op = n.op ∧ m.rel = n.rel ∧ m.inputs = n.inputs.map σ := by
    obtain ⟨m', hm', h⟩ := hsame k n hn
    cases hm.symm.trans hm'
    exact h
  have hinput {k u : NodeId} {n m : Node} (hn : p.nodes.get? k = some n) (hm : q.nodes.get? (σ k) = some m) :
      σ u ∈ m.inputs.ids ↔ u ∈ n.inputs.ids := by
    rw [(hnode hn hm).2.2, Inputs.ids_map, List.mem_map_of_injective σ.injective]
  have hfeeds (u v : NodeId) : q.Feeds (σ u) (σ v) ↔ p.Feeds u v := by
    constructor
    · rintro ⟨m, hm, hu⟩
      obtain ⟨n, hn⟩ := (hexists v).mp ⟨m, hm⟩
      exact ⟨n, hn, (hinput hn hm).mp hu⟩
    · rintro ⟨n, hn, hu⟩
      obtain ⟨m, hm⟩ := (hexists v).mpr ⟨n, hn⟩
      exact ⟨m, hm, (hinput hn hm).mpr hu⟩
  refine ext_get? (fun k => ?_) (IdSet.ext_permute (σ := σ) fun k => ?_) hnext
  · obtain ⟨k, rfl⟩ := σ.surjective k
    rw [get?_permute]
    cases hn : p.nodes.get? k with
    | none =>
      rw [Option.map_none]
      exact Option.eq_none_iff_forall_ne_some.mpr fun m hm => by
        obtain ⟨n, hn'⟩ := (hexists k).mp ⟨m, hm⟩
        cases hn.symm.trans hn'
    | some n =>
      obtain ⟨m, hm⟩ := (hexists k).mpr ⟨n, hn⟩
      obtain ⟨hop, hrel, hinputs⟩ := hnode hn hm
      have hid : m.id = σ n.id := by rw [hq.keyed hm, hp.keyed hn]
      have hparents : m.parents = n.parents.permute σ := IdSet.ext_permute (σ := σ) fun u => by
        rw [IdSet.mem_permute, hq.parents hm, hp.parents hn, hinput hn hm]
      have hchildren : m.children = n.children.permute σ := IdSet.ext_permute (σ := σ) fun v => by
        rw [IdSet.mem_permute, hq.children hm, hp.children hn, hfeeds]
      rw [hm, Option.map_some, Option.some.injEq]
      obtain ⟨_, _, _, _, _, _⟩ := m
      simp only at hid hop hrel hinputs hparents hchildren
      simp only [hid, hop, hrel, hinputs, hparents, hchildren, Node.permute]
  · change σ k ∈ q.roots ↔ σ k ∈ p.roots.permute σ
    rw [IdSet.mem_permute, hq.roots, hp.roots]
    constructor
    · rintro ⟨m, hm, hop⟩
      obtain ⟨n, hn⟩ := (hexists k).mp ⟨m, hm⟩
      exact ⟨n, hn, (hnode hn hm).1.symm.trans hop⟩
    · rintro ⟨n, hn, hop⟩
      obtain ⟨m, hm⟩ := (hexists k).mpr ⟨n, hn⟩
      exact ⟨m, hm, (hnode hn hm).1.trans hop⟩

end Plan

theorem Plan.Coherent.exists_topNodes {p : Plan} (hp : p.Coherent) : ∃ ns, p.topNodes = .ok ns := by
  obtain ⟨order, horder⟩ := hp.exists_topSort
  have hnodes : ∀ k ∈ order, ∃ n, p.node k = .ok n := fun k hk => by
    obtain ⟨n, hn⟩ := Option.isSome_iff_exists.mp ((hp.mem_topSort horder).mp hk)
    exact ⟨n, node_eq_ok.mpr hn⟩
  obtain ⟨ns, hns⟩ := exists_forall₂ hnodes
  exact ⟨ns, bind_eq_ok.mpr ⟨order, horder, mapM_eq_ok.mpr hns⟩⟩

namespace Workflow

variable {σ : Equiv.Perm NodeId} {calls calls' : List Call} {p p' q : Plan} {w w' : Workflow} {optimize : Bool}

/-- Another order gives the same plan under other numbers. -/
theorem write_reordered (hσ : Reordered σ calls calls') (run : write calls .empty = .ok p w)
    (run' : write calls' .empty = .ok p' w') : p' = p.permute σ ∧ p.Renumbers σ ∧ Tracks p σ p := by
  obtain ⟨-, hw, -⟩ := written_of_write (motive := fun _ => True) run trivial fun _ _ _ _ => trivial
  obtain ⟨rfl, hw', -⟩ := written_of_write (motive := fun _ => True) run' trivial fun _ _ _ _ => trivial
  obtain ⟨rfl, -, hecho⟩ := echoed_of_reordered hσ run hw'
  have hcoherent := hw.regular.simple.coherent
  have hplan : w'.plan = w.plan.permute σ := by
    refine hcoherent.eq_permute hw'.regular.simple.coherent ?_ (fun k => ?_) hecho
    · rw [hw'.next, hw.next, hσ.length_eq]
    · rw [hw'.exists_node_iff, hw.exists_node_iff, hσ.lt_iff]
  refine ⟨hplan, ⟨?_, ?_, ?_⟩, hw.regular.simple.toOrderly, hcoherent.descends, fun u v _ _ huv => ⟨hw.rises u v huv, ?_⟩⟩
  · intro k
    rw [hw.next, hσ.lt_length_iff]
  · intro k hk
    exact hσ.fixed k (hw.next ▸ hk)
  · exact Built.distinct ⟨calls, w, run⟩
  · exact hw'.rises _ _ (hplan ▸ feeds_permute.mpr huv)

end Workflow

namespace Edit

variable {σ : Equiv.Perm NodeId} {calls calls' : List Call} {p p' : Plan} {w w' : Workflow}

/-- If numbers run out in one order, they do in the other. -/
theorem exhausts_of_reordered {optimize : Bool} (hσ : Workflow.Reordered σ calls calls')
    (run : Workflow.write calls .empty = .ok p w) (run' : Workflow.write calls' .empty = .ok p' w')
    (h : Exhausts (compile optimize) p) : Exhausts (compile optimize) p' := by
  obtain ⟨s, recipients, n, -, -, -, hcarries⟩ := Built.exists_carries ⟨calls', w', run'⟩
  refine (wp_compile optimize hcarries).resolve_right ?_
  rintro ⟨_, q', hcompile', -⟩
  obtain ⟨rfl, hrenumbers, htracks⟩ := Workflow.write_reordered hσ.symm run' run
  exact not_exhausts_of_ok (compile_permute hrenumbers htracks hcompile').2 h

/-- The order in which a workflow has been written makes no difference to what it is compiled to,
but for the numbers of nodes. -/
theorem compile_reordered (optimize : Bool) (hσ : Workflow.Reordered σ calls calls')
    (run : Workflow.write calls .empty = .ok p w) (run' : Workflow.write calls' .empty = .ok p' w') :
    (Exhausts (compile optimize) p ∧ Exhausts (compile optimize) p') ∨
    ∃ q q', compile optimize p = .ok () q ∧ compile optimize p' = .ok () q' ∧
      (∀ k, q'.nodes.get? (σ k) = (q.nodes.get? k).map (Node.permute σ)) ∧ q'.roots = q.roots.permute σ ∧
      q'.relationNames = q.relationNames ∧ q'.kinds = q.kinds := by
  obtain ⟨s, recipients, n, -, -, -, hcarries⟩ := Built.exists_carries ⟨calls, w, run⟩
  rcases wp_compile optimize hcarries with hexhausts | ⟨_, q, hcompile, -⟩
  · exact .inl ⟨hexhausts, exhausts_of_reordered hσ run run' hexhausts⟩
  obtain ⟨rfl, hrenumbers, htracks⟩ := Workflow.write_reordered hσ run run'
  obtain ⟨hq, hcompile'⟩ := compile_permute hrenumbers htracks hcompile
  obtain ⟨ns, hns⟩ := hq.coherent.exists_topNodes
  have hnames : q.relationNames = .ok _ := map_eq_ok.mpr ⟨ns, hns, rfl⟩
  have hkinds : q.kinds = .ok _ := map_eq_ok.mpr ⟨ns, hns, rfl⟩
  refine .inr ⟨q, q.permute σ, hcompile, hcompile', fun k => get?_permute, rfl, ?_, ?_⟩
  · rw [hrenumbers.relationNames_permute hq.descends hnames, hnames]
  · rw [hrenumbers.kinds_permute hq.descends hkinds, hkinds]

end Edit

/-- Two relations, each of which one party holds, are put together; the second one is written first. -/
def Workflow.concatHeldLate : List Call :=
  [.create "b" [.fresh "x" .integer] (.among 2 []),
   .create "a" [.fresh "x" .integer] (.among 1 []),
   .concat [1, 0] "c", .collect 2 "d" (.singleton 1)]

theorem Workflow.reordered_concatHeld : Reordered (Equiv.swap 0 1) concatHeld concatHeldLate where
  moved i := by
    match i with
    | 0 | 1 | 2 | 3 => rfl
    | i + 4 => rw [Equiv.swap_apply_of_ne_of_ne (by simp) (by simp)]; rfl
  fixed i hi := Equiv.swap_apply_of_ne_of_ne (Nat.lt_of_lt_of_le (by decide) hi).ne' (Nat.lt_of_lt_of_le (by decide) hi).ne'

theorem Edit.compile_reordered_concatHeld : ∃ p p' w w' q q', Workflow.write Workflow.concatHeld .empty = .ok p w ∧
    Workflow.write Workflow.concatHeldLate .empty = .ok p' w' ∧
    compile true p = .ok () q ∧ compile true p' = .ok () q' ∧
    (∀ k, q'.nodes.get? (Equiv.swap 0 1 k) = (q.nodes.get? k).map (Node.permute (Equiv.swap 0 1))) ∧
    q'.roots = q.roots.permute (Equiv.swap 0 1) ∧ q'.relationNames = q.relationNames ∧ q'.kinds = q.kinds := by
  have hcompiles : Workflow.compiles true Workflow.concatHeld = true := by cbv
  have hwrites' : Workflow.writesTo Workflow.concatHeldLate (fun _ => true) = true := by cbv
  obtain ⟨p, w, run, _, hcompile, -⟩ := Workflow.exists_write_of_compilesTo hcompiles
  obtain ⟨p', w', run', -⟩ := Workflow.exists_of_writesTo hwrites'
  obtain ⟨q, q', h⟩ := (compile_reordered true Workflow.reordered_concatHeld run run').resolve_left
    fun h => not_exhausts_of_ok hcompile h.1
  exact ⟨p, p', w, w', q, q', run, run', h⟩

end JointPlan
