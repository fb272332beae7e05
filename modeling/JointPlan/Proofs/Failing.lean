import JointPlan.Proofs.Requests

/-!
# Calls that fail

A call looks everything up before it changes the plan, so most faults leave a workflow as it was. The
exception is a node whose columns cannot be derived: by then it is in the plan and its inputs
know of it. Only three kinds of calls can fail so late, those that combine columns or relations
whose types and numbers have to agree: arithmetic, joins and concatenations. What they leave behind is one
node without columns and without a name in the table. It is read by nobody, so the workflow
cannot be finished any more unless a later call reads it.
-/

namespace JointPlan

open Plan

-- ---------------------------------------------------------------------------
-- Columns that have been looked up
-- ---------------------------------------------------------------------------

theorem forall_mem_of_mapM {ε α β : Type} {f : α → Except ε β} {l : List α} {bs : List β} {P : β → Prop}
    (h : l.mapM f = .ok bs) (hP : ∀ a b, f a = .ok b → P b) : ∀ b ∈ bs, P b := by
  have hall := mapM_eq_ok.mp h
  clear h
  induction hall with
  | nil => simp
  | cons hb _ ih => exact List.forall_mem_cons.mpr ⟨hP _ _ hb, ih⟩

theorem Relation.Numbered.getElem?_index {r : Relation} {c : Column} (h : r.Numbered) (hc : c ∈ r.columns) :
    r.columns[c.index]? = some c := by
  obtain ⟨i, hi⟩ := List.getElem?_of_mem hc
  rw [h i c hi, hi]

namespace Op

variable {op : Op} {ins : List Relation}

theorem mapBound_eq_of_forall {f : Nat → Column → Column} (h : ∀ b ∈ op.bound, f b.1 b.2 = b.2) :
    op.mapBound f = op := by
  have hmap {side : Nat} {cs : List Column} (hcs : ∀ c ∈ cs, f side c = c) : cs.map (f side) = cs :=
    (List.map_congr_left hcs).trans (List.map_id cs)
  cases op
  case arithmetic fn target operands appends =>
    simp only [bound, List.forall_mem_append, List.forall_mem_map] at h
    have hoperands : operands.map (·.mapColumn (f 0)) = operands := by
      refine (List.map_congr_left fun o ho => ?_).trans (List.map_id operands)
      cases o with
      | column c => exact congrArg Operand.column (h.2 c (List.mem_filterMap.mpr ⟨_, ho, rfl⟩))
      | scalar s => rfl
    cases appends <;> simp_all [mapBound]
  case mean groups c name weight =>
    simp only [bound, List.forall_mem_map, List.forall_mem_append, List.forall_mem_cons] at h
    cases weight <;> simp_all [mapBound]
  all_goals
    simp only [bound, List.forall_mem_map, List.forall_mem_append, List.forall_mem_cons] at h
    simp_all [mapBound]

end Op

namespace Plan

variable {p : Plan} {u : NodeId} {c : Column} {op : Op} {inputs : Inputs}

/-- The column is one of the relation that the node yields, at its position. -/
def Yields (p : Plan) (u : NodeId) (c : Column) : Prop :=
  ∃ n, p.nodes.get? u = some n ∧ n.rel.columns[c.index]? = some c

/-- The operator can be bound to what feeds it, and nothing changes when it is. -/
structure Fetched (p : Plan) (op : Op) (inputs : Inputs) : Prop where
  columns : ∀ b ∈ op.bound, ∃ u, inputs.ids[b.1]? = some u ∧ p.Yields u b.2
  sides : ∀ side ∈ op.sides, side < inputs.ids.length
  recipients : ∀ r, op = .collect r → r ≠ ∅

theorem Fetched.of_unary (hbound : ∀ b ∈ op.bound, b.1 = 0 ∧ p.Yields u b.2) (hsides : ∀ side ∈ op.sides, side = 0)
    (hrecipients : ∀ r, op = .collect r → r ≠ ∅) : p.Fetched op (.unary u) where
  columns b hb := ⟨u, by simp [(hbound b hb).1], (hbound b hb).2⟩
  sides side hside := by simp [hsides side hside]
  recipients := hrecipients

end Plan

namespace Workflow

variable {w : Workflow} {u : NodeId}

theorem yields_of_column (hs : w.plan.Sound) {name : String} {c : Column} (h : w.column u name = .ok c) :
    w.plan.Yields u c := by
  simp only [column, relation, bind_eq_ok, map_eq_ok, node_eq_ok] at h
  obtain ⟨_, ⟨n, hn, rfl⟩, h⟩ := h
  unfold Relation.column at h
  split at h
  · rename_i d hd
    cases h
    exact ⟨n, hn, (hs u n hn).numbered.getElem?_index (List.mem_of_find?_eq_some hd)⟩
  · cases h

theorem yields_of_columnsOf (hs : w.plan.Sound) {names : List String} {cs : List Column}
    (h : w.columnsOf u names = .ok cs) : ∀ c ∈ cs, w.plan.Yields u c :=
  forall_mem_of_mapM h fun _ _ => yields_of_column hs

theorem yields_of_operands (hs : w.plan.Sound) {terms : List Term} {operands : List Operand}
    (h : terms.mapM (w.operandOf u) = .ok operands) : ∀ c ∈ operands.filterMap Operand.column?, w.plan.Yields u c := by
  have hall := forall_mem_of_mapM (P := fun o => ∀ c, o.column? = some c → w.plan.Yields u c) h
    fun term o ho c hc => by
      cases term with
      | column name =>
        obtain ⟨d, hd, hpure⟩ := bind_eq_ok.mp ho
        cases pure_eq_ok.mp hpure
        cases hc
        exact yields_of_column hs hd
      | scalar value =>
        cases pure_eq_ok.mp ho
        cases hc
  intro c hc
  obtain ⟨o, ho, hcolumn⟩ := List.mem_filterMap.mp hc
  exact hall o ho c hcolumn

end Workflow

-- ---------------------------------------------------------------------------
-- Requests
-- ---------------------------------------------------------------------------

namespace Call

variable {call : Call} {w : Workflow} {op : Op} {inputs : Inputs}

/-- The calls that combine columns or relations that may not go together. -/
def combines : Call → Bool
  | .arithmetic .. | .join .. | .concat .. => true
  | _ => false

/-- A node is asked for with columns that its inputs have. -/
theorem fetched_of_request (hs : w.plan.Sound) (h : call.request w = .ok (.node op inputs)) :
    w.plan.Fetched op inputs := by
  have hone {u : NodeId} {name : String} {c : Column} := @Workflow.yields_of_column w u hs name c
  have hmany {u : NodeId} {names : List String} {cs : List Column} := @Workflow.yields_of_columnsOf w u hs names cs
  cases call <;> simp only [request, bind_eq_ok, pure_eq_ok, Request.node.injEq, reduceCtorEq] at h
  case project | distinct | count =>
    obtain ⟨cs, hcs, rfl, rfl⟩ := h
    exact .of_unary (by simpa [Op.bound] using hmany hcs) (by simp [Op.sides]) (by simp)
  case arithmetic fn input out target terms =>
    obtain ⟨operands, hoperands, rel, hrel, h⟩ := h
    have hsources := Workflow.yields_of_operands hs hoperands
    simp only [List.mem_filterMap, forall_exists_index, and_imp] at hsources
    obtain ⟨n, hn, rfl⟩ := map_eq_ok.mp hrel
    split at h
    · rename_i c hc
      simp only [pure_eq_ok, Request.node.injEq] at h
      obtain ⟨rfl, rfl⟩ := h
      have htarget : w.plan.Yields input c :=
        ⟨n, node_eq_ok.mp hn, (hs _ n (node_eq_ok.mp hn)).numbered.getElem?_index (List.mem_of_find?_eq_some hc)⟩
      refine .of_unary ?_ (by simp [Op.sides]) (by simp)
      simp only [Op.bound, Bool.false_eq_true, if_false, List.forall_mem_append, List.forall_mem_map, List.forall_mem_singleton,
        List.mem_filterMap, true_and]
      refine ⟨htarget, ?_⟩
      rintro c ⟨o, ho, hc⟩
      exact hsources c o ho hc
    · cases h
    · simp only [pure_eq_ok, Request.node.injEq] at h
      obtain ⟨rfl, rfl⟩ := h
      refine .of_unary ?_ (by simp [Op.sides]) (by simp)
      simp only [Op.bound, if_true, List.nil_append, List.forall_mem_map, List.mem_filterMap, true_and]
      rintro c ⟨o, ho, hc⟩
      exact hsources c o ho hc
  case limit | numRows | index | shuffle | persist | send =>
    obtain ⟨rfl, rfl⟩ := h
    exact .of_unary (by simp [Op.bound]) (by simp [Op.sides]) (by simp)
  case filterByColumn =>
    obtain ⟨c, hc, d, hd, rfl, rfl⟩ := h
    exact .of_unary (by simp [Op.bound, hone hc, hone hd]) (by simp [Op.sides]) (by simp)
  case filterByScalar | sortBy =>
    obtain ⟨c, hc, rfl, rfl⟩ := h
    exact .of_unary (by simp [Op.bound, hone hc]) (by simp [Op.sides]) (by simp)
  case sum | mean | stdDev =>
    obtain ⟨cs, hcs, c, hc, rfl, rfl⟩ := h
    refine .of_unary ?_ (by simp [Op.sides]) (by simp)
    simp only [Op.bound, Option.toList_none, List.forall_mem_map, List.forall_mem_append, List.forall_mem_singleton, true_and]
    exact ⟨hmany hcs, hone hc⟩
  case join left right out leftNames rightNames =>
    obtain ⟨cs, hcs, ds, hds, rfl, rfl⟩ := h
    refine ⟨?_, by simp [Op.sides, Inputs.ids], by simp⟩
    simp only [Op.bound, List.forall_mem_append, List.forall_mem_map]
    exact ⟨fun c hc => ⟨left, rfl, hmany hcs c hc⟩, fun d hd => ⟨right, rfl, hmany hds d hd⟩⟩
  case concat =>
    split at h
    · cases h
    · simp only [pure_eq_ok, Request.node.injEq] at h
      obtain ⟨rfl, rfl⟩ := h
      exact ⟨by simp [Op.bound], by simp [Op.sides], by simp⟩
  case collect input out recipients =>
    split at h
    · cases h
    · rename_i hsome
      simp only [pure_eq_ok, Request.node.injEq] at h
      obtain ⟨rfl, rfl⟩ := h
      refine .of_unary (by simp [Op.bound]) (by simp [Op.sides]) fun r hr => ?_
      cases hr
      exact fun hempty => hsome (IdSet.isEmpty_iff.mpr hempty)

/-- The columns of what other calls ask for can be derived whatever the inputs are. -/
theorem exists_columns_of_request (hc : call.combines = false) (h : call.request w = .ok (.node op inputs))
    {ins : List Relation} (hins : ins ≠ []) (members : PartySet) :
    ∃ cols?, op.outputColumns? ins members = .ok cols? := by
  obtain ⟨first, rest, rfl⟩ := List.exists_cons_of_ne_nil hins
  cases call <;> simp only [combines, Bool.true_eq_false] at hc <;>
    simp only [request, bind_eq_ok, pure_eq_ok, Request.node.injEq, reduceCtorEq] at h
  case project | distinct | count | filterByScalar | sortBy =>
    obtain ⟨_, -, rfl, rfl⟩ := h
    exact ⟨_, rfl⟩
  case filterByColumn | sum | mean | stdDev =>
    obtain ⟨_, -, _, -, rfl, rfl⟩ := h
    exact ⟨_, rfl⟩
  case limit | numRows | index | shuffle | persist | send =>
    obtain ⟨rfl, rfl⟩ := h
    exact ⟨_, rfl⟩
  case collect =>
    split at h
    · cases h
    · simp only [pure_eq_ok, Request.node.injEq] at h
      obtain ⟨rfl, rfl⟩ := h
      exact ⟨_, rfl⟩

theorem plain_of_request (hc : call.combines = true) (h : call.request w = .ok (.node op inputs)) :
    op.isBoundary = false ∧ ∀ cs, op ≠ .distinct cs := by
  cases call <;> simp only [combines, Bool.false_eq_true] at hc <;>
    simp only [request, bind_eq_ok, pure_eq_ok, Request.node.injEq] at h
  case arithmetic =>
    obtain ⟨operands, -, rel, -, h⟩ := h
    split at h <;> cases h <;> exact ⟨rfl, by simp⟩
  case join =>
    obtain ⟨_, -, _, -, rfl, rfl⟩ := h
    exact ⟨rfl, by simp⟩
  case concat =>
    split at h <;> cases h
    exact ⟨rfl, by simp⟩

end Call

-- ---------------------------------------------------------------------------
-- A node whose columns cannot be derived
-- ---------------------------------------------------------------------------

namespace Plan

variable {p : Plan} {op : Op} {inputs : Inputs} {name : String}

/-- The operator is bound to the relations that feed it as it is. -/
theorem Fetched.binds (h : p.Fetched op inputs) {ins : List Relation}
    (hins : List.Forall₂ (fun u r => ∃ n, p.nodes.get? u = some n ∧ n.rel = r) inputs.ids ins) :
    op.Binds ins ∧ op.fill ins = op := by
  have hfound : ∀ b ∈ op.bound, Op.columnIn? ins b.1 b.2 = some b.2 := by
    intro b hb
    obtain ⟨u, hu, n, hn, hc⟩ := h.columns b hb
    obtain ⟨hi, hget⟩ := List.getElem?_eq_some_iff.mp hu
    obtain ⟨m, hm, hrel⟩ := hins.get hi (hins.length_eq ▸ hi)
    rw [List.get_eq_getElem, hget] at hm
    cases hn.symm.trans hm
    have hside : ins[b.1]? = some n.rel := List.getElem?_eq_some_iff.mpr ⟨_, hrel.symm⟩
    rw [Op.columnIn?, hside, Option.bind_some, hc]
  refine ⟨⟨?_, fun b hb => by rw [hfound b hb]; rfl⟩, Op.mapBound_eq_of_forall fun b hb => ?_⟩
  · rw [← hins.length_eq]
    exact h.sides
  · rw [Op.found, hfound b hb]
    rfl

/-- The relations that feed a node that has been added. -/
theorem inputRelations_joined {rel : Relation} (hp : p.Linked) {ins : List Relation}
    (hins : List.Forall₂ (fun u r => ∃ n, p.nodes.get? u = some n ∧ n.rel = r) inputs.ids ins) :
    (p.joined op rel inputs).inputRelations p.nextId = .ok ins := by
  refine inputRelations_eq_ok.mpr ⟨_, by rw [get?_joined, if_pos rfl], hins.imp fun u r => ?_⟩
  rintro ⟨n, hn, rfl⟩
  exact ⟨_, by rw [get?_joined, if_neg (hp.ne_nextId hn), hn, Option.map_some], fedNode_rel⟩

theorem set_joined {storage storage' : Storage} :
    (p.joined op (.owning name [] storage) inputs).set p.nextId
      { id := p.nextId, op, rel := { Relation.owning name [] storage with storage := storage' }, inputs,
        parents := .ofList inputs.ids, children := ∅ } = p.joined op (.owning name [] storage') inputs := by
  refine ext_get? (fun k => ?_) rfl rfl
  rw [get?_set, get?_joined, get?_joined]
  split <;> rfl

end Plan

namespace Node

variable {ins : List Relation} {n : Node} {fault : Fault}

/-- Parameters and storage are derived before the columns fail. -/
theorem anew_of_error {storage : Storage} (hbinds : n.op.Binds ins) (hfill : n.op.fill ins = n.op)
    (hstorage : n.op.outputStorage? ins = .ok (some storage))
    (hcolumns : n.op.outputColumns? ins storage.members = .error fault) :
    anew ins n = .error fault { n with rel := { n.rel with storage } } := by
  have hrebind : Node.rebind ins n = .ok () n := run_rebind.mpr ⟨hbinds, by rw [hfill]⟩
  have hrestore : Node.restore ins n = .ok () { n with rel := { n.rel with storage } } :=
    run_restore.mpr ⟨some storage, hstorage, rfl⟩
  rw [anew, bind_of_ok hrebind, bind_of_ok hrestore]
  simp only [Node.recolumn, bind, EStateM.bind, get, getThe, MonadStateOf.get, EStateM.get, hcolumns]
  rfl

end Node

namespace Edit

variable {p q : Plan} {id : NodeId} {fault : Fault}

/-- A root is added or nothing is done. -/
theorem addCreate_of_error {rel : Relation} (run : addCreate rel p = .error fault q) : q = p := by
  by_cases room : p.nextId + 1 < Word.limit
  · rw [addCreate, bind_of_ok (addOrphan_eq room)] at run
    cases run
  · rw [addCreate, bind_of_error (addOrphan_eq_error room)] at run
    cases run
    rfl

theorem onNode_of_error {α : Type} {change : NodeEdit α} {n m : Node} (hn : p.nodes.get? id = some n)
    (hchange : change n = .error fault m) : onNode id change p = .error fault (p.set id m) := by
  rw [onNode, bind_of_ok (run_node.mpr ⟨hn, rfl⟩), hchange]
  rfl

/-- A node whose parameters are columns of its inputs is added and derived, or it is left without
columns, or nothing is done. -/
theorem insertNode_of_fetched {op : Op} {name : String} {inputs : Inputs} (hp : p.Linked)
    (hf : p.Fetched op inputs) (run : insertNode op name inputs p = .error fault q) :
    q = p ∨ p.nextId + 1 < Word.limit ∧ op ≠ .create ∧ inputs.fits op.arity = true ∧ inputs.ids ≠ [] ∧
      (∀ u ∈ inputs.ids, ∃ n, p.nodes.get? u = some n) ∧
      ∃ ins storage, ins ≠ [] ∧ op.outputColumns? ins storage.members = .error fault ∧
        q = p.joined op (.owning name [] storage) inputs := by
  rcases insertNode_cases op name inputs hp with ⟨fault', hfail⟩ | ⟨room, hop, hfits, hne, hin, storage, heq⟩
  · rw [run] at hfail
    cases hfail
    exact .inl rfl
  · right
    refine ⟨room, hop, hfits, hne, hin, ?_⟩
    obtain ⟨ins, hins⟩ : ∃ ins, List.Forall₂ (fun u r => ∃ n, p.nodes.get? u = some n ∧ n.rel = r) inputs.ids ins :=
      exists_forall₂ fun u hu => by
        obtain ⟨n, hn⟩ := hin u hu
        exact ⟨n.rel, n, hn, rfl⟩
    have hsome : ins ≠ [] := by
      rintro rfl
      exact hne (List.forall₂_nil_right_iff.mp hins)
    obtain ⟨hbinds, hfill⟩ := hf.binds hins
    obtain ⟨st?, hst⟩ := op.exists_outputStorage? hsome hf.recipients
    obtain ⟨storage', rfl⟩ : ∃ storage', st? = some storage' := by
      cases st? with
      | none => exact absurd (Op.eq_create_of_outputStorage? hst) hop
      | some storage' => exact ⟨storage', rfl⟩
    have hnew : (p.joined op (.owning name [] storage) inputs).nodes.get? p.nextId =
        some ⟨p.nextId, op, .owning name [] storage, inputs, .ofList inputs.ids, ∅⟩ := by
      rw [get?_joined, if_pos rfl]
    rw [run, refresh_eq, derive] at heq
    have hask : ask (fun p' => p'.inputRelations p.nextId) (p.joined op (.owning name [] storage) inputs) = .ok ins _ :=
      run_ask.mpr ⟨inputRelations_joined hp hins, rfl⟩
    rw [bind_assoc, bind_of_ok hask] at heq
    cases hcols : op.outputColumns? ins storage'.members with
    | ok cols? =>
      rw [← hfill] at hst hcols
      have hderive : ∃ q', onNode p.nextId (Node.anew ins) (p.joined op (.owning name [] storage) inputs) = .ok () q' :=
        ⟨_, run_onNode.mpr ⟨_, _, hnew, Node.run_refresh.mpr ⟨hbinds, some storage', cols?, hst, hcols, rfl⟩, rfl⟩⟩
      obtain ⟨q', hderive⟩ := hderive
      rw [bind_of_ok hderive] at heq
      cases heq
    | error fault' =>
      rw [bind_of_error (onNode_of_error hnew (Node.anew_of_error hbinds hfill hst hcols)), set_joined] at heq
      cases heq
      exact ⟨ins, storage', hsome, hcols, rfl⟩

end Edit

-- ---------------------------------------------------------------------------
-- Failed calls
-- ---------------------------------------------------------------------------

theorem Build.define_of_error {name : String} {add : Edit NodeId} {w w' : Workflow} {fault : Fault}
    (run : define name add w = .error fault w') :
    w' = w ∨ w.names.lookup name = none ∧ ∃ plan, add w.plan = .error fault plan ∧ w' = { w with plan } := by
  cases hfree : w.names.lookup name with
  | some id =>
    have hclaim : claim name w = .error (.definedTwice name) w := by
      simp [claim, bind, EStateM.bind, get, getThe, MonadStateOf.get, EStateM.get, hfree, throw, throwThe,
        MonadExceptOf.throw, EStateM.throw]
    rw [define, bind_of_error hclaim] at run
    cases run
    exact .inl rfl
  | none =>
    have hclaim : claim name w = .ok () w := by
      simp [claim, bind, EStateM.bind, get, getThe, MonadStateOf.get, EStateM.get, hfree, pure, EStateM.pure]
    rw [define, bind_of_ok hclaim] at run
    cases hadd : add w.plan with
    | ok id plan =>
      have hedit : edit add w = .ok id { w with plan } := run_edit.mpr ⟨plan, hadd, rfl⟩
      rw [bind_of_ok hedit] at run
      cases run
    | error fault' plan =>
      have hedit : edit add w = .error fault' { w with plan } := by simp [edit, hadd]
      rw [bind_of_error hedit] at run
      cases run
      exact .inr ⟨rfl, plan, rfl, rfl⟩

namespace Call

variable {call : Call} {w w' : Workflow} {fault : Fault}

/-- The call has left a node behind: it reads the inputs of the call, has no columns, and is not listed in
the table of names. -/
structure Leaves (call : Call) (w w' : Workflow) : Prop where
  combines : call.combines = true
  free : w.names.lookup call.out = none
  room : w.plan.nextId + 1 < Word.limit
  left : ∃ op inputs storage, call.request w = .ok (.node op inputs) ∧ op ≠ .create ∧ inputs.fits op.arity = true ∧
    inputs.ids ≠ [] ∧ (∀ u ∈ inputs.ids, ∃ n, w.plan.nodes.get? u = some n) ∧
    w' = { w with plan := w.plan.joined op (.owning call.out [] storage) inputs }

/-- A failed call has changed nothing, or it has left one node behind. -/
theorem leaves_of_error (hw : w.plan.Simple) (run : call.run w = .error fault w') :
    w' = w ∨ call.Leaves w w' := by
  rw [run_eq] at run
  cases hrequest : call.request w with
  | error fault' =>
    have hask : Build.ask call.request w = .error fault' w := by simp [Build.ask, hrequest]
    rw [bind_of_error hask] at run
    cases run
    exact .inl rfl
  | ok request =>
    rw [bind_of_ok (Build.run_ask.mpr ⟨hrequest, rfl⟩)] at run
    rcases Build.define_of_error run with rfl | ⟨hfree, plan, hadd, rfl⟩
    · exact .inl rfl
    · cases request with
      | source columns storage =>
        exact .inl (by rw [Edit.addCreate_of_error hadd])
      | node op inputs =>
        have hfetched := fetched_of_request hw.sound hrequest
        rcases Edit.insertNode_of_fetched hw.coherent.toLinked hfetched hadd with rfl | h
        · exact .inl rfl
        · obtain ⟨room, hop, hfits, hne, hin, ins, storage, hins, hcols, rfl⟩ := h
          have hcombines : call.combines = true := by
            by_contra hnot
            obtain ⟨cols?, hok⟩ := exists_columns_of_request (by simpa using hnot) hrequest hins storage.members
            rw [hok] at hcols
            cases hcols
          exact .inr ⟨hcombines, hfree, room, op, inputs, storage, hrequest, hop, hfits, hne, hin, rfl⟩

theorem Leaves.simple (h : call.Leaves w w') (hw : w.plan.Simple) : w'.plan.Simple := by
  obtain ⟨op, inputs, storage, hrequest, hop, hfits, hne, hin, rfl⟩ := h.left
  obtain ⟨hplain, hdistinct⟩ := plain_of_request h.combines hrequest
  have hextended : w.plan.extended op (.owning call.out [] storage) inputs =
      w.plan.joined op (.owning call.out [] storage) inputs := by
    rw [extended, if_neg hop]
    rfl
  have hcoherent : (w.plan.extended op (.owning call.out [] storage) inputs).Coherent :=
    hw.coherent.extended hfits hin (fun _ => hne) h.room
  rw [hextended] at hcoherent
  refine ⟨⟨hcoherent, fun k m hm => ?_⟩, fun k m hm => ?_⟩
  · rcases get?_joined_eq_some hm with ⟨-, rfl⟩ | ⟨-, n, hn, rfl⟩
    · exact ⟨Relation.numbered_renumber _, fun cs hcs => absurd hcs (hdistinct cs)⟩
    · exact sound_fedNode (hw.sound k n hn)
  · rcases get?_joined_eq_some hm with ⟨-, rfl⟩ | ⟨-, n, hn, rfl⟩
    · exact hplain
    · rw [fedNode_op, hw.plain k n hn]

end Call

-- ---------------------------------------------------------------------------
-- Workflows in which calls may have failed
-- ---------------------------------------------------------------------------

namespace Workflow

/-- The workflow after calls in a row, each of which may have failed. -/
def attempt (calls : List Call) (w : Workflow) : Workflow := calls.foldl (fun w call => after call.run w) w

theorem simple_after (call : Call) {w : Workflow} (hw : w.plan.Simple) : (after call.run w).plan.Simple := by
  cases run : call.run w with
  | ok id w' =>
    rw [after_of_ok run]
    exact (call.run_grows run).simple hw
  | error fault w' =>
    rw [after_of_error run]
    rcases Call.leaves_of_error hw run with rfl | hleaves
    · exact hw
    · exact hleaves.simple hw

theorem simple_attempt {calls : List Call} {w : Workflow} (hw : w.plan.Simple) :
    (attempt calls w).plan.Simple := by
  induction calls generalizing w with
  | nil => exact hw
  | cons call rest ih => exact ih (simple_after call hw)

/-- After any calls, failed ones among them, a call that fails leaves the table of names and the roots as
they were. It leaves all of the workflow as it was, unless it combines what does not go
together; then one node has come in, without columns and without an entry in the table, that reads the
inputs of the call. -/
theorem unchanged_or_leaves {calls : List Call} {call : Call} {fault : Fault} {w w' : Workflow}
    (hw : w = attempt calls .empty) (run : call.run w = .error fault w') :
    w'.names = w.names ∧ w'.plan.roots = w.plan.roots ∧
      (w' = w ∨ call.combines = true ∧ w.names.lookup call.out = none ∧ ∃ op inputs storage,
        call.request w = .ok (.node op inputs) ∧
        w' = { w with plan := w.plan.joined op (.owning call.out [] storage) inputs }) := by
  subst hw
  rcases Call.leaves_of_error (simple_attempt simple_empty) run with
    rfl | ⟨hcombines, hfree, -, op, inputs, storage, hrequest, -, -, -, -, rfl⟩
  · exact ⟨rfl, rfl, .inl rfl⟩
  · exact ⟨rfl, rfl, .inr ⟨hcombines, hfree, op, inputs, storage, hrequest, rfl⟩⟩

/-- A relation that one party holds. -/
def held : List Call := [.create "a" [.fresh "x" .integer] (.among 1 [])]

/-- A new column that is computed from nothing but a constant. -/
def scaleNothing : Call := .arithmetic .multiply 0 "b" "y" [.scalar (.int 2)]

/-- The relation is delivered to the party. -/
def deliverHeld : List Call := [.collect 0 "c" (.singleton 1)]

/-- Whether the call fails and leaves another plan behind, and the calls that come later would have
finished the workflow without it but fail after it. -/
def spoils (calls : List Call) (call : Call) (later : List Call) : Bool :=
  match call.run (attempt calls .empty) with
  | .ok _ _ => false
  | .error _ w' =>
    decide (w'.plan.nodes ≠ (attempt calls .empty).plan.nodes) &&
      match write later (attempt calls .empty), write later w' with
      | .ok _ _, .error _ _ => true
      | _, _ => false

theorem spoils_scaleNothing : spoils held scaleNothing deliverHeld = true := by cbv

theorem unchanged_or_leaves_scaleNothing : ∃ fault w w',
    w = attempt held .empty ∧ scaleNothing.run w = .error fault w' ∧
    w'.names = w.names ∧ w'.plan.roots = w.plan.roots ∧
      (w' = w ∨ scaleNothing.combines = true ∧ w.names.lookup scaleNothing.out = none ∧ ∃ op inputs storage,
        scaleNothing.request w = .ok (.node op inputs) ∧
        w' = { w with plan := w.plan.joined op (.owning scaleNothing.out [] storage) inputs }) := by
  have h := spoils_scaleNothing
  unfold spoils at h
  split at h
  · cases h
  · rename_i fault w' run
    exact ⟨fault, _, w', rfl, run, unchanged_or_leaves rfl run⟩

/-- A failed call can change the plan, and calls that come later behave differently for it. -/
theorem failed_call_changes_plan : ∃ (calls : List Call) (call : Call) (later : List Call) (fault : Fault) (w' : Workflow),
    call.run (attempt calls .empty) = .error fault w' ∧ w'.plan.nodes ≠ (attempt calls .empty).plan.nodes ∧
    (∃ p u, write later (attempt calls .empty) = .ok p u) ∧ ∃ fault' u, write later w' = .error fault' u := by
  have h := spoils_scaleNothing
  unfold spoils at h
  split at h
  · cases h
  · rename_i fault w' run
    obtain ⟨hne, h⟩ := Bool.and_eq_true_iff.mp h
    split at h
    · rename_i hok herror
      exact ⟨held, scaleNothing, deliverHeld, fault, w', run, of_decide_eq_true hne, ⟨_, _, hok⟩, _, _, herror⟩
    · cases h

end Workflow

end JointPlan
