import JointPlan.Proofs.Delivering

/-!
# What a call asks for

A call of the builder looks columns up in its inputs, and then asks for one node under a new
name. `Call.request` is the part that only looks things up, so that every call is a request
followed by `Build.define` (`Call.run_eq`), and what the calls have in common is said once, about
requests.
-/

namespace JointPlan

-- ---------------------------------------------------------------------------
-- Lookups
-- ---------------------------------------------------------------------------

namespace Workflow

def columnsOf (w : Workflow) (id : NodeId) (names : List String) : Except Fault (List Column) :=
  names.mapM (w.column id)

def operandOf (w : Workflow) (id : NodeId) : Term → Except Fault Operand
  | .column name => do return .column (← w.column id name)
  | .scalar value => return .scalar value

end Workflow

namespace Build

variable {α β : Type}

theorem ask_bind_ask {f : Workflow → Except Fault α} {g : α → Workflow → Except Fault β} :
    (ask f >>= fun a => ask (g a)) = ask fun w => f w >>= fun a => g a w := by
  funext w
  simp only [bind, EStateM.bind, ask]
  cases f w <;> rfl

theorem ask_bind_bind {γ : Type} {f : Workflow → Except Fault α} {g : α → Workflow → Except Fault β} {k : β → Build γ} :
    (ask (fun w => f w >>= fun a => g a w) >>= k) = ask f >>= fun a => ask (g a) >>= k := by
  rw [← ask_bind_ask, bind_assoc]

theorem ask_bind_pure {γ : Type} {f : Workflow → Except Fault α} {g : α → β} {k : β → Build γ} :
    (ask (fun w => f w >>= fun a => pure (g a)) >>= k) = ask f >>= fun a => k (g a) := ask_bind_bind

theorem mapM_ask {f : α → Workflow → Except Fault β} {l : List α} :
    (l.mapM fun a => ask (f a)) = ask fun w => l.mapM fun a => f a w := by
  induction l with
  | nil => rfl
  | cons a l ih =>
    simp only [List.mapM_cons, ih]
    rw [← ask_bind_ask]
    refine congrArg (ask (f a) >>= ·) (funext fun b => .trans ?_ ask_bind_ask)
    rfl

theorem columns_eq_ask {id : NodeId} {names : List String} :
    columns id names = ask fun w => w.columnsOf id names := mapM_ask

theorem operand_eq_ask {id : NodeId} {term : Term} : operand id term = ask fun w => w.operandOf id term := by
  cases term with
  | column name =>
    funext w
    simp only [operand, column, bind, EStateM.bind, ask, Workflow.operandOf]
    cases w.column id name <;> rfl
  | scalar value => rfl

theorem mapM_operand_eq_ask {id : NodeId} {terms : List Term} :
    terms.mapM (operand id) = ask fun w => terms.mapM (w.operandOf id) := by
  rw [show operand id = fun term => ask fun w => w.operandOf id term from funext fun _ => operand_eq_ask]
  exact mapM_ask

end Build

-- ---------------------------------------------------------------------------
-- Requests
-- ---------------------------------------------------------------------------

/-- What is to be added to a plan: a relation that parties hold, or an operator with what
feeds it. -/
inductive Request where
  | source (columns : List Column) (storage : Storage)
  | node (op : Op) (inputs : Inputs)

/-- Add what is asked for, under a name. -/
def Request.add (name : String) : Request → Edit NodeId
  | .source columns storage => Edit.addCreate (.owning name columns storage)
  | .node op inputs => Edit.insertNode op name inputs

namespace Call

/-- The name of the relation that a call defines. -/
def out : Call → String
  | .create out .. | .project _ out _ | .distinct _ out _ | .arithmetic _ _ out _ _ | .limit _ out _
  | .filterByColumn _ out .. | .filterByScalar _ out .. | .sortBy _ out _ _ | .numRows _ out _ | .count _ out _ _
  | .sum _ out .. | .mean _ out .. | .stdDev _ out .. | .index _ out _ | .shuffle _ out | .persist _ out
  | .send _ out | .join _ _ out _ _ | .concat _ out | .collect _ out _ => out

/-- What a call asks for; all that it reads is the relations of its inputs. -/
def request (call : Call) (w : Workflow) : Except Fault Request :=
  match call with
  | .create _ columns storage => return .source columns storage
  | .project input _ names => do return .node (.project (← w.columnsOf input names)) (.unary input)
  | .distinct input _ names => do return .node (.distinct (← w.columnsOf input names)) (.unary input)
  | .arithmetic fn input _ target terms => do
    let operands ← terms.mapM (w.operandOf input)
    let rel ← w.relation input
    match rel.columns.find? (·.name = target), operands with
    | some c, _ => return .node (.arithmetic fn c operands false) (.unary input)
    | none, [] => throw (.noOperands target)
    | none, first :: _ => return .node (.arithmetic fn (.fresh target first.type) operands true) (.unary input)
  | .limit input _ size => return .node (.limit size) (.unary input)
  | .filterByColumn input _ name test against => do
    return .node (.filterByColumn (← w.column input name) (← w.column input against) test) (.unary input)
  | .filterByScalar input _ name test scalar => do
    return .node (.filterByScalar (← w.column input name) scalar test) (.unary input)
  | .sortBy input _ name increasing => do
    return .node (.sortBy (← w.column input name) increasing) (.unary input)
  | .numRows input _ countName => return .node (.numRows countName) (.unary input)
  | .count input _ groups countName => do
    return .node (.count (← w.columnsOf input groups) countName) (.unary input)
  | .sum input _ groups name outName => do
    return .node (.sum (← w.columnsOf input groups) (← w.column input name) outName) (.unary input)
  | .mean input _ groups name outName => do
    return .node (.mean (← w.columnsOf input groups) (← w.column input name) outName none) (.unary input)
  | .stdDev input _ groups name outName => do
    return .node (.stdDev (← w.columnsOf input groups) (← w.column input name) outName) (.unary input)
  | .index input _ name => return .node (.index name) (.unary input)
  | .shuffle input _ => return .node .shuffle (.unary input)
  | .persist input _ => return .node .persist (.unary input)
  | .send input _ => return .node .send (.unary input)
  | .join left right _ leftNames rightNames => do
    return .node (.join (← w.columnsOf left leftNames) (← w.columnsOf right rightNames)) (.binary left right)
  | .concat inputs out => if inputs.length < 2 then throw (.lonelyConcat out) else return .node .concat (.nary inputs)
  | .collect input out recipients =>
    if recipients.isEmpty then throw (.noRecipients out) else return .node (.collect recipients) (.unary input)

/-- Every call looks up what it needs and then defines one relation. -/
theorem run_eq (call : Call) : call.run = (do
    let request ← Build.ask call.request
    Build.define call.out (request.add call.out)) := by
  cases call
  case create | limit | numRows | index | shuffle | persist | send => rfl
  case project | distinct | count =>
    simp only [run, out, Build.project, Build.distinct, Build.count, Build.columns_eq_ask]
    refine .trans ?_ Build.ask_bind_pure.symm
    rfl
  case arithmetic fn input out target terms =>
    simp only [run, Build.arithmetic, Build.mapM_operand_eq_ask]
    refine .trans ?_ Build.ask_bind_bind.symm
    refine congrArg (_ >>= ·) (funext fun operands => .trans ?_ Build.ask_bind_bind.symm)
    refine congrArg (_ >>= ·) (funext fun rel => ?_)
    cases rel.columns.find? (·.name = target) with
    | some c => rfl
    | none => cases operands <;> rfl
  case filterByScalar | sortBy =>
    refine .trans ?_ Build.ask_bind_pure.symm
    rfl
  case filterByColumn =>
    refine .trans ?_ Build.ask_bind_bind.symm
    refine congrArg (_ >>= ·) (funext fun c => .trans ?_ Build.ask_bind_pure.symm)
    rfl
  case sum | mean | stdDev | join =>
    simp only [run, Build.sum, Build.mean, Build.stdDev, Build.join, Build.columns_eq_ask]
    refine .trans ?_ Build.ask_bind_bind.symm
    refine congrArg (_ >>= ·) (funext fun c => .trans ?_ Build.ask_bind_pure.symm)
    rfl
  case concat inputs out =>
    funext w
    simp only [run, Build.concat, bind, EStateM.bind, Build.ask, request]
    split <;> rfl
  case collect input out recipients =>
    funext w
    simp only [run, Build.collect, bind, EStateM.bind, Build.ask, request]
    split <;> rfl

end Call

theorem Build.run_define {name : String} {add : Edit NodeId} {w w' : Workflow} {id : NodeId} :
    define name add w = .ok id w' ↔ w.names.lookup name = none ∧
      ∃ plan, add w.plan = .ok id plan ∧ w' = ⟨plan, (name, id) :: w.names⟩ := by
  simp only [define, claim, run_bind, run_get, run_check, run_edit, run_modify, run_pure, Bool.not_eq_true,
    Option.isSome_eq_false_iff, Option.isNone_iff_eq_none]
  constructor
  · rintro ⟨_, _, ⟨_, _, ⟨rfl, rfl⟩, hfree, rfl⟩, _, _, ⟨plan, hadd, rfl⟩, _, _, rfl, rfl, rfl⟩
    exact ⟨hfree, plan, hadd, rfl⟩
  · rintro ⟨hfree, plan, hadd, rfl⟩
    exact ⟨(), w, ⟨w, w, ⟨rfl, rfl⟩, hfree, rfl⟩, id, _, ⟨plan, hadd, rfl⟩, (), _, rfl, rfl, rfl⟩

theorem Call.run_eq_ok {call : Call} {w w' : Workflow} {id : NodeId} :
    call.run w = .ok id w' ↔ ∃ request, call.request w = .ok request ∧ w.names.lookup call.out = none ∧
      ∃ plan, request.add call.out w.plan = .ok id plan ∧ w' = ⟨plan, (call.out, id) :: w.names⟩ := by
  simp only [run_eq, run_bind, Build.run_ask, Build.run_define]
  constructor
  · rintro ⟨request, _, ⟨hrequest, rfl⟩, h⟩
    exact ⟨request, hrequest, h⟩
  · rintro ⟨request, hrequest, h⟩
    exact ⟨request, w, ⟨hrequest, rfl⟩, h⟩

-- ---------------------------------------------------------------------------
-- What a request adds
-- ---------------------------------------------------------------------------

theorem Relation.Owned.recolumned {r : Relation} {cols? : Option (List Column)} (h : r.Owned) :
    (r.recolumned cols?).Owned := by
  cases cols? with
  | none => exact h
  | some cols => exact owned_renumber

namespace Plan

variable {p q : Plan} {name : String} {id k : NodeId} {request : Request}

/-- A node has been added that yields a relation of that name, and all that was there is as it was,
but that some nodes are read by the new one. -/
structure Added (p : Plan) (name : String) (q : Plan) : Prop where
  next : q.nextId = p.nextId + 1
  node : ∃ n, q.nodes.get? p.nextId = some n ∧ n.rel.name = name ∧ n.rel.Owned
  alike : ∀ k, k ≠ p.nextId → Alike p q k

namespace Added

/-- The nodes are the old ones and the new one, and the relations of the old ones have stayed. -/
theorem exists_iff (h : p.Added name q) (hp : p.Linked) {P : Relation → Prop} :
    (∃ n, q.nodes.get? k = some n ∧ P n.rel) ↔
      (∃ n, p.nodes.get? k = some n ∧ P n.rel) ∨ k = p.nextId ∧ ∃ n, q.nodes.get? p.nextId = some n ∧ P n.rel := by
  by_cases hk : k = p.nextId
  · simp [hk, hp.get?_nextId]
  · have hrel := (h.alike k hk).rel
    unfold Plan.node at hrel
    cases hp : p.nodes.get? k <;> cases hq : q.nodes.get? k <;> simp_all

end Added

theorem added_of_addCreate {rel : Relation} (hrel : rel.Owned)
    (run : Edit.addCreate rel p = .ok id q) : id = p.nextId ∧ p.Added rel.name q := by
  obtain ⟨-, rfl, rfl⟩ := Edit.run_addCreate run
  have hnew : (p.extended .create rel .none).nodes.get? p.nextId =
      some { id := p.nextId, op := .create, rel, inputs := .none, parents := .ofList [], children := ∅ } := by
    rw [extended, get?_joined, if_pos rfl]
    rfl
  exact ⟨rfl, rfl, ⟨_, hnew, rfl, hrel⟩, fun k hk => alike_extended hk⟩

theorem added_of_insertNode {op : Op} {inputs : Inputs} (hp : p.Linked)
    (run : Edit.insertNode op name inputs p = .ok id q) : id = p.nextId ∧ p.Added name q := by
  have h := Edit.insertNode_cases op name inputs hp
  rw [run] at h
  obtain ⟨-, -, -, -, -, storage, heq⟩ := h.of_ok
  obtain ⟨_, _, hrefresh, hpure⟩ := run_bind.mp heq.symm
  obtain ⟨rfl, rfl⟩ := run_pure.mp hpure
  obtain ⟨ins, n, m, -, hn, hm, rfl⟩ := Edit.run_derive.mp (Edit.refresh_eq ▸ hrefresh)
  rw [get?_joined, if_pos rfl] at hn
  cases hn
  obtain ⟨-, st?, cols?, -, -, rfl⟩ := Node.run_refresh.mp hm
  refine ⟨rfl, rfl, ⟨_, by rw [get?_set, if_pos rfl], ?_, ?_⟩, fun k hk => ?_⟩
  · cases cols? <;> rfl
  · exact Relation.Owned.recolumned Relation.owned_renumber
  · have hextended : Alike p (p.extended op (.owning name [] storage) inputs) k := alike_extended hk
    exact hextended.trans (alike_set hk)

/-- A request adds one node, under the next number. -/
theorem added_of_request (hp : p.Linked) (run : request.add name p = .ok id q) : id = p.nextId ∧ p.Added name q := by
  cases request with
  | source columns storage => exact added_of_addCreate Relation.owned_renumber run
  | node op inputs => exact added_of_insertNode hp run

end Plan

end JointPlan
