import JointPlan.Proofs.Surgery
import JointPlan.Workflow

/-!
# Plans that are written as workflows

A call adds one node, behind nodes that are there, and derives its relation. So a
workflow holds a coherent and sound plan at every moment, in which there are no
boundary operators.
-/

namespace JointPlan

namespace Plan

variable {p q : Plan} {u v k : NodeId} {n m : Node} {op : Op} {rel : Relation} {inputs : Inputs}

-- ---------------------------------------------------------------------------
-- One more node
-- ---------------------------------------------------------------------------

theorem sound_fedNode (hn : n.Sound) : (fedNode u inputs k n).Sound :=
  ⟨by simpa using hn.numbered, by simpa using hn.sized⟩

/-- The plan with a new node that is fed by `inputs`; a source is a root. -/
def extended (p : Plan) (op : Op) (rel : Relation) (inputs : Inputs) : Plan :=
  { p.joined op rel inputs with
    roots := if op = .create then p.roots.insert p.nextId else p.roots }

theorem get?_extended_eq_some (h : (p.extended op rel inputs).nodes.get? k = some m) :
    (k = p.nextId ∧
      m = { id := p.nextId, op, rel, inputs, parents := .ofList inputs.ids, children := ∅ }) ∨
    (k ≠ p.nextId ∧ ∃ n, p.nodes.get? k = some n ∧ m = fedNode p.nextId inputs k n) :=
  get?_joined_eq_some h

theorem numbered_extended (hp : p.Sound) (hrel : rel.Numbered)
    (h : (p.extended op rel inputs).nodes.get? k = some m) : m.rel.Numbered := by
  rcases get?_extended_eq_some h with ⟨-, rfl⟩ | ⟨-, n, hn, rfl⟩
  · exact hrel
  · simpa using (hp k n hn).numbered

theorem Coherent.extended (hp : p.Coherent) (hfits : inputs.fits op.arity = true)
    (hin : ∀ u ∈ inputs.ids, ∃ n, p.nodes.get? u = some n) (hfed : op ≠ .create → inputs.ids ≠ [])
    (room : p.nextId + 1 < Word.limit) : (p.extended op rel inputs).Coherent := by
  refine { (hp.toLinked.joined hin room).with_roots with fits := ?fits, fed := ?fed, roots := ?roots }
  case fits =>
    intro k m hm
    rcases get?_extended_eq_some hm with ⟨rfl, rfl⟩ | ⟨-, n, hn, rfl⟩
    · exact hfits
    · simpa using hp.fits hn
  case fed =>
    intro k m hm hc
    rcases get?_extended_eq_some hm with ⟨rfl, rfl⟩ | ⟨-, n, hn, rfl⟩
    · exact hfed hc
    · simpa using hp.fed hn (by simpa using hc)
  case roots =>
    intro k
    rw [show (p.extended op rel inputs).nodes.get? k = _ from get?_joined k]
    by_cases hk : k = p.nextId
    · have hnone : p.nextId ∉ p.roots := fun h => by
        obtain ⟨n, hn, -⟩ := hp.roots.mp h
        exact hp.ne_nextId hn rfl
      by_cases hop : op = .create <;> simp [Plan.extended, hk, hop, hnone]
    · by_cases hop : op = .create <;> simp [Plan.extended, hk, hop, hp.roots]

end Plan

namespace Edit

open Plan

variable {p q : Plan} {id : NodeId} {op : Op} {rel : Relation} {inputs : Inputs} {name : String}

/-- A root is added. -/
theorem run_addCreate (run : addCreate rel p = .ok id q) :
    p.nextId + 1 < Word.limit ∧ id = p.nextId ∧ q = p.extended .create rel .none := by
  obtain ⟨new, r, add, run⟩ := run_bind.mp run
  obtain ⟨room, rfl, rfl⟩ := run_addOrphan.mp add
  obtain ⟨_, _, hroot, hpure⟩ := run_bind.mp run
  obtain rfl := run_modify.mp hroot
  obtain ⟨rfl, rfl⟩ := run_pure.mp hpure
  exact ⟨room, rfl, rfl⟩

theorem run_forM_lookup {l : List NodeId} {u : Unit} : (l.forM fun id => discard (node id)) p = .ok u q ↔
    (∀ id ∈ l, ∃ n, p.nodes.get? id = some n) ∧ p = q := by
  induction l generalizing p with
  | nil => simp
  | cons a l ih =>
    rw [run_forM_cons]
    simp only [run_discard, run_node, ih, List.forall_mem_cons]
    constructor
    · rintro ⟨_, ⟨n, hn, rfl⟩, hall, rfl⟩
      exact ⟨⟨⟨n, hn⟩, hall⟩, rfl⟩
    · rintro ⟨⟨⟨n, hn⟩, hall⟩, rfl⟩
      exact ⟨p, ⟨n, hn, rfl⟩, hall, rfl⟩

/-- A node is added behind its inputs and derived. -/
theorem insertNode_cases (op : Op) (name : String) (inputs : Inputs) (hp : p.Linked) :
    FailsOr (fun r => p.nextId + 1 < Word.limit ∧ op ≠ .create ∧ inputs.fits op.arity = true ∧
      inputs.ids ≠ [] ∧ (∀ u ∈ inputs.ids, ∃ n, p.nodes.get? u = some n) ∧ ∃ storage,
        r = (do refresh p.nextId; return p.nextId : Edit NodeId)
          (p.joined op (.owning name [] storage) inputs)) p (insertNode op name inputs p) := by
  unfold insertNode
  refine .guard fun hop => ?_
  beta_reduce
  refine .guard fun hfits => ?_
  beta_reduce
  cases hids : inputs.ids with
  | nil => exact .inl ⟨_, rfl⟩
  | cons first rest =>
    refine .bind (Leads.forM fun _ _ => node_leads.discard) fun _ hlookup =>
      .bind node_leads fun n _ => ?_
    obtain ⟨hin, -⟩ := run_forM_lookup.mp hlookup
    by_cases room : p.nextId + 1 < Word.limit
    case neg => exact .inl ⟨_, bind_of_error (addNode_eq_error room)⟩
    have hold {u : NodeId} (hu : u ∈ first :: rest) : u ≠ p.nextId := by
      rintro rfl
      obtain ⟨m, hm⟩ := hin _ hu
      exact hp.ne_nextId hm rfl
    refine .done ⟨room, hop, by simpa using hfits, nofun, hin, n.rel.storage, ?_⟩
    rw [bind_of_ok (run_addNode.mpr ⟨room, rfl, rfl⟩), forM_modifyNode_bind (.inr fun n => by simp [IdSet.ext_iff])]
    · refine congrArg (refresh p.nextId >>= fun _ => (pure p.nextId : Edit NodeId))
        (ext_get? (fun k => ?_) rfl rfl)
      rw [get?_adjust, get?_joined, get?_set]
      by_cases hk : k = p.nextId
      · rw [if_pos hk, if_pos hk, Option.map_some, if_neg fun h => hold h hk, hids]
      · rw [if_neg hk, if_neg hk, show p.reserve.nodes = p.nodes from rfl]
        cases p.nodes.get? k <;> simp [fedNode, hids, Node.addChild]
    · intro u hu
      obtain ⟨m, hm⟩ := hin u hu
      exact ⟨m, by rw [get?_set, if_neg (hold hu)]; exact hm⟩

/-- A node that has been added behind its inputs. -/
theorem run_insertNode (hp : p.Linked) (run : insertNode op name inputs p = .ok id q) :
    p.nextId + 1 < Word.limit ∧ op ≠ .create ∧ inputs.fits op.arity = true ∧ inputs.ids ≠ [] ∧ (∀ u ∈ inputs.ids, ∃ n, p.nodes.get? u = some n) ∧
      ∃ storage, refresh p.nextId (p.extended op (.owning name [] storage) inputs) = .ok () q := by
  have h := insertNode_cases op name inputs hp
  rw [run] at h
  obtain ⟨room, hop, hfits, hne, hin, storage, heq⟩ := h.of_ok
  obtain ⟨_, q, hrefresh, hpure⟩ := run_bind.mp heq.symm
  obtain ⟨-, rfl⟩ := run_pure.mp hpure
  refine ⟨room, hop, hfits, hne, hin, storage, ?_⟩
  rw [extended, if_neg hop]
  exact hrefresh

end Edit

-- ---------------------------------------------------------------------------
-- Calls
-- ---------------------------------------------------------------------------

/-- A call of the builder. -/
inductive Call where
  | create (name : String) (columns : List Column) (storage : Storage)
  | project (input : NodeId) (out : String) (names : List String)
  | distinct (input : NodeId) (out : String) (names : List String)
  | arithmetic (fn : Arithmetic) (input : NodeId) (out target : String) (terms : List Term)
  | limit (input : NodeId) (out : String) (count : Nat)
  | filterByColumn (input : NodeId) (out name : String) (test : Comparator) (against : String)
  | filterByScalar (input : NodeId) (out name : String) (test : Comparator) (scalar : Scalar)
  | sortBy (input : NodeId) (out name : String) (increasing : Bool)
  | numRows (input : NodeId) (out countName : String)
  | count (input : NodeId) (out : String) (groups : List String) (countName : String)
  | sum (input : NodeId) (out : String) (groups : List String) (name outName : String)
  | mean (input : NodeId) (out : String) (groups : List String) (name outName : String)
  | stdDev (input : NodeId) (out : String) (groups : List String) (name outName : String)
  | index (input : NodeId) (out name : String)
  | shuffle (input : NodeId) (out : String)
  | persist (input : NodeId) (out : String)
  | send (input : NodeId) (out : String)
  | join (left right : NodeId) (out : String) (leftNames rightNames : List String)
  | concat (inputs : List NodeId) (out : String)
  | collect (input : NodeId) (out : String) (recipients : PartySet)

def Call.run : Call → Build NodeId
  | .create name columns storage => Build.create name columns storage
  | .project input out names => Build.project input out names
  | .distinct input out names => Build.distinct input out names
  | .arithmetic fn input out target terms => Build.arithmetic fn input out target terms
  | .limit input out size => Build.limit input out size
  | .filterByColumn input out name test against => Build.filterByColumn input out name test against
  | .filterByScalar input out name test scalar => Build.filterByScalar input out name test scalar
  | .sortBy input out name increasing => Build.sortBy input out name increasing
  | .numRows input out countName => Build.numRows input out countName
  | .count input out groups countName => Build.count input out groups countName
  | .sum input out groups name outName => Build.sum input out groups name outName
  | .mean input out groups name outName => Build.mean input out groups name outName
  | .stdDev input out groups name outName => Build.stdDev input out groups name outName
  | .index input out name => Build.index input out name
  | .shuffle input out => Build.shuffle input out
  | .persist input out => Build.persist input out
  | .send input out => Build.send input out
  | .join left right out leftNames rightNames => Build.join left right out leftNames rightNames
  | .concat inputs out => Build.concat inputs out
  | .collect input out recipients => Build.collect input out recipients

/-- A root or a node that is no boundary operator has been added. -/
inductive Plan.Grown (p q : Plan) : Prop
  | create {id : NodeId} {rel : Relation} (numbered : rel.Numbered)
      (run : Edit.addCreate rel p = .ok id q) : Grown p q
  | insert {id : NodeId} {op : Op} {name : String} {inputs : Inputs} (plain : op.isBoundary = false)
      (run : Edit.insertNode op name inputs p = .ok id q) : Grown p q

namespace Build

open Plan

variable {α β : Type} {w w' : Workflow}

@[simp] theorem run_ask {f : Workflow → Except Fault α} {a : α} :
    ask f w = .ok a w' ↔ f w = .ok a ∧ w = w' := by
  unfold ask
  cases f w <;> simp

theorem run_edit {change : Edit α} {a : α} : edit change w = .ok a w' ↔
    ∃ plan, change w.plan = .ok a plan ∧ w' = { w with plan } := by
  unfold edit
  cases change w.plan <;> simp [eq_comm]

/-- The step adds one node. -/
def Grows (x : Build α) : Prop := ∀ ⦃w a w'⦄, x w = .ok a w' → Grown w.plan w'.plan

theorem ask_reads {f : Workflow → Except Fault α} : Reads (ask f) := by
  intro w
  unfold after ask
  cases f w <;> rfl

theorem Grows.bind {x : Build α} {f : α → Build β} (hx : Reads x) (hf : ∀ a, Grows (f a)) :
    Grows (x >>= f) := by
  intro w b w' run
  obtain ⟨a, r, hr, run⟩ := run_bind.mp run
  exact hx.of_ok hr ▸ hf a run

theorem Grows.throw {fault : Fault} : Grows (throw fault : Build α) := fun _ _ _ run =>
  (run_throw.mp run).elim

/-- A check in front of the rest. -/
theorem Grows.guard {c : Prop} [Decidable c] {fault : Fault} {f : PUnit → Build α}
    (hf : ∀ u, Grows (f u)) : Grows (if c then MonadExcept.throw fault >>= f else f ()) := by
  split
  · exact .bind Leads.throw hf
  · exact hf ()

theorem Grows.define {name : String} {add : Edit NodeId}
    (h : ∀ p id q, add p = .ok id q → Grown p q) : Grows (define name add) := by
  intro w id w' run
  simp only [Build.define, claim, run_bind, run_get, run_check, run_edit, run_modify, run_pure] at run
  obtain ⟨_, _, ⟨_, _, ⟨rfl, rfl⟩, -, rfl⟩, id', _, ⟨plan, hadd, rfl⟩, _, _, rfl, -, rfl⟩ := run
  exact h _ _ _ hadd

theorem Grows.add {op : Op} {out : String} {inputs : Inputs} (h : op.isBoundary = false) :
    Grows (add op out inputs) := .define fun _ _ _ run => .insert h run

theorem column_reads {id : NodeId} {name : String} : Reads (column id name) := ask_reads

theorem columns_reads {id : NodeId} {names : List String} : Reads (columns id names) :=
  Leads.mapM fun _ _ => column_reads

theorem operand_reads {id : NodeId} {term : Term} : Reads (operand id term) := by
  cases term with
  | column name => exact column_reads.bind fun _ => Leads.pure
  | scalar value => exact Leads.pure

end Build

theorem Call.run_grows (call : Call) : Build.Grows call.run := by
  cases call <;> unfold Call.run
  case create name columns storage =>
    exact .define fun _ _ _ run => .create (Relation.numbered_renumber _) run
  case project | distinct => exact .bind Build.columns_reads fun _ => .add rfl
  case arithmetic =>
    refine .bind (Leads.mapM fun _ _ => Build.operand_reads) fun operands =>
      .bind Build.ask_reads fun rel => ?_
    split
    · exact .add rfl
    · exact .throw
    · exact .add rfl
  case limit | numRows | index | shuffle | persist | send => exact .add rfl
  case filterByColumn => exact .bind Build.column_reads fun _ => .bind Build.column_reads fun _ => .add rfl
  case filterByScalar | sortBy => exact .bind Build.column_reads fun _ => .add rfl
  case count => exact .bind Build.columns_reads fun _ => .add rfl
  case sum | mean | stdDev =>
    exact .bind Build.columns_reads fun _ => .bind Build.column_reads fun _ => .add rfl
  case join => exact .bind Build.columns_reads fun _ => .bind Build.columns_reads fun _ => .add rfl
  case concat | collect => exact .guard fun _ => .add rfl

-- ---------------------------------------------------------------------------
-- Plans under construction
-- ---------------------------------------------------------------------------

namespace Plan

variable {p q : Plan} {k : NodeId}

theorem linked_empty : (∅ : Plan).Linked := by
  have hfeeds (u v : NodeId) : ¬ (∅ : Plan).Feeds u v := fun ⟨_, hn, _⟩ => nomatch hn
  constructor
  case bounded => decide
  case ranked => exact ⟨fun _ => 0, fun h => (hfeeds _ _ h).elim⟩
  case closed => exact fun h => (hfeeds _ _ h).elim
  all_goals exact fun hn => nomatch hn

theorem simple_empty : (∅ : Plan).Simple where
  coherent :=
    { toLinked := linked_empty
      fits := fun hn => nomatch hn
      fed := fun hn => nomatch hn
      roots := ⟨fun h => (IdSet.not_mem_empty _ h).elim, fun ⟨_, hn, _⟩ => nomatch hn⟩ }
  sound _ _ hn := nomatch hn
  plain _ _ hn := nomatch hn

namespace Grown

/-- One more node does no harm. -/
theorem simple (h : Grown p q) (hp : p.Simple) : q.Simple := by
  cases h with
  | @create id rel numbered run =>
    obtain ⟨hroom, -, rfl⟩ := Edit.run_addCreate run
    refine ⟨⟨hp.coherent.extended rfl (by simp [Inputs.ids]) (by simp) hroom, fun k m hm => ?_⟩,
      fun k m hm => ?_⟩
    · rcases get?_extended_eq_some hm with ⟨-, hm⟩ | ⟨-, n, hn, hm⟩
      · exact hm ▸ ⟨numbered, by simp⟩
      · exact hm ▸ sound_fedNode (hp.sound k n hn)
    · rcases get?_extended_eq_some hm with ⟨-, hm⟩ | ⟨-, n, hn, hm⟩
      · exact hm ▸ rfl
      · rw [hm, fedNode_op, hp.plain k n hn]
  | @insert id op name inputs plain run =>
    obtain ⟨hroom, hop, hfits, hne, hin, storage, hrefresh⟩ := Edit.run_insertNode hp.coherent.toLinked run
    have hnumbered : (p.extended op (.owning name [] storage) inputs).Numbered := fun _ _ =>
      numbered_extended hp.sound (Relation.numbered_renumber _)
    simp only [Edit.refresh, run_bind, Edit.run_ask] at hrefresh
    obtain ⟨ins, _, ⟨hins, rfl⟩, hrefresh⟩ := hrefresh
    obtain ⟨n, m, hn, hm, rfl⟩ := Edit.run_onNode.mp hrefresh
    have hskeleton := Node.skeleton_of_refresh (hnumbered.inputs hins) hm
    have hop' : n.op = op := by
      rcases get?_extended_eq_some hn with ⟨-, rfl⟩ | ⟨hne, -⟩
      · rfl
      · exact absurd rfl hne
    have hcases {k : NodeId} {m' : Node}
        (hm' : ((p.extended op (.owning name [] storage) inputs).set p.nextId m).nodes.get? k = some m') :
        m' = m ∨ ∃ n', p.nodes.get? k = some n' ∧ m' = fedNode p.nextId inputs k n' := by
      rw [get?_set] at hm'
      split at hm'
      · exact .inl (Option.some.inj hm').symm
      · rcases get?_extended_eq_some hm' with ⟨hk, -⟩ | ⟨-, n', hn', hm'⟩
        · contradiction
        · exact .inr ⟨n', hn', hm'⟩
    refine ⟨⟨(hp.coherent.extended hfits hin (fun _ => hne) hroom).of_skeleton_eq
      (Touched.set hn hskeleton).skeleton, fun k m' hm' => ?_⟩, fun k m' hm' => ?_⟩
    · rcases hcases hm' with rfl | ⟨n', hn', rfl⟩
      · exact Node.sound_of_refresh (fun _ => hnumbered _ n hn) hm
      · exact sound_fedNode (hp.sound k n' hn')
    · rcases hcases hm' with rfl | ⟨n', hn', rfl⟩
      · rw [Op.isBoundary_eq_of_bare_eq (Node.bare_eq_of_skeleton_eq hskeleton), hop', plain]
      · rw [fedNode_op, hp.plain k n' hn']

end Grown

end Plan

/-- Calls in a row, and the finished plan. -/
def Workflow.write (calls : List Call) : Build Plan := do
  calls.forM fun call => discard call.run
  Build.ask Workflow.build

/-- The plan is what some calls of the builder end in. -/
def Plan.Built (p : Plan) : Prop := ∃ calls w, Workflow.write calls .empty = .ok p w

theorem Workflow.run_write {calls : List Call} {p : Plan} {w w' : Workflow} :
    write calls w = .ok p w' ↔
      (calls.forM fun call => discard call.run) w = .ok () w' ∧ w'.plan.validate = .ok () ∧
        w'.plan = p := by
  simp only [write, run_bind, Build.run_ask, build, bind_eq_ok, pure_eq_ok]
  constructor
  · rintro ⟨_, _, hcalls, ⟨_, hvalid, rfl⟩, rfl⟩
    exact ⟨hcalls, hvalid, rfl⟩
  · rintro ⟨hcalls, hvalid, rfl⟩
    exact ⟨(), w', hcalls, ⟨(), hvalid, rfl⟩, rfl⟩

namespace Plan.Built

variable {p : Plan}

theorem validate (h : p.Built) : p.validate = .ok () := by
  obtain ⟨calls, w, run⟩ := h
  obtain ⟨-, hvalid, rfl⟩ := Workflow.run_write.mp run
  exact hvalid

/-- What holds of the empty plan and is kept by every call holds of a plan that has been built. -/
theorem induct {motive : Plan → Prop} (h : p.Built) (empty : motive ∅)
    (step : ∀ p q, motive p → Grown p q → motive q) : motive p := by
  obtain ⟨calls, w, run⟩ := h
  obtain ⟨hcalls, -, rfl⟩ := Workflow.run_write.mp run
  have hgrown {call : Call} {w w' : Workflow} (hstep : discard call.run w = .ok () w') :
      Grown w.plan w'.plan := by
    obtain ⟨id, hrun⟩ := run_discard.mp hstep
    exact call.run_grows hrun
  exact forM_loop (motive := fun _ w => motive w.plan)
    (fun _ _ _ _ hw hstep => step _ _ hw (hgrown hstep)) empty hcalls

theorem simple (h : p.Built) : p.Simple :=
  h.induct simple_empty fun _ _ hp hgrown => hgrown.simple hp

end Plan.Built

end JointPlan
