import JointPlan.Pass.PushUp
import JointPlan.Proofs.Binding

/-!
# The skeleton of a plan

Most of what a node holds is derived from its inputs: the columns its operator is
bound to, and the storage and the columns of its relation. What is left when this
is taken away is its skeleton, and the skeletons of its nodes make up the skeleton
of a plan. Deriving nodes anew and widening labels leave the skeleton of a plan as
it is; `Plan.Touched` says so, and which nodes may have been changed at all.

`Node.Sound` is the little that the skeleton needs from the derived part: columns
are numbered, and an operator that removes duplicates yields the columns it names.
-/

namespace JointPlan

-- ---------------------------------------------------------------------------
-- Numbered columns
-- ---------------------------------------------------------------------------

namespace Relation

theorem getElem?_number {name : String} {start : Nat} {cs : List Column} {i : Nat} :
    (number name start cs)[i]? = cs[i]?.map fun c => { c with owner := name, index := start + i } := by
  induction cs generalizing start i with
  | nil => rfl
  | cons c cs ih =>
    cases i with
    | zero => rfl
    | succ i => simp [number, ih, Nat.add_assoc, Nat.add_comm 1 i]

@[simp] theorem length_number {name : String} {start : Nat} {cs : List Column} :
    (number name start cs).length = cs.length := by
  induction cs generalizing start with
  | nil => rfl
  | cons c cs ih => simp [number, ih]

theorem numbered_renumber (r : Relation) : r.renumber.Numbered := by
  intro i c h
  rw [renumber, getElem?_number] at h
  obtain ⟨d, -, rfl⟩ := Option.map_eq_some_iff.mp h
  exact Nat.zero_add i

theorem numbered_rename (r : Relation) (name : String) : (r.rename name).Numbered :=
  numbered_renumber _

@[simp] theorem length_rename (r : Relation) (name : String) :
    (r.rename name).columns.length = r.columns.length :=
  length_number

/-- A relation of which only the name is left. -/
def blank (name : String) : Relation where
  name
  columns := []
  storage := .single (.singleton 0) (IdSet.ne_empty_of_mem (IdSet.mem_singleton.mpr rfl))

/-- The relation with new columns, if there are any. -/
def recolumned (r : Relation) : Option (List Column) → Relation
  | none => r
  | some columns => .renumber { r with columns }

end Relation

-- ---------------------------------------------------------------------------
-- Nodes
-- ---------------------------------------------------------------------------

namespace Node

variable {ins : List Relation} {n m : Node}

/-- The node without what is derived from its inputs. A root keeps its relation. -/
def skeleton (n : Node) : Node :=
  { n with op := n.op.bare, rel := if n.op = .create then n.rel else .blank n.rel.name }

structure Sound (n : Node) : Prop where
  numbered : n.rel.Numbered
  sized : ∀ cs, n.op = .distinct cs → n.rel.columns.length = cs.length

/-- A change of what is derived. -/
theorem skeleton_derived {op : Op} {rel : Relation} (hop : op.bare = n.op.bare)
    (hname : rel.name = n.rel.name) (hrel : n.op = .create → rel = n.rel) :
    ({ n with op, rel } : Node).skeleton = n.skeleton := by
  by_cases hc : n.op = .create
  · have hcreate : op = .create := Op.eq_of_bare_eq (hop.trans (congrArg _ hc)) rfl
    simp [skeleton, hc, hcreate, hrel hc]
  · have hcreate : op ≠ .create := fun h => hc (Op.eq_of_bare_eq (hop.symm.trans (congrArg _ h)) rfl)
    simp [skeleton, hc, hcreate, hop, hname]

section Same

variable (h : n.skeleton = m.skeleton)

include h

theorem id_eq_of_skeleton_eq : n.id = m.id :=
  show n.skeleton.id = m.skeleton.id from congrArg _ h

theorem inputs_eq_of_skeleton_eq : n.inputs = m.inputs :=
  show n.skeleton.inputs = m.skeleton.inputs from congrArg _ h

theorem parents_eq_of_skeleton_eq : n.parents = m.parents :=
  show n.skeleton.parents = m.skeleton.parents from congrArg _ h

theorem children_eq_of_skeleton_eq : n.children = m.children :=
  show n.skeleton.children = m.skeleton.children from congrArg _ h

theorem bare_eq_of_skeleton_eq : n.op.bare = m.op.bare :=
  show n.skeleton.op = m.skeleton.op from congrArg _ h

/-- An operator without bound columns can be read off the skeleton. -/
theorem op_eq_of_skeleton_eq {op : Op} (hop : n.op = op) (hb : op.bound = []) : m.op = op :=
  Op.eq_of_bare_eq ((bare_eq_of_skeleton_eq h).symm.trans (congrArg _ hop)) hb

/-- A root has its relation in the skeleton. -/
theorem rel_eq_of_skeleton_eq (hop : n.op = .create) : n.rel = m.rel := by
  have hrel : n.skeleton.rel = m.skeleton.rel := congrArg _ h
  simpa [skeleton, hop, op_eq_of_skeleton_eq h hop rfl] using hrel

end Same

theorem run_rebind {u : Unit} : Node.rebind ins n = .ok u m ↔
    n.op.Binds ins ∧ { n with op := n.op.fill ins } = m := by
  simp only [Node.rebind, run_bind, run_get, exists_and_left, exists_eq_left', and_assoc]
  rcases hr : n.op.rebind ins none with ⟨op, _ | fault⟩
  · obtain ⟨hb, rfl⟩ := Op.rebind_eq_iff.mp hr
    simp only [run_bind, run_modify, run_pure, hb, true_and, exists_eq_left', exists_const]
  · have hb : ¬ n.op.Binds ins := fun hb =>
      absurd (congrArg Prod.snd ((Op.rebind_eq_iff.mpr ⟨hb, rfl⟩).symm.trans hr)) (by simp)
    simp only [run_bind, run_throw, and_false, exists_false, hb, false_and]

theorem run_restore {u : Unit} : Node.restore ins n = .ok u m ↔
    ∃ st?, n.op.outputStorage? ins = .ok st? ∧
      { n with rel := { n.rel with storage := st?.getD n.rel.storage } } = m := by
  simp only [Node.restore, run_bind, run_get]
  cases h : n.op.outputStorage? ins with
  | error fault => simp [h]
  | ok st? => cases st? <;> simp [h]

theorem run_recolumn {u : Unit} : Node.recolumn ins n = .ok u m ↔
    ∃ cols?, n.op.outputColumns? ins n.rel.storage.members = .ok cols? ∧
      { n with rel := n.rel.recolumned cols? } = m := by
  simp only [Node.recolumn, run_bind, run_get]
  cases h : n.op.outputColumns? ins n.rel.storage.members with
  | error fault => simp [h]
  | ok cols? => cases cols? <;> simp [h, Relation.recolumned]

/-- The parameters and the storage derived anew. -/
theorem run_refreshStorage :
    (do Node.rebind ins; Node.restore ins : NodeEdit Unit) n = .ok () m ↔
      n.op.Binds ins ∧ ∃ st?, (n.op.fill ins).outputStorage? ins = .ok st? ∧
        { n with op := n.op.fill ins,
                 rel := { n.rel with storage := st?.getD n.rel.storage } } = m := by
  simp only [run_bind, run_rebind, run_restore]
  constructor
  · rintro ⟨_, _, ⟨hb, rfl⟩, st?, hst, rfl⟩
    exact ⟨hb, st?, hst, rfl⟩
  · rintro ⟨hb, st?, hst, rfl⟩
    exact ⟨(), _, ⟨hb, rfl⟩, st?, hst, rfl⟩

/-- The columns derived anew as well. -/
theorem run_refresh :
    (do Node.rebind ins; Node.restore ins; Node.recolumn ins : NodeEdit Unit) n = .ok () m ↔
      n.op.Binds ins ∧ ∃ st? cols?, (n.op.fill ins).outputStorage? ins = .ok st? ∧
        (n.op.fill ins).outputColumns? ins (st?.getD n.rel.storage).members = .ok cols? ∧
        { n with op := n.op.fill ins,
                 rel := { n.rel with storage := st?.getD n.rel.storage }.recolumned cols? } = m := by
  simp only [run_bind, run_rebind, run_restore, run_recolumn]
  constructor
  · rintro ⟨_, _, ⟨hb, rfl⟩, _, _, ⟨st?, hst, rfl⟩, cols?, hcols, rfl⟩
    exact ⟨hb, st?, cols?, hst, hcols, rfl⟩
  · rintro ⟨hb, st?, cols?, hst, hcols, rfl⟩
    exact ⟨(), _, ⟨hb, rfl⟩, (), _, ⟨st?, hst, rfl⟩, cols?, hcols, rfl⟩

theorem skeleton_of_refreshStorage (hins : ∀ r ∈ ins, r.Numbered)
    (run : (do Node.rebind ins; Node.restore ins : NodeEdit Unit) n = .ok () m) :
    m.skeleton = n.skeleton := by
  obtain ⟨-, st?, hst, rfl⟩ := run_refreshStorage.mp run
  refine skeleton_derived (Op.bare_fill hins) rfl fun hc => ?_
  rw [hc] at hst
  cases hst
  rfl

theorem skeleton_of_refresh (hins : ∀ r ∈ ins, r.Numbered)
    (run : (do Node.rebind ins; Node.restore ins; Node.recolumn ins : NodeEdit Unit) n = .ok () m) :
    m.skeleton = n.skeleton := by
  obtain ⟨-, st?, cols?, hst, hcols, rfl⟩ := run_refresh.mp run
  refine skeleton_derived (Op.bare_fill hins) ?_ fun hc => ?_
  · cases cols? <;> rfl
  · rw [hc] at hst hcols
    cases hst
    cases hcols
    rfl

theorem Sound.refreshStorage (h : n.Sound)
    (run : (do Node.rebind ins; Node.restore ins : NodeEdit Unit) n = .ok () m) : m.Sound := by
  obtain ⟨-, st?, -, rfl⟩ := run_refreshStorage.mp run
  refine ⟨h.numbered, fun cs hcs => ?_⟩
  cases hop : n.op <;> simp only [hop, Op.fill, Op.mapBound, reduceCtorEq] at hcs
  case distinct ds =>
    cases hcs
    simpa using h.sized ds hop

theorem sound_of_refresh (h : n.op = .create → n.rel.Numbered)
    (run : (do Node.rebind ins; Node.restore ins; Node.recolumn ins : NodeEdit Unit) n = .ok () m) :
    m.Sound := by
  obtain ⟨-, st?, cols?, hst, hcols, rfl⟩ := run_refresh.mp run
  refine ⟨?_, fun cs hcs => ?_⟩
  · cases cols? with
    | none => exact h (Op.eq_create_of_mapBound (Op.eq_create_of_outputColumns? hcols))
    | some cols => exact Relation.numbered_renumber _
  · simp only at hcs
    rw [hcs] at hcols
    cases hcols
    exact Relation.length_number

end Node

-- ---------------------------------------------------------------------------
-- Plans
-- ---------------------------------------------------------------------------

namespace IdMap

variable {α β : Type}

/-- Change every entry; `f` is told its key. -/
def map (f : Nat → α → β) (m : IdMap α) : IdMap β where
  entries := m.entries.map fun e => (e.1, f e.1 e.2)
  ascending := by simpa [Function.comp_def] using m.ascending

@[simp] theorem get?_map (f : Nat → α → β) (m : IdMap α) (k : Nat) :
    (m.map f).get? k = (m.get? k).map (f k) := by
  have key : ∀ l : List (Nat × α),
      (l.map fun e => (e.1, f e.1 e.2)).lookup k = (l.lookup k).map (f k) := by
    intro l
    induction l with
    | nil => rfl
    | cons e l ih =>
      rw [List.map_cons, lookup_cons_ite, lookup_cons_ite, ih]
      split
      · rename_i h
        rw [h]
        rfl
      · rfl
  exact key m.entries

end IdMap

namespace Plan

variable {p q r : Plan} {S T : Set NodeId} {id : NodeId} {n m : Node}

/-- The plan without what is derived in it. -/
def skeleton (p : Plan) : Plan := { p with nodes := p.nodes.map fun _ => Node.skeleton }

theorem get?_skeleton (p : Plan) (k : NodeId) :
    p.skeleton.nodes.get? k = (p.nodes.get? k).map Node.skeleton :=
  IdMap.get?_map _ _ _

theorem get?_of_skeleton_nodes_eq {k : NodeId} (h : q.skeleton.nodes = p.skeleton.nodes)
    (hn : q.nodes.get? k = some n) :
    ∃ m, p.nodes.get? k = some m ∧ n.skeleton = m.skeleton := by
  have hk : (q.nodes.get? k).map Node.skeleton = (p.nodes.get? k).map Node.skeleton := by
    rw [← get?_skeleton, ← get?_skeleton, h]
  rw [hn, Option.map_some] at hk
  obtain ⟨m, hm, hs⟩ := Option.map_eq_some_iff.mp hk.symm
  exact ⟨m, hm, hs.symm⟩

theorem get?_of_skeleton_eq {k : NodeId} (h : q.skeleton = p.skeleton)
    (hn : q.nodes.get? k = some n) :
    ∃ m, p.nodes.get? k = some m ∧ n.skeleton = m.skeleton :=
  get?_of_skeleton_nodes_eq (congrArg Plan.nodes h) hn

theorem nextId_eq_of_skeleton_eq (h : q.skeleton = p.skeleton) : q.nextId = p.nextId :=
  show q.skeleton.nextId = p.skeleton.nextId from congrArg _ h

theorem roots_eq_of_skeleton_eq (h : q.skeleton = p.skeleton) : q.roots = p.roots :=
  show q.skeleton.roots = p.skeleton.roots from congrArg _ h

def Sound (p : Plan) : Prop := ∀ k n, p.nodes.get? k = some n → n.Sound

/-- The columns of the sources are numbered. -/
def Sourced (p : Plan) : Prop := ∀ k n, p.nodes.get? k = some n → n.op = .create → n.rel.Numbered

theorem Sound.sourced (h : p.Sound) : p.Sourced := fun k n hn _ => (h k n hn).numbered

/-- All columns are numbered. -/
def Numbered (p : Plan) : Prop := ∀ k n, p.nodes.get? k = some n → n.rel.Numbered

theorem Sound.numbered (h : p.Sound) : p.Numbered := fun k n hn => (h k n hn).numbered

/-- From `p` to `q` nothing has changed but what is derived at the nodes in `S`. -/
structure Touched (S : Set NodeId) (p q : Plan) : Prop where
  skeleton : q.skeleton = p.skeleton
  elsewhere : ∀ k ∉ S, q.nodes.get? k = p.nodes.get? k

namespace Touched

theorem refl : Touched S p p := ⟨rfl, fun _ _ => rfl⟩

theorem trans (h₁ : Touched S p q) (h₂ : Touched S q r) : Touched S p r where
  skeleton := h₂.skeleton.trans h₁.skeleton
  elsewhere k hk := (h₂.elsewhere k hk).trans (h₁.elsewhere k hk)

theorem mono (hST : S ⊆ T) (h : Touched S p q) : Touched T p q where
  skeleton := h.skeleton
  elsewhere k hk := h.elsewhere k fun hs => hk (hST hs)

theorem set (hn : p.nodes.get? id = some n) (hm : m.skeleton = n.skeleton) :
    Touched {id} p (p.set id m) where
  skeleton := by
    unfold Plan.skeleton
    congr 1
    ext1 k
    rw [IdMap.get?_map, IdMap.get?_map, get?_set]
    split
    · rename_i h
      rw [h, hn, Option.map_some, Option.map_some, hm]
    · rfl
  elsewhere k hk := by
    rw [get?_set, if_neg (by simpa using hk)]

end Touched

theorem Sound.set (h : p.Sound) (hm : m.Sound) : (p.set id m).Sound := by
  intro k n hk
  rw [get?_set] at hk
  split at hk
  · cases hk
    exact hm
  · exact h k n hk

theorem mem_inputRelations {ins : List Relation} {r : Relation} (hins : p.inputRelations id = .ok ins)
    (hn : p.nodes.get? id = some n) : r ∈ ins ↔ ∃ u ∈ n.inputs.ids, ∃ m, p.nodes.get? u = some m ∧ m.rel = r := by
  obtain ⟨n', hn', hall⟩ := inputRelations_eq_ok.mp hins
  cases hn.symm.trans hn'
  clear hins
  generalize n.inputs.ids = ids at hall ⊢
  induction hall with
  | nil => simp
  | cons hhead _ ih =>
    obtain ⟨m, hm, rfl⟩ := hhead
    simp [ih, hm, @eq_comm _ r]

theorem Numbered.inputs (h : p.Numbered) {ins : List Relation} (hins : p.inputRelations id = .ok ins) :
    ∀ r ∈ ins, r.Numbered := by
  obtain ⟨n, hn, -⟩ := inputRelations_eq_ok.mp hins
  intro r hr
  obtain ⟨u, -, m, hm, rfl⟩ := (mem_inputRelations hins hn).mp hr
  exact h u m hm

theorem Sound.inputs (h : p.Sound) {ins : List Relation} (hins : p.inputRelations id = .ok ins) :
    ∀ r ∈ ins, r.Numbered := h.numbered.inputs hins

end Plan

namespace Edit

open Plan

variable {p q : Plan} {S : Set NodeId} {id : NodeId}

theorem touched_of_refresh (hp : p.Sound) (run : refresh id p = .ok () q) : Touched {id} p q ∧ q.Sound := by
  simp only [refresh, run_bind, run_ask] at run
  obtain ⟨ins, _, ⟨hins, rfl⟩, run⟩ := run
  obtain ⟨n, m, hn, hm, rfl⟩ := run_onNode.mp run
  exact ⟨.set hn (Node.skeleton_of_refresh (hp.inputs hins) hm), hp.set (Node.sound_of_refresh (fun _ => (hp _ _ hn).numbered) hm)⟩

theorem touched_of_refreshStorage (hp : p.Sound) (run : refreshStorage id p = .ok () q) :
    Touched {id} p q ∧ q.Sound := by
  simp only [refreshStorage, run_bind, run_ask] at run
  obtain ⟨ins, _, ⟨hins, rfl⟩, run⟩ := run
  obtain ⟨n, m, hn, hm, rfl⟩ := run_onNode.mp run
  exact ⟨.set hn (Node.skeleton_of_refreshStorage (hp.inputs hins) hm),
    hp.set ((hp _ _ hn).refreshStorage hm)⟩

end Edit

end JointPlan
