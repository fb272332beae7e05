import JointPlan.Proofs.PushDown
import JointPlan.Proofs.Settling
import JointPlan.Proofs.Workflows

/-!
# Taking back a splice

A node that has been spliced into a plan is taken out again. The links come back, and so do
the columns that are bound to the parameters of the children, since these are bound by
position. What is derived in between differs in storages only, so `Plan.Displaced` follows
both edits: nothing but the storage and the parameters of some nodes has changed.

The children are derived anew in the order of their numbers. A child whose storage depends on
another child gets its own storage back if that one came first (`Plan.InTurn`). A node
that feeds another may have the larger number, though, after a copy has been made, and then
a storage can be left over from the splice.
-/

namespace JointPlan

-- ---------------------------------------------------------------------------
-- What depends on storages
-- ---------------------------------------------------------------------------

namespace Op

variable {op : Op} {ins ins' : List Relation} (h : ins'.map Relation.columns = ins.map Relation.columns)

include h

theorem columnIn?_congr (side : Nat) (c : Column) : columnIn? ins' side c = columnIn? ins side c := by
  have hside : ins'[side]?.map Relation.columns = ins[side]?.map Relation.columns := by
    rw [← List.getElem?_map, ← List.getElem?_map, h]
  have hmap (ins : List Relation) :
      columnIn? ins side c = (ins[side]?.map Relation.columns).bind fun cs => cs[c.index]? := by
    rw [Option.bind_map]
    rfl
  rw [hmap, hmap, hside]

theorem fill_congr : op.fill ins' = op.fill ins :=
  mapBound_congr fun side c => by rw [found, columnIn?_congr h, found]

theorem Binds.congr (hb : op.Binds ins) : op.Binds ins' := by
  have hlength : ins'.length = ins.length := by simpa using congrArg List.length h
  refine ⟨fun side hside => hlength ▸ hb.1 side hside, fun b hmem => ?_⟩
  rw [columnIn?_congr h]
  exact hb.2 b hmem

/-- Whether a storage can be derived does not depend on the storages of the inputs. -/
theorem outputStorage?_ok_congr {st? : Option Storage} (hst : op.outputStorage? ins = .ok st?) :
    ∃ st?', op.outputStorage? ins' = .ok st?' := by
  cases ins with
  | nil => exact ⟨st?, List.map_eq_nil_iff.mp h ▸ hst⟩
  | cons first rest =>
    have hins' : ins' ≠ [] := by
      rintro rfl
      cases h
    refine op.exists_outputStorage? hins' fun recipients hop => ?_
    rintro rfl
    rw [hop] at hst
    cases hst

end Op

-- ---------------------------------------------------------------------------
-- Links
-- ---------------------------------------------------------------------------

theorem Inputs.replace_replace {i : Inputs} {old new : NodeId} (h : new ∉ i.ids) :
    (i.replace old new).replace new old = i := by
  have hone : ∀ k ∈ i.ids, (if (if k = old then new else k) = new then old else if k = old then new else k) = k := by
    grind
  cases i with
  | nary inputs =>
    refine congrArg nary ?_
    rw [List.map_map]
    exact (List.map_congr_left hone).trans (List.map_id inputs)
  | _ => simp_all [replace, map, ids]

theorem Node.swapParent_swapParent {n : Node} {old new : NodeId} (hold : old ∈ n.parents) (hnew : new ∉ n.parents)
    (hinputs : new ∉ n.inputs.ids) : (n.swapParent old new).swapParent new old = n := by
  have hparents : (((n.parents.erase old).insert new).erase new).insert old = n.parents := by
    ext a
    simp only [IdSet.mem_insert, IdSet.mem_erase]
    grind
  simp only [swapParent, hparents, Inputs.replace_replace hinputs]

/-- Taking out what has been spliced in leads back to the links that were there before. -/
theorem Plan.Linked.bypassed_splice {p : Plan} {parent : NodeId} {n m : Node} {cs : NodeSet} {op : Op} {rel : Relation}
    (hp : p.Linked) (hn : p.nodes.get? parent = some n) (hcs : ∀ c ∈ cs, c ∈ n.children) (hm : m.children = cs) :
    (p.splice parent cs op rel).bypassed parent p.nextId m = p.reserve := by
  have hself : parent ∉ cs := fun h => hp.not_feeds_self ((hp.children hn).mp (hcs _ h))
  refine ext_get? (fun k => ?_) rfl rfl
  change _ = p.nodes.get? k
  rw [get?_bypassed, get?_splice]
  by_cases hk : k = p.nextId
  · rw [if_pos hk, hk, hp.get?_nextId]
  rw [if_neg hk, if_neg hk, hm]
  cases hx : p.nodes.get? k with
  | none => rfl
  | some x =>
    simp only [Option.map_some, Option.some.injEq]
    by_cases hparent : k = parent
    · subst hparent
      cases hn.symm.trans hx
      have hnew : p.nextId ∉ n.children := fun h => hp.not_feeds_nextId ((hp.children hn).mp h)
      have hchildren : ((n.children.diff cs).insert p.nextId).erase p.nextId ∪ cs = n.children := by
        ext a
        simp only [IdSet.mem_union, IdSet.mem_erase, IdSet.mem_insert, IdSet.mem_diff]
        grind
      simp [relinked, hself, hchildren]
    by_cases hchild : k ∈ cs
    · have hfeeds : p.Feeds parent k := (hp.children hn).mp (hcs k hchild)
      have hnew : p.nextId ∉ x.inputs.ids := fun h => hp.not_nextId_feeds ⟨x, hx, h⟩
      obtain ⟨_, hx', hin⟩ := hfeeds
      cases hx.symm.trans hx'
      simp only [relinked, hparent, hchild, if_false, if_true]
      exact Node.swapParent_swapParent ((hp.parents hx).mpr hin) (fun h => hnew ((hp.parents hx).mp h)) hnew
    · simp [relinked, hparent, hchild]

-- ---------------------------------------------------------------------------
-- Displaced nodes
-- ---------------------------------------------------------------------------

/-- The node with its relation at another place. -/
def Node.stored (n : Node) (st : Storage) : Node := { n with rel := { n.rel with storage := st } }

namespace Plan

variable {p q r : Plan} {S T : Set NodeId} {k : NodeId} {n : Node}

/-- From `p` to `q` nothing has changed but the storages of the nodes in `S` and what is bound to them. -/
structure Displaced (S : Set NodeId) (p q : Plan) : Prop extends Touched S p q where
  columns : q.columnsAt = p.columnsAt

namespace Displaced

theorem refl : Displaced S p p := ⟨.refl, rfl⟩

theorem trans (h₁ : Displaced S p q) (h₂ : Displaced S q r) : Displaced S p r :=
  ⟨h₁.toTouched.trans h₂.toTouched, h₂.columns.trans h₁.columns⟩

theorem mono (hST : S ⊆ T) (h : Displaced S p q) : Displaced T p q := ⟨h.toTouched.mono hST, h.columns⟩

theorem numbered (h : Displaced S p q) (hp : p.Numbered) : q.Numbered := hp.of_columnsAt_eq h.columns

theorem get? (h : Displaced S p q) (hn : p.nodes.get? k = some n) : ∃ m, q.nodes.get? k = some m ∧
    m.skeleton = n.skeleton ∧ m.rel = { n.rel with storage := m.rel.storage } := by
  obtain ⟨m, hm, hs⟩ := get?_of_skeleton_eq h.skeleton.symm hn
  have hcolumns : m.rel.columns = n.rel.columns := by simpa [columnsAt, hm, hn] using congrFun h.columns k
  refine ⟨m, hm, hs.symm, ?_⟩
  simp only [← hcolumns, Node.name_eq_of_skeleton_eq hs]

theorem get?_none (h : Displaced S p q) (hk : p.nodes.get? k = none) : q.nodes.get? k = none := by
  refine Option.eq_none_iff_forall_ne_some.mpr fun m hm => ?_
  obtain ⟨n, hn, -⟩ := get?_of_skeleton_eq h.skeleton hm
  cases hk.symm.trans hn

/-- The inputs have the same columns. -/
theorem inputRelations (h : Displaced S p q) {ins : List Relation} (hins : p.inputRelations k = .ok ins) :
    ∃ ins', q.inputRelations k = .ok ins' ∧ ins'.map Relation.columns = ins.map Relation.columns := by
  obtain ⟨n, hn, hall⟩ := inputRelations_eq_ok.mp hins
  obtain ⟨m, hm, hs, -⟩ := h.get? hn
  simp only [inputRelations_eq_ok, hm, Option.some.injEq, exists_eq_left', Node.inputs_eq_of_skeleton_eq hs]
  clear hins
  generalize n.inputs.ids = ids at hall ⊢
  induction hall with
  | nil => exact ⟨[], .nil, rfl⟩
  | cons hhead _ ih =>
    obtain ⟨ins', hall', hmap⟩ := ih
    obtain ⟨a, ha, rfl⟩ := hhead
    obtain ⟨b, hb, -, hrel⟩ := h.get? ha
    exact ⟨b.rel :: ins', .cons ⟨b, hb, rfl⟩ hall', by rw [List.map_cons, List.map_cons, hmap, hrel]⟩

/-- Taking out a node goes along with displacements. -/
theorem bypassed {top bottom : NodeId} {b : Node} (h : Displaced S p q) :
    Displaced S (p.bypassed top bottom b) (q.bypassed top bottom b) where
  skeleton := by
    have hcommute (p : Plan) : (p.bypassed top bottom b).skeleton = p.skeleton.bypassed top bottom b := by
      refine ext_get? (fun k => ?_) rfl rfl
      rw [get?_skeleton, get?_bypassed, get?_bypassed, get?_skeleton]
      split
      · rfl
      · rw [Option.map_map, Option.map_map]
        congr 1
        funext n
        simp only [Function.comp_apply]
        split_ifs <;> rfl
    rw [hcommute, hcommute, h.skeleton]
  elsewhere k hk := by rw [get?_bypassed, get?_bypassed, h.elsewhere k hk]
  columns := by
    have hcolumns (p : Plan) (k : NodeId) : (p.bypassed top bottom b).columnsAt k =
        if k = bottom then none else p.columnsAt k := by
      rw [columnsAt, get?_bypassed]
      split
      · rfl
      · rw [columnsAt, Option.map_map]
        congr 1
        funext n
        simp only [Function.comp_apply]
        split_ifs <;> rfl
    funext k
    rw [hcolumns, hcolumns, h.columns]

end Displaced

end Plan

-- ---------------------------------------------------------------------------
-- Deriving the children
-- ---------------------------------------------------------------------------

namespace Edit

open Plan

variable {p q : Plan} {id : NodeId} {l : List NodeId}

theorem displaced_of_refreshStorage (hp : p.Numbered) (run : refreshStorage id p = .ok () q) : Displaced {id} p q := by
  obtain ⟨ins, n, m, hins, hn, hm, rfl⟩ := run_derive.mp run
  exact ⟨.set hn (Node.skeleton_of_refreshStorage (hp.inputs hins) hm), refreshStorage_columns.of_ok run⟩

theorem displaced_of_refreshStorages (hp : p.Numbered) (run : l.forM refreshStorage p = .ok () q) :
    Displaced {c | c ∈ l} p q := by
  induction l generalizing p with
  | nil => exact run_forM_nil.mp run ▸ .refl
  | cons a l ih =>
    obtain ⟨r, ha, hl⟩ := run_forM_cons.mp run
    have h := displaced_of_refreshStorage hp ha
    exact (h.mono (by simp)).trans ((ih (h.numbered hp) hl).mono fun c hc => List.mem_cons_of_mem a hc)

end Edit

namespace Plan

variable {p q : Plan} {S : Set NodeId} {k a : NodeId} {n : Node} {cs : NodeSet} {rest : List NodeId}

/-- Whatever has displaced the inputs of a node, deriving it gives it its parameters back. Its storage
comes back with those of its inputs. -/
theorem Displaced.refreshStorage (h : Displaced S p q) (hk : p.SteadyAt Node.restored k) (hn : p.nodes.get? k = some n) :
    ∃ st, Edit.refreshStorage k q = .ok () (q.set k (n.stored st)) ∧
      (q.inputRelations k = p.inputRelations k → st = n.rel.storage) := by
  obtain ⟨ins, n', hins, hn', hrun⟩ := steadyAt_iff.mp hk
  cases hn.symm.trans hn'
  obtain ⟨hbinds, st?, hst, hsame⟩ := Node.run_refreshStorage.mp hrun
  have hop : n.op.fill ins = n.op := congrArg Node.op hsame
  have hstorage : st?.getD n.rel.storage = n.rel.storage := congrArg (fun n : Node => n.rel.storage) hsame
  obtain ⟨ins', hins', hcolumns⟩ := h.inputRelations hins
  obtain ⟨m, hm, hs, hrel⟩ := h.get? hn
  have hbare : m.op.bare = n.op.bare := Node.bare_eq_of_skeleton_eq hs
  have hfill : m.op.fill ins' = n.op := by rw [Op.fill_eq_of_bare_eq hbare, Op.fill_congr hcolumns, hop]
  rw [hop] at hst
  obtain ⟨st?', hst'⟩ := Op.outputStorage?_ok_congr hcolumns hst
  have hnew : { m with op := m.op.fill ins', rel := { m.rel with storage := st?'.getD m.rel.storage } } =
      n.stored (st?'.getD m.rel.storage) := by
    simp only [Node.stored, hfill, congrArg Relation.name hrel, congrArg Relation.columns hrel,
      Node.id_eq_of_skeleton_eq hs, Node.inputs_eq_of_skeleton_eq hs, Node.parents_eq_of_skeleton_eq hs,
      Node.children_eq_of_skeleton_eq hs]
  refine ⟨st?'.getD m.rel.storage, Edit.run_derive.mpr ⟨ins', m, _, hins', hm, ?_, rfl⟩, fun hsame => ?_⟩
  · refine Node.run_refreshStorage.mpr ⟨(hbinds.congr hcolumns).of_bare_eq hbare.symm, st?', ?_, hnew⟩
    rw [hfill, hst']
  · obtain rfl : ins' = ins := Except.ok.inj (hins'.symm.trans (hsame.trans hins))
    obtain rfl : st?' = st? := Except.ok.inj (hst'.symm.trans hst)
    cases st?' with
    | some st => exact hstorage
    | none =>
      have hrel := Node.rel_eq_of_skeleton_eq hs.symm (Op.eq_create_of_outputStorage? hst)
      exact (congrArg Relation.storage hrel).symm

/-- Numbers ascend along every chain of nodes in `cs` that leads to `c`. -/
def InTurn (p : Plan) (cs : NodeSet) (c : NodeId) : Prop :=
  ∀ u ∈ cs, ∀ v ∈ cs, Relation.ReflTransGen (fun u v => v ∈ cs ∧ p.Feeds u v) v c → p.Feeds u v → u < v

namespace InTurn

variable {u c : NodeId} (h : p.InTurn cs c) (hc : c ∈ cs) (hfeeds : p.Feeds u c)

include h hc hfeeds

theorem lt (hu : u ∈ cs) : u < c := h u hu c hc .refl hfeeds

theorem feeder : p.InTurn cs u := fun x hx v hv hvu hxv => h x hx v hv (hvu.tail ⟨hc, hfeeds⟩) hxv

end InTurn

/-- The nodes in `cs` have been displaced, and those that are not in `rest` have been derived anew. -/
structure Restoring (cs : NodeSet) (p : Plan) (rest : List NodeId) (q : Plan) : Prop
    extends Displaced {c | c ∈ cs} p q where
  ordered : rest.Pairwise (· < ·)
  subset : ∀ c ∈ rest, c ∈ cs
  done : ∀ c ∈ cs, c ∉ rest → ∀ n, p.nodes.get? c = some n → ∃ st, q.nodes.get? c = some (n.stored st) ∧
    (p.InTurn cs c → st = n.rel.storage)

namespace Restoring

/-- By the time a node is derived that is in turn, its inputs are what they were. -/
theorem inputRelations (h : Restoring cs p (a :: rest) q) (hn : p.nodes.get? a = some n) (hturn : p.InTurn cs a) :
    q.inputRelations a = p.inputRelations a := by
  have ha : a ∈ cs := h.subset a List.mem_cons_self
  obtain ⟨m, hm, hs, -⟩ := h.get? hn
  refine Alike.inputRelations_congr hn hm (Node.inputs_eq_of_skeleton_eq hs) fun u hu => .of_eq ?_
  by_cases hmem : u ∈ cs
  · have hfeeds : p.Feeds u a := ⟨n, hn, hu⟩
    have hlt : u < a := hturn.lt ha hfeeds hmem
    have hdone : u ∉ a :: rest := by
      rintro (_ | ⟨_, hrest⟩)
      · exact Nat.lt_irrefl _ hlt
      · exact Nat.lt_asymm hlt (List.rel_of_pairwise_cons h.ordered hrest)
    cases hb : p.nodes.get? u with
    | none => exact h.get?_none hb
    | some b =>
      obtain ⟨st, hst, hsame⟩ := h.done u hmem hdone b hb
      rw [hst, hsame (hturn.feeder ha hfeeds)]
      rfl
  · exact h.elsewhere u hmem

theorem step (h : Restoring cs p (a :: rest) q) (hp : p.Numbered) (ha : p.SteadyAt Node.restored a) :
    ∃ q', Edit.refreshStorage a q = .ok () q' ∧ Restoring cs p rest q' := by
  obtain ⟨ins, n, -, hn, -⟩ := steadyAt_iff.mp ha
  obtain ⟨st, run, hst⟩ := h.refreshStorage ha hn
  have hmem : a ∈ cs := h.subset a List.mem_cons_self
  have hdisplaced : Displaced {c | c ∈ cs} q (q.set a (n.stored st)) :=
    (Edit.displaced_of_refreshStorage (h.numbered hp) run).mono (by simpa using hmem)
  refine ⟨_, run, h.toDisplaced.trans hdisplaced, h.ordered.of_cons,
    fun c hc => h.subset c (List.mem_cons_of_mem a hc), fun c hc hrest m hm => ?_⟩
  rw [get?_set]
  split
  · subst c
    cases hn.symm.trans hm
    exact ⟨st, rfl, fun hturn => hst (h.inputRelations hn hturn)⟩
  · exact h.done c hc (by simp [*]) m hm

theorem run (h : Restoring cs p rest q) (hp : p.Numbered) (hsteady : ∀ c ∈ cs, p.SteadyAt Node.restored c) :
    ∃ q', rest.forM Edit.refreshStorage q = .ok () q' ∧ Restoring cs p [] q' :=
  forM_total (motive := Restoring cs p) (fun a _ _ h => h.step hp (hsteady a (h.subset a List.mem_cons_self))) h

/-- Where all of them are in turn, everything is as it was. -/
theorem eq (h : Restoring cs p [] q) (hturn : ∀ c ∈ cs, p.InTurn cs c) : q = p := by
  refine ext_get? (fun k => ?_) (roots_eq_of_skeleton_eq h.skeleton) (nextId_eq_of_skeleton_eq h.skeleton)
  by_cases hk : k ∈ cs
  · cases hn : p.nodes.get? k with
    | none => exact h.get?_none hn
    | some n =>
      obtain ⟨st, hst, hsame⟩ := h.done k hk List.not_mem_nil n hn
      rw [hst, hsame (hturn k hk)]
      rfl
  · exact h.elsewhere k hk

end Restoring

end Plan

-- ---------------------------------------------------------------------------
-- Splicing and taking out
-- ---------------------------------------------------------------------------

namespace Edit

open Plan

/-- An edit that begins with the checks of a splice has been given an orphan. -/
theorem orphan_of_run {p q : Plan} {new : NodeId} {action : String} {f : Unit → Edit Unit}
    (run : (do expectUnary new action; let u ← expectOrphan new; f u : Edit Unit) p = .ok () q) :
    ∃ o, p.Orphan new o := by
  obtain ⟨_, _, hunary, run⟩ := run_bind.mp run
  obtain ⟨_, _, horphan, -⟩ := run_bind.mp run
  obtain rfl := (run_expectUnary.mp hunary).2
  obtain rfl := (run_expectOrphan.mp horphan).2
  exact orphan_of_checks hunary horphan

end Edit

namespace Plan

variable {p q : Plan} {parent : NodeId} {n : Node} {cs : NodeSet} {op : Op} {rel : Relation}

/-- An orphan that has just been added can be spliced in, also under the last number. -/
theorem Linked.insertable_joined {o : Node} (hp : p.Linked) (hn : p.nodes.get? parent = some n)
    (ho : (p.joined op rel .none).Orphan p.nextId o) :
    (p.joined op rel .none).Insertable parent p.nextId n o where
  node := by rw [Edit.get?_joined_none, if_neg (hp.ne_nextId hn), hn]
  orphan := ho
  keyed := by
    have hnode := ho.node
    rw [Edit.get?_joined_none, if_pos rfl] at hnode
    cases hnode
    rfl
  found c hc := by
    obtain ⟨m, hm, hin⟩ := (hp.children hn).mp hc
    exact ⟨m, by rw [Edit.get?_joined_none, if_neg (hp.ne_nextId hm), hm], (hp.parents hm).mpr hin⟩
  new_ne := (hp.ne_nextId hn).symm
  parent_not_mem h := hp.not_feeds_self ((hp.children hn).mp h)
  new_not_mem h := hp.not_feeds_nextId ((hp.children hn).mp h)

/-- After a splice nothing is displaced but the children. -/
theorem displaced_of_splice (hnum : p.Numbered) (hop : op.arity = .unary) (run : (do
      Edit.refresh p.nextId
      cs.toList.forM Edit.refreshStorage : Edit Unit) (p.splice parent cs op rel) = .ok () q) :
    ∃ op' rel', op'.arity = .unary ∧ Displaced {c | c ∈ cs} (p.splice parent cs op' rel') q := by
  obtain ⟨_, r, hrefresh, hloop⟩ := run_bind.mp run
  obtain ⟨ins, o, m, hins, ho, hm, rfl⟩ := Edit.run_derive.mp hrefresh
  rw [get?_splice, if_pos rfl] at ho
  cases ho
  have hnumbered : m.rel.Numbered :=
    (Node.sound_of_refresh (fun hcreate => absurd hcreate (Op.ne_create_of_unary hop)) hm).numbered
  obtain ⟨-, st?, cols?, -, -, rfl⟩ := Node.run_refresh.mp hm
  have hset (op' : Op) (rel' : Relation) : (p.splice parent cs op rel).set p.nextId
      ⟨p.nextId, op', rel', .unary parent, .singleton parent, cs⟩ = (p.splice parent cs op' rel') := by
    refine ext_get? (fun k => ?_) rfl rfl
    simp only [get?_set, get?_splice]
    split <;> rfl
  rw [hset] at hloop
  have hstart : (p.splice parent cs (op.fill ins) _).Numbered := hnum.splice hnumbered
  refine ⟨_, _, ?_, (Edit.displaced_of_refreshStorages hstart hloop).mono fun c hc => IdSet.mem_toList.mp hc⟩
  rw [Op.fill, Op.arity_mapBound, hop]

/-- What has been spliced in can be taken out again. -/
theorem Linked.exists_removeNode (hp : p.Linked) (hnum : p.Numbered) (hn : p.nodes.get? parent = some n)
    (hcs : ∀ c ∈ cs, c ∈ n.children) (hop : op.arity = .unary) (hfree : p.nextId ∉ p.roots)
    (hsteady : ∀ c ∈ cs, p.SteadyAt Node.restored c) (run : (do
      Edit.refresh p.nextId
      cs.toList.forM Edit.refreshStorage : Edit Unit) (p.splice parent cs op rel) = .ok () q) :
    ∃ q', Edit.removeNode p.nextId q = .ok () q' ∧ Restoring cs p.reserve [] q' := by
  obtain ⟨op', rel', hop', hq⟩ := displaced_of_splice hnum hop run
  have hself : parent ∉ cs := fun h => hp.not_feeds_self ((hp.children hn).mp (hcs _ h))
  have hnew : p.nextId ∉ cs := fun h => hp.not_feeds_nextId ((hp.children hn).mp (hcs _ h))
  have htop : q.nodes.get? parent = some (relinked parent p.nextId cs parent n) := by
    rw [hq.elsewhere parent hself, get?_splice, if_neg (hp.ne_nextId hn), hn, Option.map_some]
  obtain ⟨b, hb, harity, hfed, hsize, hchildren⟩ : ∃ b, q.nodes.get? p.nextId = some b ∧ b.op.arity = .unary ∧
      b.inputs = .unary parent ∧ b.parents.size = 1 ∧ b.children = cs := by
    rw [hq.elsewhere p.nextId hnew, get?_splice, if_pos rfl]
    exact ⟨_, rfl, hop', rfl, rfl, rfl⟩
  have hall : ∀ c ∈ b.children, ∃ m, q.nodes.get? c = some m := by
    intro c hc
    rw [hchildren] at hc
    obtain ⟨m, hm, -⟩ := (hp.children hn).mp (hcs c hc)
    have hc : (p.splice parent cs op' rel').nodes.get? c = some (relinked parent p.nextId cs c m) := by
      rw [get?_splice, if_neg (hp.ne_nextId hm), hm, Option.map_some]
    exact (hq.get? hc).imp fun _ h => h.1
  have hroots : q.roots.erase p.nextId = q.roots := by
    have hfree' : p.nextId ∉ q.roots := by rwa [roots_eq_of_skeleton_eq hq.skeleton]
    ext k
    simp only [IdSet.mem_erase]
    grind
  have hback : Displaced {c | c ∈ cs} p.reserve (q.bypassed parent p.nextId b) := by
    have hbypassed : (p.splice parent cs op' rel').bypassed parent p.nextId b = p.reserve :=
      hp.bypassed_splice hn hcs hchildren
    exact hbypassed ▸ hq.bypassed
  have hstart : Restoring cs p.reserve cs.toList (q.bypassed parent p.nextId b) :=
    ⟨hback, cs.ascending, fun c => IdSet.mem_toList.mp, fun c hc hrest => absurd (IdSet.mem_toList.mpr hc) hrest⟩
  rw [Edit.removeNode_eq htop hb harity hfed hsize hall (hchildren ▸ hself), hroots, hchildren]
  refine hstart.run hnum fun c hc => ?_
  -- deriving a node does not look at the next number
  obtain ⟨ins, m, hins, hm, hrun⟩ := steadyAt_iff.mp (hsteady c hc)
  exact steadyAt_iff.mpr ⟨ins, m, hins, hm, hrun⟩

/-- Splicing a new node in and taking it out again are inverse to each other in all but the next number,
as far as storages are derived in turn. -/
theorem Linked.removeNode_undoes {n : Node} {new : NodeId} {r : Plan} (hp : p.Linked) (hnum : p.Numbered)
    (hn : p.nodes.get? parent = some n) (hsteady : ∀ c ∈ n.children, Edit.refreshStorage c p = .ok () p)
    (add : Edit.addOrphan op rel p = .ok new r) :
    (∀ child ∈ n.children, ∀ q, Edit.insertBetween parent child new r = .ok () q →
      Edit.removeNode new q = .ok () { p with nextId := p.nextId + 1 }) ∧
    ∀ q, Edit.insertAfterAll parent new r = .ok () q → ∃ q', Edit.removeNode new q = .ok () q' ∧
      q'.roots = p.roots ∧ q'.nextId = p.nextId + 1 ∧
      (∀ k, p.nodes.get? k = none → q'.nodes.get? k = none) ∧
      (∀ k m, p.nodes.get? k = some m → ∃ st, q'.nodes.get? k = some (m.stored st) ∧
        ((k ∈ n.children → p.InTurn n.children k) → st = m.rel.storage)) ∧
      ((∀ u ∈ n.children, ∀ v ∈ n.children, p.Feeds u v → u < v) →
        q' = { p with nextId := p.nextId + 1 }) := by
  obtain ⟨-, rfl, rfl⟩ := Edit.run_addOrphan.mp add
  have horphan {o : Node} (ho : (p.joined op rel .none).Orphan p.nextId o) :
      o.op = op ∧ o.rel = rel ∧ op.arity = .unary ∧ p.nextId ∉ p.roots := by
    obtain ⟨hop, hrel⟩ := Edit.eq_of_orphan_joined ⟨ho.node, ho.arity, ho.parents, ho.children, ho.free⟩
    exact ⟨hop, hrel, hop ▸ ho.arity, ho.free⟩
  have hsplice (cs : NodeSet) :
      (p.joined op rel .none).spliceAt p.nextId parent cs op rel = (p.splice parent cs op rel) :=
    Edit.spliceAt_joined
  refine ⟨fun child hc q run => ?_, fun q run => ?_⟩
  · obtain ⟨o, ho⟩ := Edit.orphan_of_run run
    obtain ⟨rfl, rfl, hop, hfree⟩ := horphan ho
    have hsubset : ∀ c ∈ IdSet.singleton child, c ∈ n.children := by
      intro c hmem
      rwa [IdSet.mem_singleton.mp hmem]
    have hone : (IdSet.singleton child).toList.forM Edit.refreshStorage = Edit.refreshStorage child := by
      simp [IdSet.singleton]
    rw [Edit.insertBetween_eq (hp.insertable_joined hn ho) hc, hsplice, ← hone] at run
    obtain ⟨q', hremove, hq'⟩ := hp.exists_removeNode hnum hn hsubset hop hfree
      (fun c hmem => hsteady c (hsubset c hmem)) run
    -- the only child that is derived does not feed itself
    have hturn : ∀ c ∈ IdSet.singleton child, p.reserve.InTurn (.singleton child) c := by
      intro _ _ u hu v hv _ hfeeds
      rw [IdSet.mem_singleton.mp hu, IdSet.mem_singleton.mp hv] at hfeeds
      exact absurd hfeeds hp.not_feeds_self
    rw [hremove, hq'.eq hturn]
    rfl
  · obtain ⟨o, ho⟩ := Edit.orphan_of_run run
    obtain ⟨rfl, rfl, hop, hfree⟩ := horphan ho
    rw [Edit.insertAfterAll_eq (hp.insertable_joined hn ho), hsplice] at run
    obtain ⟨q', hremove, hq'⟩ := hp.exists_removeNode hnum hn (fun _ h => h) hop hfree hsteady run
    have hroots := roots_eq_of_skeleton_eq hq'.skeleton
    have hnext := nextId_eq_of_skeleton_eq hq'.skeleton
    refine ⟨q', hremove, hroots, hnext, fun k => hq'.get?_none, fun k m hm => ?_,
      fun h => hq'.eq fun c _ u hu v hv _ => h u hu v hv⟩
    by_cases hk : k ∈ n.children
    · obtain ⟨st, hst, hsame⟩ := hq'.done k hk List.not_mem_nil m hm
      exact ⟨st, hst, fun hturn => hsame (hturn hk)⟩
    · exact ⟨m.rel.storage, (hq'.elsewhere k hk).trans hm, fun _ => rfl⟩

end Plan

-- ---------------------------------------------------------------------------
-- A storage that is left behind
-- ---------------------------------------------------------------------------

namespace Workflow

/-- Some of the rows are read twice, the second time together with all rows. -/
def concatLimited : List Call :=
  [.create "a" [.fresh "c" .integer] (.among 1 []), .limit 0 "x" 1, .limit 1 "b" 2, .concat [0, 1] "y",
   .concat [2, 3] "z", .collect 4 "r" (.singleton 1)]

end Workflow

namespace Plan

/-- The children of the node 0 are up to date. A closing is spliced behind it and taken out again, and then
the nodes are not what they were. -/
def leavesBehind (p : Plan) : Bool :=
  let added := (p.joined (.closing (.among 1 [2])) (.blank "k") .none)
  match p.nodes.get? 0 with
  | none => false
  | some n =>
    decide (p.nextId + 1 < Word.limit ∧ 3 ∈ n.children) &&
      n.children.toList.all (fun c => runsTo (Edit.refreshStorage c) p fun q => decide (q = p)) &&
      runsTo (Edit.insertBetween 0 3 p.nextId) added (fun _ => true) &&
      runsTo (Edit.insertAfterAll 0 p.nextId) added fun q =>
        runsTo (Edit.removeNode p.nextId) q fun q' => decide (q'.nodes ≠ p.nodes)

/-- When `x` is copied for `y`, the copy has a larger number than `y`, and both read `a`. -/
theorem exists_leavesBehind : ∃ (p : Plan) (n : Node) (new : NodeId) (r q₁ q₂ q : Plan), p.WellFormed ∧ p.Numbered ∧
    p.nodes.get? 0 = some n ∧ (∀ c ∈ n.children, Edit.refreshStorage c p = .ok () p) ∧ 3 ∈ n.children ∧
    Edit.addOrphan (.closing (.among 1 [2])) (.blank "k") p = .ok new r ∧ Edit.insertBetween 0 3 new r = .ok () q₁ ∧
    Edit.insertAfterAll 0 new r = .ok () q₂ ∧ Edit.removeNode new q₂ = .ok () q ∧ q.nodes ≠ p.nodes := by
  have hwrites : Workflow.writesTo Workflow.concatLimited (fun p => runsTo (discard (Edit.forkNode 1)) p leavesBehind) =
      true := by cbv
  obtain ⟨p₀, w, hwrite, hruns⟩ := Workflow.exists_of_writesTo hwrites
  obtain ⟨p, hdiscard, htest⟩ := exists_of_runsTo hruns
  obtain ⟨copies, hfork⟩ := run_discard.mp hdiscard
  have hbuilt : p₀.Built := ⟨_, w, hwrite⟩
  have hsimple := hbuilt.simple
  obtain ⟨x, _, hx, -⟩ := run_bind.mp hfork
  obtain ⟨hcoherent, hsound⟩ : p.Coherent ∧ p.Sound :=
    PushDown.forkNode_forks (motive := fun p => p.Coherent ∧ p.Sound) hsimple.coherent (Edit.run_node.mp hx).1
      ⟨hsimple.coherent, hsimple.sound⟩ (fun _ hforked h => ⟨hforked.coherent h.1, hforked.sound h.2⟩) hfork
  unfold leavesBehind at htest
  split at htest
  · cases htest
  · rename_i n hn
    obtain ⟨htest, hafter⟩ := Bool.and_eq_true_iff.mp htest
    obtain ⟨htest, hbetween⟩ := Bool.and_eq_true_iff.mp htest
    obtain ⟨hchild, hsteady⟩ := Bool.and_eq_true_iff.mp htest
    obtain ⟨room, hchild⟩ := of_decide_eq_true hchild
    obtain ⟨q₁, hbetween, -⟩ := exists_of_runsTo hbetween
    obtain ⟨q₂, hafter, hremove⟩ := exists_of_runsTo hafter
    obtain ⟨q, hremove, hne⟩ := exists_of_runsTo hremove
    refine ⟨p, n, p.nextId, _, q₁, q₂, q, hcoherent.wellFormed, hsound.numbered, hn, fun c hc => ?_,
      hchild, Edit.addOrphan_eq room, hbetween, hafter, hremove, of_decide_eq_true hne⟩
    obtain ⟨q, hrun, hq⟩ := exists_of_runsTo (List.all_eq_true.mp hsteady c (IdSet.mem_toList.mpr hc))
    rw [hrun, of_decide_eq_true hq]

theorem Linked.removeNode_undoes_concatLimited : ∃ (p : Plan) (n : Node) (new : NodeId) (r q₁ q₂ q : Plan), p.Linked ∧
    p.Numbered ∧ p.nodes.get? 0 = some n ∧ (∀ c ∈ n.children, Edit.refreshStorage c p = .ok () p) ∧ 3 ∈ n.children ∧
    Edit.addOrphan (.closing (.among 1 [2])) (.blank "k") p = .ok new r ∧ Edit.insertBetween 0 3 new r = .ok () q₁ ∧
    Edit.removeNode new q₁ = .ok () { p with nextId := p.nextId + 1 } ∧
    Edit.insertAfterAll 0 new r = .ok () q₂ ∧ Edit.removeNode new q₂ = .ok () q ∧ q.roots = p.roots ∧
    ∀ k m, p.nodes.get? k = some m → ∃ st, q.nodes.get? k = some (m.stored st) ∧
      ((k ∈ n.children → p.InTurn n.children k) → st = m.rel.storage) := by
  obtain ⟨p, n, new, r, q₁, q₂, q, hp, hnum, hn, hsteady, hchild, hadd, hbetween, hafter, hremove, -⟩ :=
    exists_leavesBehind
  have hlinked := hp.coherent.toLinked
  obtain ⟨hone, hall⟩ := hlinked.removeNode_undoes hnum hn hsteady hadd
  obtain ⟨q', hremove', hroots, -, -, hnodes, -⟩ := hall q₂ hafter
  obtain rfl : q = q' := (EStateM.Result.ok.inj (hremove.symm.trans hremove')).2
  exact ⟨p, n, new, r, q₁, q₂, q, hlinked, hnum, hn, hsteady, hchild, hadd, hbetween, hone 3 hchild q₁ hbetween,
    hafter, hremove, hroots, hnodes⟩

/-- The node `y` keeps a storage that it had from the splice. -/
theorem not_removeNode_undoes : ∃ (p : Plan) (n : Node) (op : Op) (rel : Relation) (new : NodeId) (r q q' : Plan),
    p.WellFormed ∧ p.Numbered ∧ p.nodes.get? 0 = some n ∧ (∀ c ∈ n.children, Edit.refreshStorage c p = .ok () p) ∧
    op.arity = .unary ∧ Edit.addOrphan op rel p = .ok new r ∧ Edit.insertAfterAll 0 new r = .ok () q ∧
    Edit.removeNode new q = .ok () q' ∧ q'.nodes ≠ p.nodes := by
  obtain ⟨p, n, new, r, -, q, q', hp, hnum, hn, hsteady, -, hadd, -, hafter, hremove, hne⟩ := exists_leavesBehind
  exact ⟨p, n, _, _, new, r, q, q', hp, hnum, hn, hsteady, rfl, hadd, hafter, hremove, hne⟩

end Plan

end JointPlan
