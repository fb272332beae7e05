import JointPlan.Proofs.Splicing

/-!
# What surgery does

Each surgical edit either fails with nothing done or makes one of the changes of shape
and then derives some nodes anew. For an edit that has finished, splicing in an orphan
is taken together with adding it, since the plan is not coherent in between.
-/

namespace JointPlan

/-- The relation is what the operator makes of its only input. -/
structure Op.Emits (op : Op) (r rel : Relation) : Prop where
  storage : op.outputStorage? [r] = .ok (some rel.storage)
  columns : ∃ cols, op.outputColumns? [r] rel.storage.members = .ok (some cols) ∧
    rel.columns = Relation.number rel.name 0 cols

theorem Op.Emits.numbered {op : Op} {r rel : Relation} (h : op.Emits r rel) : rel.Numbered := by
  obtain ⟨cols, -, hcols⟩ := h.columns
  have hrel : { rel with columns := cols }.renumber = rel := by rw [Relation.renumber, ← hcols]
  exact hrel ▸ Relation.numbered_renumber _

namespace Plan

variable {p q : Plan} {k : NodeId}

theorem set_self {n : Node} (hn : p.nodes.get? k = some n) : p.set k n = p := by
  refine ext_get? (fun j => ?_) rfl rfl
  rw [get?_set]
  split
  · rw [‹j = k›, hn]
  · rfl

/-- Change every node of a plan. -/
def adjust (p : Plan) (f : NodeId → Node → Node) : Plan := { p with nodes := p.nodes.map f }

@[simp] theorem get?_adjust (f : NodeId → Node → Node) :
    (p.adjust f).nodes.get? k = (p.nodes.get? k).map (f k) := IdMap.get?_map _ _ _

/-- The node `o` under `new` takes one input and has no edges yet. -/
structure Orphan (p : Plan) (new : NodeId) (o : Node) : Prop where
  node : p.nodes.get? new = some o
  arity : o.op.arity = .unary
  parents : o.parents = ∅
  children : o.children = ∅
  free : new ∉ p.roots

theorem Orphan.not_feeds {new u : NodeId} {o : Node} (h : p.Orphan new o) (hp : p.Linked) :
    ¬ p.Feeds new u := fun hu => IdSet.not_mem_empty u (h.children ▸ (hp.children h.node).mpr hu)

theorem Orphan.not_fed {new u : NodeId} {o : Node} (h : p.Orphan new o) (hp : p.Linked) :
    ¬ p.Feeds u new := by
  rintro ⟨o', ho', hu⟩
  cases h.node.symm.trans ho'
  exact IdSet.not_mem_empty u (h.parents ▸ (hp.parents h.node).mpr hu)

/-- The orphan `o` can be put between the node `n` and its children. -/
structure Insertable (p : Plan) (parent new : NodeId) (n o : Node) : Prop where
  node : p.nodes.get? parent = some n
  orphan : p.Orphan new o
  keyed : o.id = new
  found : ∀ c ∈ n.children, ∃ m, p.nodes.get? c = some m ∧ parent ∈ m.parents
  new_ne : new ≠ parent
  parent_not_mem : parent ∉ n.children
  new_not_mem : new ∉ n.children

theorem Linked.insertable {parent new : NodeId} {n o : Node} (hp : p.Linked) (hn : p.nodes.get? parent = some n)
    (ho : p.Orphan new o) (hne : new ≠ parent) : p.Insertable parent new n o where
  node := hn
  orphan := ho
  keyed := hp.keyed ho.node
  found c hc := by
    obtain ⟨m, hm, hin⟩ := (hp.children hn).mp hc
    exact ⟨m, hm, (hp.parents hm).mpr hin⟩
  new_ne := hne
  parent_not_mem h := hp.not_feeds_self ((hp.children hn).mp h)
  new_not_mem h := ho.not_fed hp ((hp.children hn).mp h)

/-- A finished edit that has put a new node between `parent` and its children `cs`. -/
structure Spliced (p : Plan) (parent : NodeId) (cs : NodeSet) (op : Op) (rel : Relation)
    (q : Plan) : Prop where
  room : p.nextId + 1 < Word.limit
  arity : op.arity = .unary
  subset : ∃ n, p.nodes.get? parent = some n ∧ ∀ c ∈ cs, c ∈ n.children
  outline : q.outline = (p.splice parent cs op rel).outline
  touched : p.Sound → Touched ({p.nextId} ∪ {c | c ∈ cs}) (p.splice parent cs op rel) q
  sound : p.Sound → q.Sound

namespace Spliced

variable {parent : NodeId} {cs : NodeSet} {op : Op} {rel : Relation} (h : p.Spliced parent cs op rel q)

include h

theorem nextId_eq : q.nextId = p.nextId + 1 := nextId_eq_of_outline_eq h.outline

theorem name_new : ∃ m, q.nodes.get? p.nextId = some m ∧ m.rel.name = rel.name := by
  obtain ⟨m, hm, hs⟩ := get?_of_outline_eq h.outline.symm ((get?_splice p.nextId).trans (if_pos rfl))
  have hname := congrArg (fun n : Node => n.rel.name) hs
  exact ⟨m, hm, by simpa [Node.outline, Relation.blank] using hname.symm⟩

theorem coherent (hp : p.Coherent) : q.Coherent := by
  obtain ⟨n, hn, hcs⟩ := h.subset
  exact (hp.splice hn hcs h.arity h.room).of_outline_eq h.outline

theorem get?_old {n : Node} (hp : p.Coherent) (hs : p.Sound) (hn : p.nodes.get? k = some n) :
    ∃ m, q.nodes.get? k = some m ∧ m.skeleton = (relinked parent p.nextId cs k n).skeleton := by
  have hk : (p.splice parent cs op rel).nodes.get? k = some (relinked parent p.nextId cs k n) := by
    rw [get?_splice, if_neg (hp.ne_nextId hn), hn, Option.map_some]
  obtain ⟨m, hm, hs⟩ := get?_of_skeleton_eq (h.touched hs).skeleton.symm hk
  exact ⟨m, hm, hs.symm⟩

end Spliced

theorem Sound.splice {parent : NodeId} {cs : NodeSet} {op : Op} {rel : Relation} (hp : p.Sound)
    (hnumbered : rel.Numbered) (hsized : ∀ ds, op = .distinct ds → rel.columns.length = ds.length) :
    (p.splice parent cs op rel).Sound := by
  intro k m hm
  rcases get?_splice_eq_some hm with ⟨-, rfl⟩ | ⟨-, n, hn, rfl⟩
  · exact ⟨hnumbered, hsized⟩
  · have := hp k n hn
    exact ⟨by simpa using this.numbered, by simpa using this.sized⟩

theorem Numbered.splice {parent : NodeId} {cs : NodeSet} {op : Op} {rel : Relation} (hp : p.Numbered)
    (hrel : rel.Numbered) : (p.splice parent cs op rel).Numbered := by
  intro k m hm
  rcases get?_splice_eq_some hm with ⟨-, rfl⟩ | ⟨-, n, hn, rfl⟩
  · exact hrel
  · rw [relinked_rel]
    exact hp k n hn

theorem Sound.forked {id child : NodeId} {n : Node} {rel : Relation} (hp : p.Sound)
    (hn : p.nodes.get? id = some n) (hnumbered : rel.Numbered)
    (hlength : rel.columns.length = n.rel.columns.length) : (p.forked id child n rel).Sound := by
  intro k m hm
  rcases get?_forked_eq_some hm with ⟨-, rfl⟩ | ⟨-, m', hm', rfl⟩
  · exact ⟨hnumbered, fun ds hds => hlength.trans ((hp id n hn).sized ds hds)⟩
  · have := hp k m' hm'
    exact ⟨by simpa using this.numbered, by simpa using this.sized⟩

/-- A finished edit that has made a copy of a node for one of its children. -/
structure Forked (p : Plan) (id child : NodeId) (n : Node) (rel : Relation) (q : Plan) : Prop where
  room : p.nextId + 1 < Word.limit
  node : p.nodes.get? id = some n
  member : child ∈ n.children
  left : q.nodes.get? id = some { n with children := n.children.erase child }
  outline : q.outline = (p.forked id child n rel).outline
  touched : p.Sound → Touched {child} (p.forked id child n rel) q
  sound : p.Sound → q.Sound

namespace Forked

variable {id child : NodeId} {n m : Node} {rel : Relation} (h : p.Forked id child n rel q)

include h

theorem nextId_eq : q.nextId = p.nextId + 1 := nextId_eq_of_outline_eq h.outline

theorem coherent (hp : p.Coherent) : q.Coherent :=
  (hp.forked h.node h.member h.room).of_outline_eq h.outline

theorem get?_old (hp : p.Coherent) (hs : p.Sound) (hm : p.nodes.get? k = some m) :
    ∃ m', q.nodes.get? k = some m' ∧ m'.skeleton = (forkedNode id child p.nextId n k m).skeleton := by
  have hk : (p.forked id child n rel).nodes.get? k = some (forkedNode id child p.nextId n k m) := by
    rw [Plan.forked, IdMap.get?_insert, IdMap.get?_map, if_neg (hp.ne_nextId hm), hm, Option.map_some]
  obtain ⟨m', hm', hs⟩ := get?_of_skeleton_eq (h.touched hs).skeleton.symm hk
  exact ⟨m', hm', hs.symm⟩

end Forked

end Plan

namespace Edit

open Plan

variable {p q r : Plan} {id parent child new : NodeId} {op : Op} {rel : Relation} {u : Unit}

-- ---------------------------------------------------------------------------
-- Checks and loops
-- ---------------------------------------------------------------------------

theorem run_expectUnary {action : String} : expectUnary id action p = .ok u q ↔
    (∃ n, p.nodes.get? id = some n ∧ n.op.arity = .unary) ∧ p = q := by
  simp only [expectUnary, run_bind, run_node, run_check, ne_eq, not_not]
  constructor
  · rintro ⟨n, _, ⟨hn, rfl⟩, hop, rfl⟩
    exact ⟨⟨n, hn, hop⟩, rfl⟩
  · rintro ⟨⟨n, hn, hop⟩, rfl⟩
    exact ⟨n, p, ⟨hn, rfl⟩, hop, rfl⟩

theorem run_expectOrphan : expectOrphan id p = .ok u q ↔
    (∃ n, p.nodes.get? id = some n ∧ n.isRoot ∧ n.isLeaf ∧ id ∉ p.roots) ∧ p = q := by
  simp only [expectOrphan, run_bind, run_node, run_get, run_check]
  constructor
  · rintro ⟨n, _, ⟨hn, rfl⟩, _, _, ⟨rfl, rfl⟩, hc, rfl⟩
    exact ⟨⟨n, hn, by simpa [and_assoc] using hc⟩, rfl⟩
  · rintro ⟨⟨n, hn, hc⟩, rfl⟩
    exact ⟨n, p, ⟨hn, rfl⟩, p, p, ⟨rfl, rfl⟩, by simpa [and_assoc] using hc, rfl⟩

theorem orphan_of_checks {action : String} (hunary : expectUnary new action p = .ok u p)
    (horphan : expectOrphan new p = .ok u p) : ∃ o, p.Orphan new o := by
  obtain ⟨⟨o, ho, harity⟩, -⟩ := run_expectUnary.mp hunary
  obtain ⟨⟨o', ho', hroot, hleaf, hfree⟩, -⟩ := run_expectOrphan.mp horphan
  cases ho.symm.trans ho'
  exact ⟨o, ho, harity, IdSet.isEmpty_iff.mp hroot, IdSet.isEmpty_iff.mp hleaf, hfree⟩

/-- A further root under a condition. -/
theorem addRoot_guard {α : Type} {c : Prop} [Decidable c] {f : PUnit → Edit α} :
    (if c then modify (fun p => { p with roots := p.roots.insert new }) >>= f else f ()) p =
      f () { p with roots := if c then p.roots.insert new else p.roots } := by
  split <;> rfl

/-- The same change of several nodes, each of which is changed once or can be changed again. -/
theorem run_forM_modifyNode {l : List NodeId} {f : Node → Node}
    (hl : l.Nodup ∨ ∀ n, f (f n) = f n) : l.forM (fun c => modifyNode c f) p = .ok u q ↔
      (∀ c ∈ l, ∃ n, p.nodes.get? c = some n) ∧
        q = p.adjust fun k n => if k ∈ l then f n else n := by
  induction l generalizing p with
  | nil =>
    have hid : p.adjust (fun k n => if k ∈ ([] : List NodeId) then f n else n) = p :=
      ext_get? (fun k => by simp) rfl rfl
    rw [run_forM_nil, hid]
    simp [eq_comm]
  | cons a l ih =>
    have hadjust {n : Node} (hn : p.nodes.get? a = some n) :
        (p.set a (f n)).adjust (fun k n => if k ∈ l then f n else n) =
          p.adjust fun k n => if k ∈ a :: l then f n else n := by
      refine ext_get? (fun k => ?_) rfl rfl
      by_cases hk : k = a
      · subst hk
        by_cases ha : k ∈ l
        · have hidem := hl.resolve_left fun h => (List.nodup_cons.mp h).1 ha
          simp [get?_set, hn, ha, hidem]
        · simp [get?_set, hn, ha]
      · simp [get?_set, hk]
    have hfound {n : Node} (hn : p.nodes.get? a = some n) (c : NodeId) :
        (∃ m, (p.set a (f n)).nodes.get? c = some m) ↔ ∃ m, p.nodes.get? c = some m := by
      by_cases hc : c = a
      · simp [get?_set, hc, hn]
      · simp [get?_set, hc]
    rw [run_forM_cons]
    simp only [run_modifyNode, ih (hl.imp_left fun h => (List.nodup_cons.mp h).2), List.forall_mem_cons]
    constructor
    · rintro ⟨_, ⟨n, hn, rfl⟩, hall, rfl⟩
      exact ⟨⟨⟨n, hn⟩, fun c hc => (hfound hn c).mp (hall c hc)⟩, hadjust hn⟩
    · rintro ⟨⟨⟨n, hn⟩, hall⟩, rfl⟩
      exact ⟨_, ⟨n, hn, rfl⟩, fun c hc => (hfound hn c).mpr (hall c hc), (hadjust hn).symm⟩

section Leads

variable {R : Plan → Plan → Prop} [IsPreorder Plan R]

theorem expectUnary_leads {action : String} : Leads R (expectUnary id action) :=
  node_leads.bind fun _ => .ite .throw .pure

theorem expectOrphan_leads : Leads R (expectOrphan id) :=
  node_leads.bind fun _ => Leads.get.bind fun _ => .ite .throw .pure

theorem checkPushDown_leads {top bottom : NodeId} : Leads R (checkPushDown top bottom) :=
  expectUnary_leads.bind fun _ => node_leads.bind fun _ => .guard fun _ => .ite .throw .pure

end Leads

-- ---------------------------------------------------------------------------
-- Elementary changes in front of the rest
-- ---------------------------------------------------------------------------

section Rest

variable {α : Type} {f : Node → Node} {g : PUnit → Edit α} {n : Node}

theorem modifyNode_bind (hn : p.nodes.get? id = some n) :
    (modifyNode id f >>= g) p = g () (p.set id (f n)) :=
  bind_of_ok (run_modifyNode.mpr ⟨n, hn, rfl⟩)

theorem forM_modifyNode_bind {l : List NodeId} (hl : l.Nodup ∨ ∀ n, f (f n) = f n)
    (hall : ∀ c ∈ l, ∃ n, p.nodes.get? c = some n) :
    ((l.forM fun c => modifyNode c f) >>= g) p = g () (p.adjust fun k n => if k ∈ l then f n else n) :=
  bind_of_ok ((run_forM_modifyNode hl).mpr ⟨hall, rfl⟩)

end Rest

/-- A node without edges has just been added. -/
theorem get?_joined_none (k : NodeId) : (p.joined op rel .none).nodes.get? k =
    if k = p.nextId then
      some { id := p.nextId, op, rel, inputs := .none, parents := ∅, children := ∅ }
    else p.nodes.get? k := by
  have hsame : fedNode p.nextId .none k = fun n => n := by
    funext n
    simp [fedNode, Inputs.ids]
  rw [get?_joined, hsame, Option.map_id']
  rfl

/-- A node without edges is added under the next number if there is one. -/
theorem run_addOrphan : addOrphan op rel p = .ok new r ↔
    p.nextId + 1 < Word.limit ∧ new = p.nextId ∧ r = p.joined op rel .none := by
  have heq : p.reserve.set p.nextId { id := p.nextId, op, rel, inputs := .none, parents := ∅, children := ∅ } =
      p.joined op rel .none := by
    refine ext_get? (fun k => ?_) rfl rfl
    rw [get?_joined_none, get?_set]
    rfl
  rw [addOrphan, run_addNode]
  constructor
  · rintro ⟨room, rfl, rfl⟩
    exact ⟨room, rfl, heq⟩
  · rintro ⟨room, rfl, rfl⟩
    exact ⟨room, rfl, heq.symm⟩

theorem addOrphan_eq (room : p.nextId + 1 < Word.limit) :
    addOrphan op rel p = .ok p.nextId (p.joined op rel .none) := run_addOrphan.mpr ⟨room, rfl, rfl⟩

theorem addOrphan_eq_error (full : ¬ p.nextId + 1 < Word.limit) :
    addOrphan op rel p = .error .exhausted p := addNode_eq_error full

-- ---------------------------------------------------------------------------
-- Splicing
-- ---------------------------------------------------------------------------

theorem relink_bind {α : Type} {x : Edit α} {n o : Node} (h : p.Insertable parent new n o)
    (hc : child ∈ n.children) : (do
      modifyNode parent fun n => (n.dropChild child).addChild new
      modifyNode child (Node.swapParent parent new)
      modifyNode new fun n =>
        { n with parents := n.parents.insert parent, children := n.children.insert child,
                 inputs := .unary parent }
      x : Edit α) p = x (p.spliceAt new parent (.singleton child) o.op o.rel) := by
  obtain ⟨hn, ho, hid, hfound, hnew_parent, hself, hnew⟩ := h
  have hchild : child ≠ parent := fun h => hself (h ▸ hc)
  have hnew_child : new ≠ child := fun h => hnew (h ▸ hc)
  obtain ⟨c, hcn, -⟩ := hfound child hc
  rw [modifyNode_bind hn, modifyNode_bind (n := c) (by rw [get?_set, if_neg hchild, hcn]),
    modifyNode_bind (n := o) (by rw [get?_set, if_neg hnew_child, get?_set, if_neg hnew_parent, ho.node])]
  refine congrArg x (ext_get? (fun k => ?_) rfl rfl)
  simp only [get?_spliceAt, get?_set]
  by_cases hk : k = new
  · simp [hk, ho.parents, ho.children, hid]
  · by_cases hkc : k = child
    · subst hkc
      simp [hk, hchild, hcn, relinked]
    · by_cases hkp : k = parent
      · subst hkp
        simp [hk, hkc, hn, relinked, IdSet.diff_singleton, Node.addChild, Node.dropChild]
      · cases p.nodes.get? k <;> simp [hk, hkc, hkp, relinked]

theorem insertBetween_cases (parent child new : NodeId) (hp : p.Linked) : FailsOr (fun r => ∃ n o, p.nodes.get? parent = some n ∧
    child ∈ n.children ∧ p.Orphan new o ∧ r = (do refresh new; refreshStorage child : Edit Unit)
      (p.spliceAt new parent (.singleton child) o.op o.rel)) p (insertBetween parent child new p) := by
  refine .bind expectUnary_leads fun _ hunary => .bind expectOrphan_leads fun _ horphan =>
    .bind node_leads fun n hfound => .guard fun hc => .bind node_leads fun c hfound' => .guard fun _ =>
    .done ?_
  obtain ⟨o, ho⟩ := orphan_of_checks hunary horphan
  obtain ⟨hn, -⟩ := run_node.mp hfound
  have hne : new ≠ parent := fun h => ho.not_feeds hp (h ▸ (hp.children hn).mp (not_not.mp hc))
  exact ⟨n, o, hn, not_not.mp hc, ho, relink_bind (hp.insertable hn ho hne) (not_not.mp hc)⟩

theorem relinkAll_bind {α : Type} {x : Edit α} {n o : Node} (h : p.Insertable parent new n o) : (do
      modifyNode parent fun n => { n with children := .singleton new }
      n.children.toList.forM fun child => modifyNode child (Node.swapParent parent new)
      modifyNode new fun m =>
        { m with parents := m.parents.insert parent, inputs := .unary parent, children := n.children }
      x : Edit α) p = x (p.spliceAt new parent n.children o.op o.rel) := by
  obtain ⟨hn, ho, hid, hfound, hne, hself, hnew⟩ := h
  have hall : ∀ c ∈ n.children.toList,
      ∃ m, (p.set parent { n with children := .singleton new }).nodes.get? c = some m := by
    intro c hc
    obtain ⟨m, hm, -⟩ := hfound c (IdSet.mem_toList.mp hc)
    rw [get?_set]
    split
    · exact ⟨_, rfl⟩
    · exact ⟨m, hm⟩
  rw [modifyNode_bind hn, forM_modifyNode_bind (.inl (IdSet.nodup_toList _)) hall,
    modifyNode_bind (n := o) (by simp [get?_set, hne, ho.node, hnew])]
  refine congrArg x (ext_get? (fun k => ?_) rfl rfl)
  simp only [get?_spliceAt, get?_set, get?_adjust, IdSet.mem_toList]
  by_cases hk : k = new
  · simp [hk, ho.parents, hid]
  · by_cases hkp : k = parent
    · subst hkp
      simp [hk, hn, relinked, hself, IdSet.insert_diff_self]
    · cases p.nodes.get? k <;> simp [hk, hkp, relinked]

theorem insertAfterAll_cases (hp : p.Linked) (hne : new ≠ parent) : FailsOr (fun r => ∃ n o,
    p.nodes.get? parent = some n ∧ p.Orphan new o ∧
      r = (do refresh new; n.children.toList.forM refreshStorage : Edit Unit)
        (p.spliceAt new parent n.children o.op o.rel)) p (insertAfterAll parent new p) := by
  refine .bind expectUnary_leads fun _ hunary => .bind expectOrphan_leads fun _ horphan =>
    .bind node_leads fun n hfound => .done ?_
  obtain ⟨o, ho⟩ := orphan_of_checks hunary horphan
  obtain ⟨hn, -⟩ := run_node.mp hfound
  exact ⟨n, o, hn, ho, relinkAll_bind (hp.insertable hn ho hne)⟩

section Orphan

variable {n o : Node}

theorem checks_of_orphan {action : String} (ho : p.Orphan new o) :
    expectUnary new action p = .ok () p ∧ expectOrphan new p = .ok () p :=
  ⟨run_expectUnary.mpr ⟨⟨o, ho.node, ho.arity⟩, rfl⟩, run_expectOrphan.mpr ⟨⟨o, ho.node,
    IdSet.isEmpty_iff.mpr ho.parents, IdSet.isEmpty_iff.mpr ho.children, ho.free⟩, rfl⟩⟩

variable (h : p.Insertable parent new n o)

include h

theorem insertBetween_eq (hc : child ∈ n.children) : insertBetween parent child new p =
    (do refresh new; refreshStorage child : Edit Unit) (p.spliceAt new parent (.singleton child) o.op o.rel) := by
  obtain ⟨c, hcn, hin⟩ := h.found child hc
  obtain ⟨hunary, horphan⟩ := checks_of_orphan h.orphan
  unfold insertBetween
  rw [bind_of_ok hunary, bind_of_ok horphan, bind_of_ok (run_node.mpr ⟨h.node, rfl⟩), if_neg (not_not.mpr hc)]
  beta_reduce
  rw [bind_of_ok (run_node.mpr ⟨hcn, rfl⟩), if_neg (not_not.mpr hin)]
  exact relink_bind h hc

theorem insertAfterAll_eq : insertAfterAll parent new p =
    (do refresh new; n.children.toList.forM refreshStorage : Edit Unit)
      (p.spliceAt new parent n.children o.op o.rel) := by
  obtain ⟨hunary, horphan⟩ := checks_of_orphan h.orphan
  unfold insertAfterAll
  rw [bind_of_ok hunary, bind_of_ok horphan, bind_of_ok (run_node.mpr ⟨h.node, rfl⟩)]
  exact relinkAll_bind h

end Orphan

theorem eq_of_orphan_joined {o : Node} (h : (p.joined op rel .none).Orphan p.nextId o) :
    o.op = op ∧ o.rel = rel := by
  have ho := h.node
  rw [get?_joined_none, if_pos rfl] at ho
  cases ho
  exact ⟨rfl, rfl⟩

theorem spliceAt_joined {cs : NodeSet} :
    (p.joined op rel .none).spliceAt p.nextId parent cs op rel = p.splice parent cs op rel := by
  refine ext_get? (fun k => ?_) rfl rfl
  rw [get?_splice, get?_spliceAt, get?_joined_none]
  split <;> rfl

theorem set_splice {cs : NodeSet} {rel' : Relation} : (p.splice parent cs op rel).set p.nextId
    { id := p.nextId, op, rel := rel', inputs := .unary parent, parents := .singleton parent, children := cs } =
      p.splice parent cs op rel' := by
  refine ext_get? (fun k => ?_) rfl rfl
  rw [get?_set, get?_splice, get?_splice]
  split <;> rfl

/-- What has been spliced in yields what its operator makes of its parent. -/
theorem exists_of_refresh_splice {n : Node} {cs : NodeSet} (hn : p.nodes.get? parent = some n) (hne : parent ≠ p.nextId)
    (hop : op.isBoundary = true) (run : refresh p.nextId (p.splice parent cs op rel) = .ok u q) :
    ∃ rel', q = p.splice parent cs op rel' ∧ op.Emits n.rel rel' := by
  obtain ⟨ins, _, asked, run⟩ := run_bind.mp run
  obtain ⟨hrels, rfl⟩ := run_ask.mp asked
  obtain ⟨m, m', hm, hchange, rfl⟩ := run_onNode.mp run
  rw [get?_splice, if_pos rfl, Option.some.injEq] at hm
  subst hm
  have hfill : op.fill ins = op := by cases op <;> first | rfl | cases hop
  have hparent : (p.splice parent cs op rel).nodes.get? parent = some (relinked parent p.nextId cs parent n) := by
    rw [get?_splice, if_neg hne, hn, Option.map_some]
  obtain ⟨m, hm, hins⟩ := inputRelations_eq_ok.mp hrels
  rw [get?_splice, if_pos rfl, Option.some.injEq] at hm
  subst hm
  obtain rfl : ins = [n.rel] := by
    obtain _ | ⟨⟨m, hm, rfl⟩, hnil⟩ := hins
    cases hnil
    cases hparent.symm.trans hm
    rw [relinked_rel]
  obtain ⟨-, st?, cols?, hst, hcols, rfl⟩ := Node.run_refresh.mp hchange
  dsimp only at hst hcols hfill
  rw [hfill] at hst hcols ⊢
  have hcreate : op ≠ .create := by
    rintro rfl
    cases hop
  cases st? with
  | none => exact absurd (Op.eq_create_of_outputStorage? hst) hcreate
  | some st =>
    cases cols? with
    | none => exact absurd (Op.eq_create_of_outputColumns? hcols) hcreate
    | some cols => exact ⟨_, set_splice, hst, cols, hcols, rfl⟩

section Splicing

variable (hp : p.Linked) (add : addOrphan op rel p = .ok new r)

include hp add

/-- An orphan that is spliced into one edge. -/
theorem run_insertBetween (run : insertBetween parent child new r = .ok u q) :
    p.nextId + 1 < Word.limit ∧ op.arity = .unary ∧
      (∃ n, p.nodes.get? parent = some n ∧ child ∈ n.children) ∧
      (do refresh p.nextId; refreshStorage child : Edit Unit)
        (p.splice parent (.singleton child) op rel) = .ok u q := by
  obtain ⟨hroom, rfl, rfl⟩ := run_addOrphan.mp add
  have hjoined : (p.joined op rel .none).Linked := hp.joined (by simp [Inputs.ids]) hroom
  have h := insertBetween_cases parent child p.nextId hjoined
  rw [run] at h
  obtain ⟨n, o, hn, hc, ho, heq⟩ := h.of_ok
  obtain ⟨rfl, rfl⟩ := eq_of_orphan_joined ho
  have hparent : parent ≠ p.nextId := by
    rintro rfl
    cases ho.node.symm.trans hn
    exact IdSet.not_mem_empty _ (ho.children ▸ hc)
  rw [spliceAt_joined] at heq
  rw [get?_joined_none, if_neg hparent] at hn
  exact ⟨hroom, ho.arity, ⟨n, hn, hc⟩, heq.symm⟩

/-- An orphan that is spliced in front of all children. -/
theorem run_insertAfterAll {n : Node} (hn : p.nodes.get? parent = some n)
    (run : insertAfterAll parent new r = .ok u q) :
    p.nextId + 1 < Word.limit ∧ op.arity = .unary ∧
      (do refresh p.nextId; n.children.toList.forM refreshStorage : Edit Unit)
        (p.splice parent n.children op rel) = .ok u q := by
  obtain ⟨hroom, rfl, rfl⟩ := run_addOrphan.mp add
  have hparent : parent ≠ p.nextId := hp.ne_nextId hn
  have hjoined : (p.joined op rel .none).Linked := hp.joined (by simp [Inputs.ids]) hroom
  have h := insertAfterAll_cases hjoined hparent.symm
  rw [run] at h
  obtain ⟨n', o, hn', ho, heq⟩ := h.of_ok
  obtain ⟨rfl, rfl⟩ := eq_of_orphan_joined ho
  rw [get?_joined_none, if_neg hparent] at hn'
  cases hn.symm.trans hn'
  rw [spliceAt_joined] at heq
  exact ⟨hroom, ho.arity, heq.symm⟩

variable (hnumbered : rel.Numbered) (hsized : ∀ ds, op = .distinct ds → rel.columns.length = ds.length)

include hnumbered hsized

theorem spliced_of_insertBetween (run : insertBetween parent child new r = .ok u q) :
    p.Spliced parent (.singleton child) op rel q := by
  obtain ⟨hroom, hop, ⟨n, hn, hc⟩, run⟩ := run_insertBetween hp add run
  obtain ⟨_, r₁, hrefresh, hstorage⟩ := run_bind.mp run
  have h : Renewed ({p.nextId} ∪ {c | c ∈ IdSet.singleton child}) _ q :=
    ((Renews.refresh hrefresh).mono (by simp)).trans ((Renews.refreshStorage hstorage).mono (by simp))
  have hstart (hs : p.Sound) : (p.splice parent (.singleton child) op rel).Sound := hs.splice hnumbered hsized
  exact ⟨hroom, hop, ⟨n, hn, by simpa using hc⟩, h.outline, fun hs => h.touched (hstart hs),
    fun hs => h.sound (hstart hs)⟩

theorem spliced_of_insertAfterAll {n : Node} (hn : p.nodes.get? parent = some n)
    (run : insertAfterAll parent new r = .ok u q) : p.Spliced parent n.children op rel q := by
  obtain ⟨hroom, hop, run⟩ := run_insertAfterAll hp add hn run
  obtain ⟨_, r₁, hrefresh, hstorage⟩ := run_bind.mp run
  have hloop : Renews {c | c ∈ n.children} (n.children.toList.forM refreshStorage) :=
    .forM fun c hc => Renews.refreshStorage.mono (by simpa using hc)
  have h : Renewed ({p.nextId} ∪ {c | c ∈ n.children}) _ q :=
    ((Renews.refresh hrefresh).mono (by simp)).trans ((hloop hstorage).mono (by simp))
  have hstart (hs : p.Sound) : (p.splice parent n.children op rel).Sound := hs.splice hnumbered hsized
  exact ⟨hroom, hop, ⟨n, hn, fun _ h => h⟩, h.outline, fun hs => h.touched (hstart hs),
    fun hs => h.sound (hstart hs)⟩

end Splicing

-- ---------------------------------------------------------------------------
-- Copying and replacing
-- ---------------------------------------------------------------------------

/-- A copy of the node `n` for one child. What `n` holds may be older than the plan,
but for its children. -/
theorem forkFor_eq {n : Node} {cs : NodeSet} {position : Nat} (hp : p.Linked)
    (hn : p.nodes.get? id = some { n with children := cs }) (hc : child ∈ cs)
    (room : p.nextId + 1 < Word.limit) :
    forkFor id n position child p = (do refreshStorage child; return p.nextId : Edit NodeId)
      (p.forked id child { n with children := cs } (n.rel.rename s!"{n.rel.name}_{position}")) := by
  have hid : id ≠ p.nextId := hp.ne_nextId hn
  have hfeeds : p.Feeds id child := (hp.children hn).mp hc
  have hchild : child ≠ p.nextId := fun h => hp.not_feeds_nextId (h ▸ hfeeds)
  have hne : child ≠ id := fun h => hp.not_feeds_self (h ▸ hfeeds)
  have hnew_parent : p.nextId ∉ n.parents := fun h =>
    hp.not_nextId_feeds (hp.feeds_of_mem_parents hn h)
  have hid_parent : id ∉ n.parents := fun h =>
    hp.not_feeds_self (hp.feeds_of_mem_parents hn h)
  have hchild_parent : child ∉ n.parents := fun h =>
    hp.not_feeds_back hfeeds (hp.feeds_of_mem_parents hn h)
  obtain ⟨c, hcn, -⟩ := hfeeds
  unfold forkFor
  rw [bind_of_ok (addOrphan_eq room), modifyNode_bind (by rw [get?_joined_none, if_pos rfl]),
    forM_modifyNode_bind (.inl (IdSet.nodup_toList _)) fun u hu => ?_, addRoot_guard]
  · beta_reduce
    rw [modifyNode_bind (n := { n with children := cs }) (by simp [get?_set, get?_joined_none, hid, hn, hid_parent]),
      modifyNode_bind (n := c) (by simp [get?_set, get?_joined_none, hchild, hne, hcn, hchild_parent])]
    refine congrArg (refreshStorage child >>= fun _ => (pure p.nextId : Edit NodeId))
      (ext_get? (fun k => ?_) rfl rfl)
    simp only [forked, get?_set, get?_adjust, get?_joined_none, IdSet.mem_toList, IdMap.get?_insert,
      IdMap.get?_map]
    by_cases hk : k = p.nextId
    · simp [hk, hchild.symm, hid.symm, hnew_parent]
    · by_cases hkc : k = child
      · subst hkc
        simp [hk, hcn, forkedNode, hne, hchild_parent]
      · by_cases hki : k = id
        · subst hki
          simp [hk, hkc, hn, forkedNode, hid_parent]
        · cases p.nodes.get? k <;> simp [hk, hkc, hki, forkedNode]
  · obtain ⟨m, hm⟩ := hp.closed (hp.feeds_of_mem_parents hn (IdSet.mem_toList.mp hu))
    exact ⟨m, by simp [get?_set, get?_joined_none, hp.ne_nextId hm, hm]⟩

theorem forkFor_eq_error {n : Node} {position : Nat} (full : ¬ p.nextId + 1 < Word.limit) :
    forkFor id n position child p = .error .exhausted p := bind_of_error (addOrphan_eq_error full)

/-- A copy that has been made. -/
theorem run_forkFor {n : Node} {cs : NodeSet} {position : Nat} {copy : NodeId} (hp : p.Linked)
    (hn : p.nodes.get? id = some { n with children := cs }) (hc : child ∈ cs)
    (run : forkFor id n position child p = .ok copy q) :
    copy = p.nextId ∧ p.nextId + 1 < Word.limit ∧ refreshStorage child
      (p.forked id child { n with children := cs } (n.rel.rename s!"{n.rel.name}_{position}")) =
        .ok () q := by
  by_cases room : p.nextId + 1 < Word.limit
  · rw [forkFor_eq hp hn hc room] at run
    obtain ⟨_, _, hstorage, hpure⟩ := run_bind.mp run
    obtain ⟨rfl, rfl⟩ := run_pure.mp hpure
    exact ⟨rfl, room, hstorage⟩
  · cases (forkFor_eq_error room).symm.trans run

/-- Deriving one node leaves all others alone. -/
theorem refreshStorage_elsewhere (hne : child ≠ id) :
    Leads (Same fun p : Plan => p.nodes.get? id) (refreshStorage child) :=
  ask_leads.bind fun _ => onNode_leads fun p n _ => by
    rw [Same, get?_set, if_neg hne.symm]

theorem get?_of_refreshStorages {k : NodeId} {l : List NodeId} (hk : k ∉ l)
    (run : l.forM refreshStorage p = .ok u q) : q.nodes.get? k = p.nodes.get? k := by
  have hoff : ∀ c ∈ l, Leads (Same fun p : Plan => p.nodes.get? k) (refreshStorage c) := by
    intro c hc
    exact refreshStorage_elsewhere fun h => hk (h ▸ hc)
  exact (Leads.forM hoff).of_ok run

theorem forked_of_forkFor {n : Node} {cs : NodeSet} {position : Nat} {copy : NodeId}
    (hp : p.Linked) (hn : p.nodes.get? id = some { n with children := cs })
    (hc : child ∈ cs) (run : forkFor id n position child p = .ok copy q) :
    copy = p.nextId ∧
      p.Forked id child { n with children := cs } (n.rel.rename s!"{n.rel.name}_{position}") q := by
  obtain ⟨rfl, hroom, hstorage⟩ := run_forkFor hp hn hc run
  have h := Renews.refreshStorage hstorage
  have hstart (hs : p.Sound) : (p.forked id child { n with children := cs } _).Sound :=
    hs.forked hn (n.rel.numbered_rename s!"{n.rel.name}_{position}") (n.rel.length_rename _)
  have hne : child ≠ id := fun h => hp.not_feeds_self ((hp.children hn).mp (h ▸ hc))
  have hleft := ((refreshStorage_elsewhere hne).of_ok hstorage).trans (hp.get?_forked_self hn hc)
  exact ⟨rfl, hroom, hn, hc, hleft, h.outline, fun hs => h.touched (hstart hs), fun hs => h.sound (hstart hs)⟩

/-- Copies for some of the children: what holds while the children in `cs` have got none
is kept from copy to copy. -/
theorem forkFors_loop {motive : NodeSet → Plan → Prop} {n : Node} {cs : NodeSet} {copies : List NodeId}
    {l : List (NodeId × Nat)} (step : ∀ a ∈ l, ∀ cs copy p q, motive cs p → a.1 ∈ cs →
      forkFor id n a.2 a.1 p = .ok copy q → motive (cs.erase a.1) q)
    (hl : ∀ c ∈ l.map Prod.fst, c ∈ cs) (hnodup : (l.map Prod.fst).Nodup) (h : motive cs p)
    (run : (l.mapM fun (child, position) => forkFor id n position child : Edit (List NodeId)) p =
      .ok copies q) :
    ∃ cs', motive cs' q ∧ ∀ c ∈ cs', c ∈ cs ∧ c ∉ l.map Prod.fst := by
  induction l generalizing p cs copies with
  | nil =>
    obtain ⟨-, rfl⟩ := run_mapM_nil.mp run
    exact ⟨cs, h, by simp⟩
  | cons a l ih =>
    obtain ⟨copy, r, copies, hstep, run, -⟩ := run_mapM_cons.mp run
    rw [List.map_cons, List.nodup_cons] at hnodup
    have hrest : ∀ c ∈ l.map Prod.fst, c ∈ cs.erase a.1 := by
      intro c hc
      refine IdSet.mem_erase.mpr ⟨hl c (by simp [hc]), ?_⟩
      rintro rfl
      exact hnodup.1 hc
    have h' := step a List.mem_cons_self cs copy p r h (hl a.1 (by simp)) hstep
    obtain ⟨cs', h', hcs'⟩ := ih (fun b hb => step b (List.mem_cons_of_mem _ hb)) hrest hnodup.2 h' run
    refine ⟨cs', h', fun c hc => ?_⟩
    have := hcs' c hc
    simp only [IdSet.mem_erase] at this
    simp [this]

theorem replaceOp_eq {n : Node} (hn : p.nodes.get? id = some n) (harity : n.op.arity = op.arity) :
    replaceOp id op p = refresh id (p.set id { n with op }) := by
  unfold replaceOp
  rw [bind_of_ok (run_node.mpr ⟨hn, rfl⟩), if_neg (not_not.mpr harity)]
  exact modifyNode_bind hn

theorem replaceOp_cases (p : Plan) (id : NodeId) (op : Op) : FailsOr (fun r => ∃ n, p.nodes.get? id = some n ∧ n.op.arity = op.arity ∧
    r = refresh id (p.set id { n with op })) p (replaceOp id op p) := by
  refine .bind node_leads fun n hfound => .guard fun harity => .done ?_
  obtain ⟨hn, -⟩ := run_node.mp hfound
  exact ⟨n, hn, not_not.mp harity, modifyNode_bind hn⟩

/-- Another operator at a node. -/
theorem run_replaceOp (run : replaceOp id op p = .ok u q) :
    ∃ n, p.nodes.get? id = some n ∧ n.op.arity = op.arity ∧
      Renewed {id} (p.set id { n with op }) q := by
  have h := replaceOp_cases p id op
  rw [run] at h
  obtain ⟨n, hn, harity, hrefresh⟩ := h.of_ok
  exact ⟨n, hn, harity, Renews.refresh hrefresh.symm⟩

end Edit

end JointPlan
