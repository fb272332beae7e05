import JointPlan.Proofs.Passes
import JointPlan.Proofs.Splitting

/-!
# Passes finish

On a well-typed plan that ends in a delivery every pass finishes, as long as numbers do not
run out. It leaves a well-typed plan that makes the same delivery: for the same recipients,
under the same name and of the same schema (`Plan.Carries`).

For a pass that inserts boundary operators this comes down to the edges: an operator is put
into an edge that is still there when its turn comes. For the one that pushes work down it
comes down to the schemas of the nodes it writes, since it binds them by position.
-/

namespace JointPlan

namespace Plan

variable {p q : Plan} {X D : NodeId} {n x t : Node} {ops : List Op} {part : Op} {p₁ p₂ : Plan}

-- ---------------------------------------------------------------------------
-- Moving work above a concatenation
-- ---------------------------------------------------------------------------

/-- The node that operators are appended to. -/
theorem Appended.get?_upper (h : Appended p X ops q) (hp : p.Coherent) (hs : p.Sound)
    (hn : p.nodes.get? X = some n) (hsingle : n.children.size ≤ 1) :
    ∃ m, q.nodes.get? X = some m ∧ m.inputs = n.inputs ∧ m.children.size ≤ 1 := by
  cases h with
  | nil => exact ⟨n, hn, rfl, hsingle⟩
  | @cons _ q _ _ n' op ops rel hn' first rest =>
    cases hn.symm.trans hn'
    have hX : X ∉ n.children := fun h => hp.not_feeds_self ((hp.children hn).mp h)
    obtain ⟨m, hm, hskeleton⟩ := first.get?_old hp hs hn
    have hchildren : m.children = .singleton p.nextId := by
      rw [Node.children_eq_of_skeleton_eq hskeleton, relinked_children, if_pos rfl, IdSet.insert_diff_self]
    have hinputs : m.inputs = n.inputs := by
      rw [Node.inputs_eq_of_skeleton_eq hskeleton, relinked_inputs, if_neg hX]
    have hlt : ¬ q.nextId ≤ X := Nat.not_le.mpr ((first.coherent hp).below hm)
    have hne : X ≠ p.nextId := hp.ne_nextId hn
    have hnot : ¬ q.Feeds p.nextId X := fun hfeeds => by
      rw [feeds_iff_of_skeleton_eq (first.touched hs).skeleton, feeds_splice, if_neg hne, if_neg hX] at hfeeds
      exact hp.not_nextId_feeds hfeeds
    have hsame := (rest.framed (first.coherent hp) (first.sound hs)).get? (k := X) (by simp [hlt, hnot])
      (by simp [hlt, hne])
    exact ⟨m, hsame.trans hm, hinputs, hchildren ▸ Nat.le_refl _⟩

/-- The node whose work has been parted still reads what it read. -/
theorem Parted.get?_lower (h : p.Parted X x part ops p₁ p₂) (hp : p.Coherent) (hs : p.Sound)
    (hsingle : x.children.size ≤ 1) :
    ∃ b, p₂.nodes.get? X = some b ∧ b.inputs = x.inputs ∧ b.children.size ≤ 1 := by
  obtain ⟨x₁, hx₁, hskeleton⟩ := get?_of_skeleton_eq (h.touched hs).skeleton.symm
    (k := X) (by rw [get?_set, if_pos rfl])
  have hchildren := Node.children_eq_of_skeleton_eq hskeleton
  obtain ⟨b, hb, hinputs, hsize⟩ := h.appended.get?_upper (h.toExchanged.coherent hp) (h.sound hs) hx₁
    (hchildren ▸ hsingle)
  exact ⟨b, hb, hinputs.trans (Node.inputs_eq_of_skeleton_eq hskeleton).symm, hsize⟩

end Plan

namespace PushDown

open Plan Edit

variable {p q : Plan} {X D : NodeId} {n x t : Node} {rest : List NodeId}

theorem exists_boundaryConcat? (hp : p.Coherent) (hx : p.nodes.get? X = some x) :
    ∃ concat?, boundaryConcat? X p = .ok concat? p := by
  simp only [boundaryConcat?, bind_of_ok (run_node.mpr ⟨hx, rfl⟩)]
  cases hin : x.inputs
  case unary parent =>
    obtain ⟨t, ht⟩ := hp.closed (u := parent) ⟨x, hx, by simp [hin]⟩
    obtain ⟨flag, hflag⟩ := hp.toLinked.exists_isUpperBoundary ht
    simp only
    split
    · exact ⟨_, rfl⟩
    rw [bind_of_ok (run_node.mpr ⟨ht, rfl⟩)]
    split
    · exact ⟨_, rfl⟩
    rw [bind_of_ok (run_ask.mpr ⟨hflag, rfl⟩)]
    exact ⟨_, rfl⟩
  all_goals exact ⟨_, rfl⟩

theorem wp_move {part : Op} {ops : List Op} {p₁ p₂ : Plan} (hp : p.Sweeping (X :: rest))
    (entry : p.Entry D X t x) (parted : p.Parted X x part ops p₁ p₂) (hsingle : x.children.size = 1)
    (ht : p₂.WellTyped) : wp (discard (pushDown D X)) (fun _ q => q.WellTyped ∧
      ∀ k < p.nextId, k ≠ D → k ≠ X → q.schemaAt k = p₂.schemaAt k) p₂ := by
  obtain ⟨b, hb, hinputs, hsize⟩ := parted.get?_lower hp.coherent hp.sound hsingle.le
  exact .discard ((wp_pushDown_typed (parted.coherent₂ hp.coherent) (parted.sound₂ hp.sound) ht
    (parted.get?_entry entry hp.coherent hp.sound) hb entry.concat (hinputs.trans entry.fed) hsize
    (entry.only hp)).mono fun _ q _ h => ⟨h.1, fun k hk => h.2 k (hk.trans_le parted.nextId_le)⟩)

/-- The plan is still well-typed, and the nodes that had no readers yield what they did. -/
structure Retyped (p q : Plan) : Prop where
  typed : q.WellTyped
  leaves : ∀ k n, p.nodes.get? k = some n → n.children = ∅ → q.schemaAt k = p.schemaAt k

theorem Retyped.refl (ht : p.WellTyped) : Retyped p p := ⟨ht, fun _ _ _ _ => rfl⟩

theorem retyped_of_move (hp : p.Coherent) (entry : p.Entry D X t x) (hsingle : x.children.size = 1)
    (hq : q.WellTyped) (hold : ∀ k < p.nextId, k ≠ D → k ≠ X → q.schemaAt k = p.schemaAt k) :
    Retyped p q := by
  refine ⟨hq, fun k n hn hleaf => hold k (hp.below hn) ?_ ?_⟩
  · rintro rfl
    exact IdSet.not_mem_empty _ (hleaf ▸ (hp.children hn).mpr entry.feeds)
  · rintro rfl
    cases entry.lower.symm.trans hn
    rw [hleaf] at hsingle
    cases hsingle

/-- Something is done where a node with one reader reads a concatenation that enters MPC. -/
theorem wp_atEntry (act : NodeId → Node → Edit Unit) (hp : p.Coherent) (ht : p.WellTyped)
    (hx : p.nodes.get? X = some x) (h : ∀ D t, p.Entry D X t x → x.children.size = 1 →
      wp (act D x) (fun _ q => Retyped p q) p) :
    wp (do
      match ← boundaryConcat? X with
      | none => return
      | some D => let x ← node X; if x.children.size = 1 then act D x) (fun _ q => Retyped p q) p := by
  obtain ⟨concat?, hfind⟩ := exists_boundaryConcat? hp hx
  refine .step hfind ?_
  cases concat? with
  | none => exact .pure (.refl ht)
  | some D =>
    obtain ⟨t, x', entry⟩ := (run_boundaryConcat? hfind).2 D rfl
    cases hx.symm.trans entry.lower
    refine .step (run_node.mpr ⟨hx, rfl⟩) ?_
    split
    case isTrue hsingle => exact h D t entry hsingle
    case isFalse => exact .pure (.refl ht)

section Visit

variable (hp : p.Sweeping (X :: rest)) (ht : p.WellTyped) (hx : p.nodes.get? X = some x)

include hp ht hx

theorem wp_swap (hop : x.op.isRowWise = true) : wp (swap X) (fun _ q => Retyped p q) p :=
  wp_atEntry (fun D _ => discard (pushDown D X)) hp.coherent ht hx fun _ _ entry hsingle =>
    (wp_move hp entry (parted_of_rowWise hp.coherent entry hop) hsingle ht).mono fun _ _ _ h =>
      retyped_of_move hp.coherent entry hsingle h.1 h.2

theorem wp_split : wp (split X) (fun _ q => Retyped p q) p := by
  refine wp_atEntry (fun D x => do if ← splitOp X x then discard (pushDown D X)) hp.coherent ht hx
    fun D t entry hsingle => ?_
  refine .bind ?_
  refine (wp_splitOp hp.coherent hp.sound ht hx).mono fun done q run ⟨hq, hold⟩ => ?_
  cases done with
  | false =>
    cases eq_of_splitOp run
    exact .pure (.refl ht)
  | true =>
    obtain ⟨part, ops, p₁, parted⟩ := parted_of_splitOp hp.coherent hx run
    refine (wp_move hp entry parted hsingle hq).mono fun _ r _ h => ?_
    exact retyped_of_move hp.coherent entry hsingle h.1 fun k hk hD hX => (h.2 k hk hD hX).trans (hold k hk hX)

/-- Every reader but the first gets a copy. -/
theorem wp_fork (hop : x.op = .concat) : wp (fork X) (fun _ q => Retyped p q) p := by
  refine .step (run_node.mpr ⟨hx, rfl⟩) ?_
  split
  case isFalse => exact .pure (.refl ht)
  obtain ⟨enters, henters⟩ := hp.coherent.toLinked.exists_isUpperBoundary hx
  refine .step (run_ask.mpr ⟨henters, rfl⟩) ?_
  split
  case isFalse => exact .pure (.refl ht)
  obtain ⟨children, hsorted⟩ := hp.coherent.toLinked.exists_sortedChildren hx
  have hperm := sortedChildren_perm hp.coherent.toLinked hx hsorted
  have hnodup : ((children.zipIdx.drop 1).map Prod.fst).Nodup := by
    rw [List.map_drop, List.zipIdx_map_fst]
    exact (hperm.nodup_iff.mpr (IdSet.nodup_toList _)).sublist (List.drop_sublist _ _)
  have hmem : ∀ c ∈ (children.zipIdx.drop 1).map Prod.fst, c ∈ x.children := by
    rw [List.map_drop, List.zipIdx_map_fst]
    exact fun c hc => IdSet.mem_toList.mp (hperm.mem_iff.mp (List.mem_of_mem_drop hc))
  refine .discard (.step (run_node.mpr ⟨hx, rfl⟩) (.step (run_ask.mpr ⟨hsorted, rfl⟩) ?_))
  refine (wp.mapM (motive := fun l r => Retyped p r ∧ (l.map Prod.fst).Nodup ∧ ∃ cs, Forking p X x cs r ∧
    ∀ c ∈ l.map Prod.fst, c ∈ cs) ?_ ⟨.refl ht, hnodup, x.children, .start hp hx, hmem⟩).mono
      fun _ _ _ h => h.1
  rintro ⟨child, position⟩ l r ⟨hr, hnodup, cs, forking, hcs⟩
  have hc : child ∈ cs := hcs child List.mem_cons_self
  obtain ⟨hhead, hnodup⟩ := List.nodup_cons.mp hnodup
  refine (wp_forkFor_typed forking.coherent forking.sound hr.typed forking.node hc).mono
    fun copy q run ⟨hq, hschema⟩ => ⟨⟨hq, fun k n hn hleaf => ?_⟩, hnodup, cs.erase child,
      forking.step hp.coherent hx (by simp [hop]) hc run, fun c hc' => ?_⟩
  · have hlt : k < r.nextId := (hp.coherent.below hn).trans_le forking.nextId_le
    rw [hschema, Function.update_of_ne hlt.ne, hr.leaves k n hn hleaf]
  · exact IdSet.mem_erase.mpr ⟨hcs c (List.mem_cons_of_mem _ hc'), fun h => hhead (h ▸ hc')⟩

theorem wp_visit : wp (visit X x.op) (fun _ q => Retyped p q) p := by
  cases hop : x.op <;> simp only [visit]
  case project | arithmetic | filterByColumn | filterByScalar =>
    exact wp_swap hp ht hx (by simp [hop, Op.isRowWise])
  case sum | distinct | count | mean | stdDev | numRows => exact wp_split hp ht hx
  case concat => exact wp_fork hp ht hx hop
  all_goals exact .pure (.refl ht)

end Visit

end PushDown

-- ---------------------------------------------------------------------------
-- Names
-- ---------------------------------------------------------------------------

namespace Plan

variable {p q : Plan} {k X : NodeId} {n : Node}

/-- The name of the relation that a node yields. -/
def nameAt (p : Plan) (k : NodeId) : Option String := (p.nodes.get? k).map fun n => n.rel.name

theorem nameAt_of_outline_eq (h : q.outline = p.outline) : q.nameAt k = p.nameAt k := by
  have hget := congrArg (fun p : Plan => (p.nodes.get? k).map fun n => n.rel.name) h
  simpa [get?_outline, Function.comp_def, Node.outline, Relation.blank, nameAt] using hget

theorem Spliced.nameAt {parent : NodeId} {cs : NodeSet} {op : Op} {rel : Relation}
    (h : p.Spliced parent cs op rel q) (hk : k < p.nextId) : q.nameAt k = p.nameAt k := by
  rw [nameAt_of_outline_eq h.outline, Plan.nameAt, get?_splice, if_neg hk.ne, Option.map_map]
  simp [Function.comp_def, Plan.nameAt]

theorem Forked.nameAt {id child : NodeId} {rel : Relation} (h : p.Forked id child n rel q) (hk : k < p.nextId) :
    q.nameAt k = p.nameAt k := by
  rw [nameAt_of_outline_eq h.outline, Plan.nameAt, Plan.forked, IdMap.get?_insert, if_neg hk.ne,
    IdMap.get?_map, Option.map_map]
  simp [Function.comp_def, Plan.nameAt]

theorem Pushed.nameAt {top bottom : NodeId} {t b : Node} (h : p.Pushed top bottom t b q) (hk : k < p.nextId)
    (hbottom : k ≠ bottom) : q.nameAt k = p.nameAt k := by
  rw [nameAt_of_outline_eq h.outline, Plan.nameAt, Plan.pushed, IdMap.get?_tabulate,
    if_pos (hk.trans_le (Nat.le_add_right _ _)), if_neg (Nat.not_le.mpr hk), if_neg hbottom, Option.map_map]
  simp [Function.comp_def, Plan.nameAt]

theorem Exchanged.nameAt {x : Node} {part : Op} (h : p.Exchanged X x part q) : q.nameAt k = p.nameAt k := by
  rw [nameAt_of_outline_eq h.outline, Plan.nameAt, get?_set, Plan.nameAt]
  split
  · rename_i hk
    rw [hk, h.node]
    rfl
  · rfl

theorem Appended.nameAt {ops : List Op} (h : p.Appended X ops q) (hk : k < p.nextId) : q.nameAt k = p.nameAt k := by
  induction h with
  | nil => rfl
  | cons _ first _ ih => exact (ih (first.nextId_eq ▸ Nat.lt_succ_of_lt hk)).trans (first.nameAt hk)

end Plan

/-- The node at which a visit pushes work down may be gone; all others keep their names. -/
theorem PushDown.Visited.nameAt {p q : Plan} {k X : NodeId} {x : Node} (h : Visited p X x q) (hp : p.Coherent)
    (hx : p.nodes.get? X = some x) (hk : k < p.nextId) (hX : k ≠ X ∨ x.children = ∅) :
    q.nameAt k = p.nameAt k := by
  cases h with
  | skipped same _ => rw [same]
  | distributed h =>
    have hX : k ≠ X := hX.resolve_right fun hempty => absurd (hempty ▸ h.single) (by decide)
    rw [h.pushed.nameAt (hk.trans_le h.nextId_le) hX, h.appended.nameAt (h.toExchanged.nextId_eq ▸ hk),
      h.toExchanged.nameAt]
  | copied _ _ run =>
    have h : k < q.nextId ∧ q.nameAt k = p.nameAt k :=
      forkNode_forks (motive := fun r => k < r.nextId ∧ r.nameAt k = p.nameAt k) hp hx ⟨hk, rfl⟩
        (fun _ forked h => ⟨forked.nextId_eq ▸ Nat.lt_succ_of_lt h.1, (forked.nameAt h.1).trans h.2⟩) run
    exact h.2

-- ---------------------------------------------------------------------------
-- Plans that deliver a schema
-- ---------------------------------------------------------------------------

/-- What a plan hands over: to whom, under which name and of which schema. -/
structure Delivery where
  recipients : PartySet
  name : String
  schema : Schema

/-- A well-typed plan that makes the delivery at its end. -/
structure Plan.Carries (p : Plan) (s : NodeId) (d : Delivery) : Prop extends p.Delivers s d.recipients where
  sound : p.Sound
  typed : p.WellTyped
  schema : p.schemaAt s = d.schema
  name : p.nameAt s = some d.name

namespace Plan.Carries

variable {p q : Plan} {s : NodeId} {d : Delivery}

theorem records (hp : p.Carries s d) (h : p.Records p.schemaAt q) : q.Carries s d where
  toDelivers := hp.toDelivers.of_outline_eq (outline_eq_of_skeleton_eq h.skeleton)
  sound := h.sound
  typed := by
    rw [WellTyped, h.schemas]
    exact hp.typed.of_skeleton_eq h.skeleton
  schema := h.schemas ▸ hp.schema
  name := (nameAt_of_outline_eq (outline_eq_of_skeleton_eq h.skeleton)).trans hp.name

theorem below (hp : p.Carries s d) : s < p.nextId := by
  obtain ⟨n, hn, -⟩ := hp.sink
  exact hp.coherent.below hn

theorem inserted {parent : NodeId} {cs : NodeSet} {op : Op} {y : Schema} (hp : p.Carries s d)
    (h : p.Inserted parent cs op q) (ht : q.WellTyped) (hschema : q.schemaAt = Function.update p.schemaAt p.nextId y) :
    q.Carries s d := by
  obtain ⟨rel, spliced⟩ := h.spliced
  obtain ⟨c, hc⟩ := h.readers
  exact ⟨spliced.delivers hp.toDelivers hc, h.sound hp.sound, ht,
    by rw [hschema, Function.update_of_ne hp.below.ne, hp.schema], (spliced.nameAt hp.below).trans hp.name⟩

end Plan.Carries

namespace Pass

open Plan Edit

variable {p q : Plan} {s : NodeId} {d : Delivery} {pass : Pass}

/-- A pass finishes if its visits do. -/
theorem wp_run {motive : List NodeId → Plan → Prop} {Q : Unit → Plan → Prop} (hp : p.Coherent)
    (start : ∀ order, p.topSort = .ok order → motive (pass.direction.arrange order) p)
    (skip : ∀ id rest r, motive (id :: rest) r → r.nodes.get? id = none → motive rest r)
    (visit : ∀ id rest r n, motive (id :: rest) r → r.nodes.get? id = some n →
      wp (pass.visit id n.op) (fun _ q => motive rest q) r)
    (finish : ∀ r, motive [] r → wp pass.finish Q r) : wp pass.run Q p := by
  obtain ⟨order, horder⟩ := hp.toLinked.exists_topSort
  rw [run_eq]
  refine .step (run_ask.mpr ⟨horder, rfl⟩) (.bind ?_)
  refine (wp.forM (motive := motive) (fun id rest r hr => ?_) (start order horder)).mono fun _ r _ hr => finish r hr
  refine .step (a := r) rfl ?_
  cases hn : r.nodes.get? id with
  | none => exact .pure (skip id rest r hr hn)
  | some n => exact visit id rest r n hr hn

theorem wp_pushDown (h : p.Carries s d) : wp pushDown.run (fun _ q => q.Carries s d) p := by
  refine wp_run (motive := fun rest r => r.Sweeping rest ∧ r.Carries s d) h.coherent
    (fun order horder => ⟨.start ⟨h.coherent, h.sound⟩ horder, h⟩)
    (fun id rest r hr hnone => ⟨hr.1.skip fun n hn => by simp [hnone] at hn, hr.2⟩) ?_ ?_
  · rintro X rest r x ⟨hsweep, hr⟩ hx
    refine (PushDown.wp_visit hsweep hr.typed hx).mono fun _ q run hq => ?_
    have hvisited := PushDown.visit_visited hsweep.coherent hx run
    obtain ⟨hsweep', -⟩ := hvisited.steps hsweep hx
    obtain ⟨n, hn, -, hleaf⟩ := hr.sink
    have hX : s ≠ X ∨ x.children = ∅ := by
      by_cases h : s = X
      · subst h
        cases hn.symm.trans hx
        exact .inr hleaf
      · exact .inl h
    exact ⟨hsweep', hvisited.delivers hr.toDelivers hx, hsweep'.sound, hq.typed,
      (hq.leaves s n hn hleaf).trans hr.schema,
      (hvisited.nameAt hsweep.coherent hx hr.below hX).trans hr.name⟩
  · rintro r ⟨-, hr⟩
    obtain ⟨q, hrun, hq⟩ := refreshAll_records hr.coherent hr.sound hr.typed
    exact .of_ok hrun (hr.records hq)

end Pass

namespace PushUp

open Plan Edit

variable {p q : Plan} {id : NodeId} {n : Node}

theorem exists_visit (hp : p.Coherent) (hn : p.nodes.get? id = some n) : ∃ q, visit id p = .ok () q := by
  simp only [visit, bind_of_ok (run_node.mpr ⟨hn, rfl⟩)]
  cases hin : n.inputs
  case unary parent =>
    obtain ⟨m, hm⟩ := hp.closed (u := parent) ⟨n, hn, by simp [hin]⟩
    obtain ⟨reversible, hreversible⟩ := hp.toLinked.exists_isReversible hn
    obtain ⟨lower, hlower⟩ := hp.toLinked.exists_isLowerBoundary hn
    have hroot : p.isRoot parent = .ok m.isRoot := map_eq_ok.mpr ⟨m, node_eq_ok.mpr hm, rfl⟩
    dsimp only
    rw [bind_of_ok (run_ask.mpr ⟨hreversible, rfl⟩)]
    split
    case isFalse => exact ⟨p, rfl⟩
    rw [bind_of_ok (run_ask.mpr ⟨hlower, rfl⟩)]
    split
    case isFalse => exact ⟨p, rfl⟩
    rw [bind_of_ok (run_ask.mpr ⟨hroot, rfl⟩)]
    split
    case isFalse => exact ⟨p, rfl⟩
    rw [modifyNode_bind hn]
    obtain ⟨m', hm'⟩ : ∃ m', (p.set id (loosenColumns n.rel.storage.members n)).nodes.get? parent = some m' := by
      rw [get?_set]
      split
      · exact ⟨_, rfl⟩
      · exact ⟨m, hm⟩
    exact ⟨_, run_modifyNode.mpr ⟨m', hm', rfl⟩⟩
  all_goals exact ⟨p, rfl⟩

theorem schema_loosenColumns {members : PartySet} : (loosenColumns members n).rel.schema = n.rel.schema := by
  simp [loosenColumns, Relation.schema, Function.comp_def]

theorem visit_records (hp : p.Coherent) (hs : p.Sound) (run : visit id p = .ok () q) : p.Records p.schemaAt q := by
  have renewed := renewed_of_visit hp run
  refine ⟨(renewed.touched hs).skeleton, renewed.sound hs, ?_⟩
  rcases run_visit hp run with rfl | ⟨n, parent, m, hn, -, hm, -, -, -, rfl⟩
  · rfl
  · rw [schemaAt_set, schemaAt_set, schema_loosenColumns, schema_loosenColumns, ← schemaAt_of_get? hn,
      ← schemaAt_of_get? hm, Function.update_eq_self, Function.update_eq_self]

end PushUp

namespace Pass

open Plan Edit

variable {p q : Plan} {s : NodeId} {d : Delivery}

theorem wp_pushUp (h : p.Carries s d) : wp pushUp.run (fun _ q => q.Carries s d) p := by
  refine wp_run (motive := fun _ r => r.Carries s d) h.coherent
    (fun _ _ => h) (fun _ _ _ hr _ => hr) ?_
    (fun r hr => .pure hr)
  intro id rest r n hr hn
  change wp (if n.op.arity = .unary then PushUp.visit id else pure ()) _ r
  split
  · obtain ⟨q, run⟩ := PushUp.exists_visit hr.coherent hn
    exact .of_ok run (hr.records (PushUp.visit_records hr.coherent hr.sound run))
  · exact .pure hr

end Pass

-- ---------------------------------------------------------------------------
-- Boundary operators
-- ---------------------------------------------------------------------------

namespace Boundary

open Plan Edit

variable {p q : Plan} {s id source parent child : NodeId} {d : Delivery} {n m : Node}
  {op : Op} {ending : String}

theorem orphanAfter_eq (hsource : p.nodes.get? source = some m) :
    orphanAfter source op ending p = addOrphan op (m.rel.rename s!"{m.rel.name}_{ending}") p :=
  bind_of_ok (run_node.mpr ⟨hsource, rfl⟩)

theorem arity_of_isBoundary (hop : op.isBoundary = true) : op.arity = .unary := by
  cases op <;> first | rfl | cases hop

section Insert

variable (hp : p.Carries s d) (hop : op.isBoundary = true) (position : Nat)
  (hending : ∀ s : String, s!"{s}_{ending}" = marked s (op.marks position)) (hn : p.nodes.get? parent = some n)

include hp hop hending hn

theorem wp_between (hc : child ∈ n.children) :
    wp (orphanAfter parent op ending >>= fun new => insertBetween parent child new)
      (fun _ q => q.Carries s d ∧ p.Inserted parent (.singleton child) op q) p := by
  refine (wp_insertBetween_typed hp.coherent hp.sound hn (orphanAfter_eq hn)
    (arity_of_isBoundary hop) (n.rel.numbered_rename _) ?_ hp.typed
    (Op.derives_of_isBoundary hop) hc).mono fun _ q run hq => ?_
  · rintro ds rfl
    cases hop
  · have inserted := inserted_between hp.coherent hop position hending run
    exact ⟨hp.inserted inserted hq.1 hq.2, inserted⟩

theorem wp_afterAll (hleaf : n.isLeaf = false) :
    wp (orphanAfter parent op ending >>= fun new => insertAfterAll parent new)
      (fun _ q => q.Carries s d ∧ p.Inserted parent n.children op q) p := by
  refine (wp_insertAfterAll_typed hp.coherent hp.sound hn (orphanAfter_eq hn)
    (arity_of_isBoundary hop) (n.rel.numbered_rename _) ?_ (typedBut_self.mpr hp.typed)
    (Op.derives_of_isBoundary hop) le_rfl).mono fun _ q run hq => ?_
  · rintro ds rfl
    cases hop
  · have inserted := inserted_afterAll hp.coherent hop position hending hn hleaf run
    exact ⟨hp.inserted inserted (hq.1.wellTyped (by rw [hq.2, Function.update_self])) hq.2, inserted⟩

end Insert

/-- An edge that the new node has not come into is still there. -/
theorem feeds_of_inserted {u v : NodeId} (hp : p.Coherent) (h : p.Inserted parent (.singleton child) op q)
    (huv : p.Feeds u v) (hne : u ≠ parent ∨ v ≠ child) : q.Feeds u v := by
  rw [h.feeds, if_neg fun h => hp.not_feeds_nextId (h ▸ huv)]
  split
  · rename_i hv
    exact .inr ⟨hne.resolve_right (not_not.mpr (IdSet.mem_singleton.mp hv)), huv⟩
  · exact huv

-- ---------------------------------------------------------------------------
-- Entering and leaving MPC
-- ---------------------------------------------------------------------------

theorem exists_arrivesShared (shared : Storage) (hp : p.Coherent) (hn : p.nodes.get? parent = some n) :
    ∃ arrives, arrivesShared shared parent p = .ok arrives p := by
  obtain ⟨flag, hflag⟩ := hp.toLinked.exists_requiresMpc hn
  rw [arrivesShared_eq, bind_of_ok (run_node.mpr ⟨hn, rfl⟩)]
  split
  · exact ⟨_, rfl⟩
  split
  · exact ⟨flag, run_ask.mpr ⟨hflag, rfl⟩⟩
  · exact ⟨_, rfl⟩

theorem wp_closeInput {shared : Storage} (hp : p.Carries s d) (hfeeds : p.Feeds parent id) :
    wp (closeInput id shared parent) (fun _ q => q.Carries s d ∧
      ∀ u, u ≠ parent → p.Feeds u id → q.Feeds u id) p := by
  obtain ⟨n, hn⟩ := hp.coherent.closed hfeeds
  obtain ⟨arrives, harrives⟩ := exists_arrivesShared shared hp.coherent hn
  refine .step harrives ?_
  split
  · refine (wp_between hp rfl 0 (fun _ => rfl) hn ((hp.coherent.children hn).mpr hfeeds)).mono fun _ q _ hq =>
      ⟨hq.1, fun u hu hfeeds => feeds_of_inserted hp.coherent hq.2 hfeeds (.inl hu)⟩
  · exact .pure ⟨hp, fun _ _ h => h⟩

theorem wp_closeInputs (hp : p.Carries s d) (hn : p.nodes.get? id = some n) (hop : n.op ≠ .create) :
    wp (closeInputs id) (fun _ q => q.Carries s d) p := by
  obtain ⟨r, hrefresh, hr⟩ := refreshStorage_records hp.sound.records hp.coherent hp.typed hn hop
    fun _ _ => le_rfl
  have hr := hp.records hr
  obtain ⟨m, hm, -⟩ := get?_of_skeleton_eq (touched_of_refreshStorage hp.sound hrefresh).1.skeleton.symm hn
  obtain ⟨flag, hflag⟩ := hr.coherent.toLinked.exists_requiresMpc hm
  refine .step hrefresh (.step (run_ask.mpr ⟨hflag, rfl⟩) ?_)
  split
  · refine .step (run_node.mpr ⟨hm, rfl⟩) ?_
    refine (wp.forM (g := closeInput id m.rel.storage.shared) (motive := fun l r => r.Carries s d ∧
      l.Nodup ∧ ∀ u ∈ l, r.Feeds u id) ?_
      ⟨hr, nodup_firsts, fun u hu => ⟨m, hm, mem_firsts.mp hu⟩⟩).mono fun _ _ _ h => h.1
    rintro parent l r ⟨hr, hnodup, hl⟩
    obtain ⟨hhead, hnodup⟩ := List.nodup_cons.mp hnodup
    refine (wp_closeInput hr (hl parent List.mem_cons_self)).mono fun _ q _ hq =>
      ⟨hq.1, hnodup, fun u hu => hq.2 u (fun h => hhead (h ▸ hu)) (hl u (List.mem_cons_of_mem _ hu))⟩
  · exact .pure hr

theorem wp_visitClose (hp : p.Carries s d) (hn : p.nodes.get? id = some n) :
    wp (visitClose id n.op) (fun _ q => q.Carries s d) p := by
  unfold visitClose
  have hcreate (h : n.op.arity ≠ .nullary) : n.op ≠ .create := fun hc => h (Op.arity_eq_nullary.mpr hc)
  cases harity : n.op.arity with
  | nullary => exact .pure hp
  | unary =>
    obtain ⟨r, hrefresh, hr⟩ := refreshStorage_records hp.sound.records hp.coherent hp.typed hn
      (hcreate (by simp [harity])) fun _ _ => le_rfl
    exact .of_ok hrefresh (hp.records hr)
  | binary | nary => exact wp_closeInputs hp hn (hcreate (by simp [harity]))

theorem wp_openOutput (hp : p.Carries s d) (hn : p.nodes.get? id = some n) :
    wp (openOutput id) (fun _ q => q.Carries s d) p := by
  have hleaf : p.isLeaf id = .ok n.isLeaf := map_eq_ok.mpr ⟨n, node_eq_ok.mpr hn, rfl⟩
  obtain ⟨lower, hlower⟩ := hp.coherent.toLinked.exists_isLowerBoundary hn
  refine .step (run_ask.mpr ⟨hleaf, rfl⟩) ?_
  split
  case isFalse => exact .pure hp
  rename_i hinner
  refine .step (run_ask.mpr ⟨hlower, rfl⟩) ?_
  split
  · exact (wp_afterAll hp rfl 0 (fun _ => rfl) hn (by simpa using hinner)).mono fun _ _ _ h => h.1
  · exact .pure hp

-- ---------------------------------------------------------------------------
-- Handoffs
-- ---------------------------------------------------------------------------

theorem wp_insertRead {position : Nat} (hp : p.Carries s d) (hfeeds : p.Feeds parent child) :
    wp (insertRead parent child position) (fun _ q => q.Carries s d ∧
      ∀ u v, u ≠ parent ∨ v ≠ child → p.Feeds u v → q.Feeds u v) p := by
  obtain ⟨n, hn⟩ := hp.coherent.closed hfeeds
  exact (wp_between hp rfl position (fun _ => readEnding_eq rfl) hn ((hp.coherent.children hn).mpr hfeeds)).mono fun _ q _ hq =>
    ⟨hq.1, fun u v hne h => feeds_of_inserted hp.coherent hq.2 h hne⟩

/-- A loop over the children of a node, each of which is still one when its turn comes. -/
theorem wp_forChildren {g : NodeId × Nat → Edit Unit} {motive : Plan → Prop} (hp : p.Coherent)
    (hn : p.nodes.get? parent = some n) (start : motive p)
    (step : ∀ child position r, motive r → r.Feeds parent child → wp (g (child, position)) (fun _ q =>
      motive q ∧ ∀ v, v ≠ child → r.Feeds parent v → q.Feeds parent v) r) :
    wp (do
      let children ← ask fun p => p.sortedChildren parent
      children.zipIdx.forM g) (fun _ q => motive q) p := by
  obtain ⟨children, hsorted⟩ := hp.toLinked.exists_sortedChildren hn
  have hperm := sortedChildren_perm hp.toLinked hn hsorted
  refine .step (run_ask.mpr ⟨hsorted, rfl⟩) ?_
  refine (wp.forM (motive := fun l r => motive r ∧ (l.map Prod.fst).Nodup ∧ ∀ c ∈ l.map Prod.fst, r.Feeds parent c)
    ?_ ⟨start, ?_, ?_⟩).mono fun _ _ _ h => h.1
  · rintro ⟨child, position⟩ l r ⟨hr, hnodup, hl⟩
    obtain ⟨hhead, hnodup⟩ := List.nodup_cons.mp hnodup
    exact (step child position r hr (hl child List.mem_cons_self)).mono fun _ q _ hq =>
      ⟨hq.1, hnodup, fun c hc => hq.2 c (fun h => hhead (h ▸ hc)) (hl c (List.mem_cons_of_mem _ hc))⟩
  · rw [List.zipIdx_map_fst]
    exact hperm.nodup_iff.mpr (IdSet.nodup_toList _)
  · rw [List.zipIdx_map_fst]
    exact fun c hc => (hp.children hn).mp (IdSet.mem_toList.mp (hperm.mem_iff.mp hc))

theorem wp_readChildren (hp : p.Carries s d) (hn : p.nodes.get? parent = some n) :
    wp (readChildren parent) (fun _ q => q.Carries s d ∧
      ∀ u v, u ≠ parent → p.Feeds u v → q.Feeds u v) p := by
  refine wp_forChildren (motive := fun r => r.Carries s d ∧
    ∀ u v, u ≠ parent → p.Feeds u v → r.Feeds u v) hp.coherent hn
    ⟨hp, fun _ _ _ h => h⟩ fun child position r hr hfeeds => ?_
  have ⟨m, hm, _⟩ := hfeeds
  refine .step (run_node.mpr ⟨hm, rfl⟩) ?_
  split
  · exact (wp_insertRead hr.1 hfeeds).mono fun _ q _ hq =>
      ⟨⟨hq.1, fun u v hu h => hq.2 u v (.inl hu) (hr.2 u v hu h)⟩, fun v hv => hq.2 parent v (.inr hv)⟩
  · exact .pure ⟨hr, fun _ _ h => h⟩

theorem wp_readAfterOpening (hp : p.Carries s d) (hn : p.nodes.get? id = some n) :
    wp (readAfterOpening id) (fun _ q => q.Carries s d) p := by
  refine wp_forChildren (motive := fun r => r.Carries s d) hp.coherent hn
    hp fun child position r hr hfeeds => ?_
  have ⟨m, hm, _⟩ := hfeeds
  have hne : id ≠ child := by
    rintro rfl
    exact hr.coherent.not_feeds_self hfeeds
  have hread : wp (insertRead id child position) (fun _ q => q.Carries s d ∧
      ∀ v, v ≠ child → r.Feeds id v → q.Feeds id v) r :=
    (wp_insertRead hr hfeeds).mono fun _ q _ hq => ⟨hq.1, fun v hv => hq.2 id v (.inr hv)⟩
  refine .step (run_node.mpr ⟨hm, rfl⟩) ?_
  split
  · exact .pure ⟨hr, fun _ _ h => h⟩
  · exact (wp_readChildren hr hm).mono fun _ q _ hq => ⟨hq.1, fun v _ => hq.2 id v hne⟩
  · exact hread

theorem exists_feedsOneStore (hp : p.Coherent) (hn : p.nodes.get? id = some n) :
    ∃ one, feedsOneStore id p = .ok one p := by
  obtain ⟨children, hsorted⟩ := hp.toLinked.exists_sortedChildren hn
  have hperm := sortedChildren_perm hp.toLinked hn hsorted
  simp only [feedsOneStore, bind_of_ok (run_node.mpr ⟨hn, rfl⟩)]
  split
  · exact ⟨_, rfl⟩
  rw [bind_of_ok (run_ask.mpr ⟨hsorted, rfl⟩)]
  rcases children with _ | ⟨only, _ | ⟨second, rest⟩⟩
  · exact ⟨_, rfl⟩
  · obtain ⟨m, hm⟩ := hp.toLinked.exists_child hn only (IdSet.mem_toList.mp (hperm.mem_iff.mp (by simp)))
    dsimp only
    rw [bind_of_ok (run_node.mpr ⟨hm, rfl⟩)]
    exact ⟨_, rfl⟩
  · exact ⟨_, rfl⟩

theorem wp_storeAfterOpening (hp : p.Carries s d) (hn : p.nodes.get? id = some n) :
    wp (storeAfterOpening id) (fun _ q => q.Carries s d) p := by
  refine .step (run_node.mpr ⟨hn, rfl⟩) ?_
  split
  case isFalse => exact .pure hp
  rename_i hleaf
  obtain ⟨one, hone⟩ := exists_feedsOneStore hp.coherent hn
  refine .step hone ?_
  split
  · exact (wp_afterAll hp rfl 0 (fun _ => rfl) hn (by simpa using hleaf)).mono fun _ _ _ h => h.1
  · exact .pure hp

theorem wp_storeBeforeClosing (hp : p.Carries s d) (hn : p.nodes.get? id = some n)
    (harity : n.op.arity = .unary) : wp (storeBeforeClosing id) (fun _ q => q.Carries s d) p := by
  obtain ⟨parent, hin⟩ := hp.coherent.inputs_of_arity hn harity
  have hfeeds : p.Feeds parent id := ⟨n, hn, by simp [hin]⟩
  obtain ⟨m, hm⟩ := hp.coherent.closed hfeeds
  refine .step (run_node.mpr ⟨hn, rfl⟩) ?_
  rw [hin]
  refine .step (run_node.mpr ⟨hm, rfl⟩) ?_
  split
  · exact (wp_between hp rfl 0 (fun _ => rfl) hm ((hp.coherent.children hm).mpr hfeeds)).mono fun _ _ _ h => h.1
  · exact .pure hp

end Boundary

namespace Pass

open Plan Edit Boundary

variable {p q : Plan} {s : NodeId} {d : Delivery} {pass : Pass}

/-- A boundary pass finishes if its visits do. -/
theorem wp_boundary (hvisit : ∀ id n r, r.Carries s d → r.nodes.get? id = some n →
      wp (pass.visit id n.op) (fun _ q => q.Carries s d) r)
    (hend : ∀ r, r.Carries s d → wp pass.finish (fun _ q => q.Carries s d) r)
    (hp : p.Carries s d) : wp pass.run (fun _ q => q.Carries s d) p :=
  wp_run (motive := fun _ r => r.Carries s d) hp.coherent
    (fun _ _ => hp) (fun _ _ _ hr _ => hr) (fun id _ r n hr hn => hvisit id n r hr hn) hend

theorem wp_insertClose (hp : p.Carries s d) :
    wp insertClose.run (fun _ q => q.Carries s d) p := by
  refine wp_boundary (fun id n r hr hn => wp_visitClose hr hn) (fun r hr => ?_) hp
  obtain ⟨q, run, hq⟩ := propagateStorage_records hr.coherent hr.sound hr.typed
  exact .of_ok run (hr.records hq)

theorem wp_insertOpen (hp : p.Carries s d) :
    wp insertOpen.run (fun _ q => q.Carries s d) p := by
  refine wp_boundary (fun id n r hr hn => ?_)
    (fun r hr => .pure hr) hp
  change wp (if n.op.isBoundary then pure () else openOutput id) _ r
  split
  · exact .pure hr
  · exact wp_openOutput hr hn

theorem wp_insertRead (hp : p.Carries s d) :
    wp Pass.insertRead.run (fun _ q => q.Carries s d) p := by
  refine wp_boundary (fun id n r hr hn => ?_)
    (fun r hr => .pure hr) hp
  simp only [insertRead]
  split
  · exact wp_readAfterOpening hr hn
  · exact .pure hr

theorem wp_insertStore (hp : p.Carries s d) :
    wp insertStore.run (fun _ q => q.Carries s d) p := by
  refine wp_boundary (fun id n r hr hn => ?_)
    (fun r hr => .pure hr) hp
  simp only [insertStore]
  split
  · exact wp_storeAfterOpening hr hn
  · rename_i storage hop
    exact wp_storeBeforeClosing hr hn (by rw [hop]; rfl)
  · exact .pure hr

end Pass

end JointPlan
