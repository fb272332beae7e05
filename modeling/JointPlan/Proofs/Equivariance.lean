import JointPlan.Proofs.Permuting

/-!
# Edits under other numbers

An edit that is given other numbers does the same to a plan that has those numbers. `Edit.Equivariant` relates
an edit to the one that is given the other numbers; a program in `Edit` is equivariant because its steps are.

Sets of nodes are gone through by number, so a loop over a set goes through it in another order. Most loops change
each node on its own. The loop that derives the storage of nodes anew does not: if one of the nodes feeds
another, it has to come first in both orders, or last in both.
-/

namespace JointPlan

-- ---------------------------------------------------------------------------
-- Loops in another order
-- ---------------------------------------------------------------------------

section Loops

variable {ε τ ι : Type} {f : ι → EStateM ε τ PUnit} {G : τ → Prop} {s r t : τ} {i : ι} {l l' : List ι} {u : Unit}

/-- Two steps of a loop may change places. -/
def Trades (G : τ → Prop) (f : ι → EStateM ε τ PUnit) (i j : ι) : Prop :=
  ∀ ⦃s r t⦄, G s → f i s = .ok () r → f j r = .ok () t → ∃ r', f j s = .ok () r' ∧ f i r' = .ok () t

theorem forM_trade (keep : ∀ j s t, G s → f j s = .ok () t → G t) (trades : ∀ j ∈ l, Trades G f i j)
    (hs : G s) (hi : f i s = .ok () r) (run : l.forM f r = .ok u t) :
    ∃ r', l.forM f s = .ok () r' ∧ f i r' = .ok () t := by
  induction l generalizing s r with
  | nil =>
    obtain rfl := run_forM_nil.mp run
    exact ⟨s, rfl, hi⟩
  | cons j l ih =>
    obtain ⟨r₁, hj, hl⟩ := run_forM_cons.mp run
    obtain ⟨s₁, hj', hi'⟩ := trades j List.mem_cons_self hs hi hj
    obtain ⟨r', hl', hi''⟩ := ih (fun k hk => trades k (List.mem_cons_of_mem _ hk)) (keep j s s₁ hs hj') hi' hl
    exact ⟨r', run_forM_cons.mpr ⟨s₁, hj', hl'⟩, hi''⟩

/-- A loop may go through its elements in another order if those that come in another order may change places. -/
theorem forM_perm {R S : ι → ι → Prop} (keep : ∀ j s t, G s → f j s = .ok () t → G t)
    (trades : ∀ i j, R i j → S j i → Trades G f i j) (hperm : l.Perm l') (hl : l.Pairwise R) (hl' : l'.Pairwise S)
    (hs : G s) (run : l.forM f s = .ok u t) : l'.forM f s = .ok u t := by
  induction l generalizing l' s with
  | nil =>
    rw [hperm.nil_eq] at run
    exact run
  | cons i l ih =>
    obtain ⟨r, hi, run⟩ := run_forM_cons.mp run
    obtain ⟨l₁, l₂, rfl⟩ := List.append_of_mem (hperm.mem_iff.mp List.mem_cons_self)
    obtain ⟨hR, hl⟩ := List.pairwise_cons.mp hl
    have hrest : l.Perm (l₁ ++ l₂) := (List.perm_cons i).mp (hperm.trans List.perm_middle)
    have hsub : (l₁ ++ l₂).Sublist (l₁ ++ i :: l₂) := (List.Sublist.refl l₁).append (List.sublist_cons_self i l₂)
    obtain ⟨r₁, hrun₁, hrun₂⟩ := run_forM_append.mp (ih hrest hl (hl'.sublist hsub) (keep i s r hs hi) run)
    have htrades : ∀ j ∈ l₁, Trades G f i j := fun j hj =>
      trades i j (hR j (hrest.mem_iff.mpr (List.mem_append_left _ hj)))
        ((List.pairwise_append.mp hl').2.2 j hj i List.mem_cons_self)
    obtain ⟨s₁, hfirst, hi'⟩ := forM_trade keep htrades hs hi hrun₁
    exact run_forM_append.mpr ⟨s₁, hfirst, run_forM_cons.mpr ⟨r₁, hi', hrun₂⟩⟩

end Loops

namespace Inputs

variable {σ : Equiv.Perm NodeId} {inputs : Inputs} {k old new : NodeId} {position : Nat}

theorem map_replace : (inputs.replace old new).map σ = (inputs.map σ).replace (σ old) (σ new) := by
  have hone (k : NodeId) : σ (if k = old then new else k) = if σ k = σ old then σ new else σ k := by
    simp only [EmbeddingLike.apply_eq_iff_eq]
    split <;> rfl
  cases inputs <;> simp [replace, map, hone]

theorem replaceAt?_map : (inputs.map σ).replaceAt? position (σ new) = (inputs.replaceAt? position new).map (map σ) := by
  cases inputs with
  | none => rfl
  | unary input => cases position <;> rfl
  | binary left right => rcases position with _ | _ | _ <;> rfl
  | nary ids =>
    simp only [replaceAt?, map, List.length_map]
    split
    · simp [map, List.map_set]
    · rfl

theorem map_eq_unary : inputs.map σ = .unary (σ k) ↔ inputs = .unary k := by
  cases inputs <;> simp [map]

end Inputs

namespace Plan

variable {p : Plan} {i j : NodeId} {n m : Node}

theorem set_comm (h : i ≠ j) : (p.set i n).set j m = (p.set j m).set i n := by
  refine congrArg (fun nodes => Plan.mk nodes p.roots p.nextId) (IdMap.ext fun k => ?_)
  change ((p.set i n).set j m).nodes.get? k = ((p.set j m).set i n).nodes.get? k
  simp only [get?_set]
  grind

/-- Nodes that do not feed each other are derived independently. -/
theorem trades_derive {change : List Relation → NodeEdit Unit} {good : Plan → Prop} (h : i ≠ j)
    (hij : ∀ p, good p → ¬ p.Feeds i j) (hji : ∀ p, good p → ¬ p.Feeds j i) :
    Trades good (Edit.derive change) i j := by
  intro p r q hp hi hj
  obtain ⟨ins, n, n', hins, hn, hchange, rfl⟩ := Edit.run_derive.mp hi
  obtain ⟨ins', m, m', hins', hm, hchange', rfl⟩ := Edit.run_derive.mp hj
  rw [get?_set, if_neg h.symm] at hm
  have halike {k v : NodeId} {o : Node} (hk : k ≠ v) : Alike p (p.set v o) k := .of_eq ((get?_set k).trans (if_neg hk))
  have hinputs : (p.set i n').inputRelations j = p.inputRelations j :=
    (halike h.symm).inputRelations fun u hu => halike fun hui => hij p hp (hui ▸ hu)
  have hinputs' : (p.set j m').inputRelations i = p.inputRelations i :=
    (halike h).inputRelations fun u hu => halike fun huj => hji p hp (huj ▸ hu)
  refine ⟨p.set j m', Edit.run_derive.mpr ⟨ins', m, m', hinputs ▸ hins', hm, hchange', rfl⟩, ?_⟩
  refine Edit.run_derive.mpr ⟨ins, n, n', hinputs'.trans hins, ?_, hchange, set_comm h⟩
  rw [get?_set, if_neg h, hn]

theorem trades_modifyNode {g : Node → Node} : Trades (fun _ => True) (fun k => Edit.modifyNode k g) i j := by
  intro p r q _ hi hj
  by_cases h : i = j
  · subst h
    exact ⟨r, hi, hj⟩
  obtain ⟨n, hn, rfl⟩ := Edit.run_modifyNode.mp hi
  obtain ⟨m, hm, rfl⟩ := Edit.run_modifyNode.mp hj
  rw [get?_set, if_neg (Ne.symm h)] at hm
  refine ⟨_, Edit.run_modifyNode.mpr ⟨m, hm, rfl⟩, Edit.run_modifyNode.mpr ⟨n, ?_, set_comm h⟩⟩
  rw [get?_set, if_neg h, hn]

/-- The permutation agrees with the edges of the plan on what comes first. -/
def Agrees (σ : Equiv.Perm NodeId) (p : Plan) : Prop := ∀ u v, p.Feeds u v → (u < v ↔ σ u < σ v)

end Plan

namespace Edit

open Plan

/-- Splice the orphan `new` in between `parent` and its children, and return the children. -/
def wireAfterAll (parent new : NodeId) : Edit NodeSet := do
  expectUnary new "insert_after_all"
  expectOrphan new
  let children := (← node parent).children
  modifyNode parent fun n => { n with children := .singleton new }
  children.toList.forM fun child => modifyNode child (Node.swapParent parent new)
  modifyNode new fun n => { n with parents := n.parents.insert parent, inputs := .unary parent, children }
  refresh new
  return children

theorem insertAfterAll_eq_wire {parent new : NodeId} : insertAfterAll parent new = (do
    let children ← wireAfterAll parent new
    children.toList.forM refreshStorage) := by
  simp only [insertAfterAll, wireAfterAll, bind_assoc, pure_bind]

/-- Move the node `bottom`, which is `n`, above `top`. -/
def relocate (top bottom : NodeId) (n : Node) : Edit (List NodeId) := do
  modifyNode top fun t => { t with children := t.children.erase bottom ∪ n.children }
  n.children.toList.forM fun child => modifyNode child (Node.swapParent bottom top)
  modify fun p => { p with nodes := p.nodes.erase bottom }
  let copies ← (← node top).inputs.ids.zipIdx.mapM fun (input, position) => pushCopy top n position input
  refresh top
  n.children.toList.forM refreshStorage
  return copies

theorem pushDown_eq_relocate {top bottom : NodeId} : pushDown top bottom = (do
    checkPushDown top bottom
    let n ← node bottom
    relocate top bottom n) := rfl

variable {α β γ δ ι κ : Type} {a p q : Plan} {σ : Equiv.Perm NodeId} {f : α → β} {g : γ → δ} {x : Edit α} {y : Edit β}
  {k : NodeId}

/-- To a plan that has come from `a`, `x` does what `y` does to the permuted plan. -/
structure Equivariant (a : Plan) (σ : Equiv.Perm NodeId) (f : α → β) (x : Edit α) (y : Edit β) : Prop where
  run : ∀ {p b q}, Descends a p → x p = .ok b q →
    Descends a q ∧ y (p.permute σ) = .ok (f b) (q.permute σ)

namespace Equivariant

-- ---------------------------------------------------------------------------
-- Putting edits together
-- ---------------------------------------------------------------------------

theorem pure {b : α} : Equivariant a σ f (Pure.pure b) (Pure.pure (f b)) where
  run hp run := by
    obtain ⟨rfl, rfl⟩ := run_pure.mp run
    exact ⟨hp, rfl⟩

theorem throw {fault : Fault} : Equivariant a σ f (throw fault) y where
  run _ run := (run_throw.mp run).elim

theorem bind {x' : α → Edit γ} {y' : β → Edit δ} (hx : Equivariant a σ f x y)
    (hx' : ∀ b, Equivariant a σ g (x' b) (y' (f b))) :
    Equivariant a σ g (x >>= x') (y >>= y') where
  run hp run := by
    obtain ⟨b, r, hr, hq⟩ := run_bind.mp run
    obtain ⟨hdr, hyr⟩ := hx.run hp hr
    obtain ⟨hdq, hyq⟩ := (hx' b).run hdr hq
    exact ⟨hdq, (bind_of_ok hyr).trans hyq⟩

theorem ite {c c' : Prop} [Decidable c] [Decidable c'] {x' : Edit α} {y' : Edit β} (hc : c' ↔ c)
    (hx : Equivariant a σ f x y) (hx' : Equivariant a σ f x' y') :
    Equivariant a σ f (if c then x else x') (if c' then y else y') := by
  by_cases h : c
  · rwa [if_pos h, if_pos (hc.mpr h)]
  · rwa [if_neg h, if_neg fun h' => h (hc.mp h')]

/-- A check in front of the rest. -/
theorem guard {c c' : Prop} [Decidable c] [Decidable c'] {fault fault' : Fault} {x : PUnit → Edit α}
    {y : PUnit → Edit β} (hc : c' ↔ c) (hx : Equivariant a σ f (x ()) (y ())) :
    Equivariant a σ f (if c then MonadExcept.throw fault >>= x else x ())
      (if c' then MonadExcept.throw fault' >>= y else y ()) :=
  ite hc ⟨fun _ run => by simp at run⟩ hx

theorem discard (hx : Equivariant a σ f x y) : Equivariant a σ id (discard x) (discard y) where
  run hp run := by
    obtain ⟨b, hrun⟩ := run_discard.mp run
    obtain ⟨hq, hy⟩ := hx.run hp hrun
    exact ⟨hq, run_discard.mpr ⟨_, hy⟩⟩

theorem forM {l : List ι} {h : ι → κ} {x : ι → Edit PUnit} {y : κ → Edit PUnit}
    (hl : ∀ i ∈ l, Equivariant a σ id (x i) (y (h i))) :
    Equivariant a σ id (l.forM x) ((l.map h).forM y) := by
  induction l with
  | nil => exact pure
  | cons i l ih => exact bind (hl i List.mem_cons_self) fun _ => ih fun j hj => hl j (List.mem_cons_of_mem _ hj)

theorem mapM {l : List ι} {h : ι → κ} {x : ι → Edit α} {y : κ → Edit β}
    (hl : ∀ i ∈ l, Equivariant a σ f (x i) (y (h i))) :
    Equivariant a σ (List.map f) (l.mapM x) ((l.map h).mapM y) := by
  induction l with
  | nil =>
    rw [List.map_nil, List.mapM_nil, List.mapM_nil]
    exact pure
  | cons i l ih =>
    rw [List.map_cons, List.mapM_cons, List.mapM_cons]
    exact bind (hl i List.mem_cons_self) fun b => bind (ih fun j hj => hl j (List.mem_cons_of_mem _ hj)) fun bs => pure

/-- Another edit with the same finished runs. -/
theorem congr {y' : Edit β} (hx : Equivariant a σ f x y) (h : ∀ p b q, y p = .ok b q → y' p = .ok b q) :
    Equivariant a σ f x y' where
  run hp run := (hx.run hp run).imp_right fun hy => h _ _ _ hy

-- ---------------------------------------------------------------------------
-- Elementary edits
-- ---------------------------------------------------------------------------

theorem ask {x : Plan → Except Fault α} {y : Plan → Except Fault β}
    (h : ∀ p b, Descends a p → x p = .ok b → y (p.permute σ) = .ok (f b)) : Equivariant a σ f (ask x) (ask y) where
  run hp run := by
    obtain ⟨hb, rfl⟩ := run_ask.mp run
    exact ⟨hp, run_ask.mpr ⟨h _ _ hp hb, rfl⟩⟩

theorem get : Equivariant a σ (Plan.permute σ) get get where
  run hp run := by
    obtain ⟨rfl, rfl⟩ := run_get.mp run
    exact ⟨hp, run_get.mpr ⟨rfl, rfl⟩⟩

theorem node : Equivariant a σ (Node.permute σ) (node k) (node (σ k)) := ask fun _ _ _ => node_permute

theorem onNode {change : NodeEdit α} {change' : NodeEdit β} (h : ∀ {n b m}, change n = .ok b m →
    m.id = n.id ∧ m.rel.name = n.rel.name ∧ change' (n.permute σ) = .ok (f b) (m.permute σ)) :
    Equivariant a σ f (onNode k change) (onNode (σ k) change') where
  run {p b q} hp run := by
    obtain ⟨n, m, hn, hchange, rfl⟩ := run_onNode.mp run
    obtain ⟨hid, hname, hchange'⟩ := h hchange
    refine ⟨⟨?_, ?_, hp.bounded, hp.next, ?_⟩, run_onNode.mpr ⟨_, _, get?_permute_of hn, hchange', permute_set⟩⟩
    all_goals
      intro j o ho
      rw [get?_set] at ho
      split at ho
    · rename_i hj
      cases ho
      rw [hid, hj, hp.keyed hn]
    · exact hp.keyed ho
    · rename_i hj
      exact hj.symm ▸ hp.below hn
    · exact hp.below ho
    · rename_i hj
      cases ho
      rw [hname, hj]
      exact hp.named hn
    · exact hp.named ho

theorem modifyNode {x y : Node → Node} (hid : ∀ n, (x n).id = n.id) (hname : ∀ n, (x n).rel.name = n.rel.name)
    (h : ∀ n, y (n.permute σ) = (x n).permute σ) : Equivariant a σ id (modifyNode k x) (modifyNode (σ k) y) :=
  onNode fun {n b m} run => by
    obtain rfl := run_modify.mp run
    exact ⟨hid n, hname n, run_modify.mpr (h n)⟩

/-- Nothing but the operator and the relation of a node is derived. -/
theorem refresh : Equivariant a σ id (refresh k) (refresh (σ k)) :=
  bind (f := id) (ask fun _ _ _ => inputRelations_permute) fun ins => onNode fun {n b m} run => by
    obtain ⟨hbinds, st?, cols?, hst, hcols, rfl⟩ := Node.run_refresh.mp run
    refine ⟨rfl, ?_, Node.run_refresh.mpr ⟨hbinds, st?, cols?, hst, hcols, rfl⟩⟩
    cases cols? <;> rfl

theorem refreshStorage : Equivariant a σ id (refreshStorage k) (refreshStorage (σ k)) :=
  bind (f := id) (ask fun _ _ _ => inputRelations_permute) fun ins => onNode fun {n b m} run => by
    obtain ⟨hbinds, st?, hst, rfl⟩ := Node.run_refreshStorage.mp run
    exact ⟨rfl, rfl, Node.run_refreshStorage.mpr ⟨hbinds, st?, hst, rfl⟩⟩

/-- Numbers that `a` has not given out stay as they are. -/
theorem addNode {op : Op} {rel : Relation} {inputs : Inputs} {parents : NodeSet} (hσ : a.Renumbers σ) :
    Equivariant a σ σ (addNode op rel inputs parents) (addNode op rel (inputs.map σ) (parents.permute σ)) where
  run {p k q} hp run := by
    obtain ⟨room, rfl, rfl⟩ := run_addNode.mp run
    have hnext : σ p.nextId = p.nextId := hσ.fixed hp.next
    have hnodes {k : NodeId} {n : Node}
        (hn : (p.reserve.set p.nextId ⟨p.nextId, op, rel, inputs, parents, ∅⟩).nodes.get? k = some n) :
        (k = p.nextId ∧ n.id = k) ∨ p.nodes.get? k = some n := by
      rw [get?_set] at hn
      split at hn
      · rename_i hk
        cases hn
        exact .inl ⟨hk, hk.symm⟩
      · exact .inr hn
    refine ⟨⟨fun hn => ?_, fun hn => ?_, room, hp.next.trans (Nat.le_succ _), fun hn hk => ?_⟩, ?_⟩
    · exact (hnodes hn).elim And.right hp.keyed
    · exact (hnodes hn).elim (fun h => h.1.symm ▸ Nat.lt_succ_self _) fun hn => (hp.below hn).trans (Nat.lt_succ_self _)
    · refine (hnodes hn).elim (fun h => absurd hk ?_) fun hn => hp.named hn hk
      exact h.1 ▸ Nat.not_lt.mpr hp.next
    · refine run_addNode.mpr ⟨room, hnext, ?_⟩
      rw [permute_set, hnext]
      simp only [Node.permute, hnext, IdSet.permute_empty]
      rfl

theorem addOrphan {op : Op} {rel : Relation} (hσ : a.Renumbers σ) :
    Equivariant a σ σ (addOrphan op rel) (addOrphan op rel) :=
  addNode hσ

/-- The roots are not looked at. -/
theorem insertRoot : Equivariant a σ id (modify fun p => { p with roots := p.roots.insert k })
    (modify fun p => { p with roots := p.roots.insert (σ k) }) where
  run hp run := by
    obtain rfl := run_modify.mp run
    refine ⟨⟨hp.keyed, hp.below, hp.bounded, hp.next, hp.named⟩, run_modify.mpr ?_⟩
    simp only [permute, IdSet.permute_insert]

theorem eraseNode : Equivariant a σ id (modify fun p => { p with nodes := p.nodes.erase k })
    (modify fun p => { p with nodes := p.nodes.erase (σ k) }) where
  run {p b q} hp run := by
    obtain rfl := run_modify.mp run
    have hnodes {j : NodeId} {n : Node} (hn : (p.nodes.erase k).get? j = some n) : p.nodes.get? j = some n := by
      rw [IdMap.get?_erase] at hn
      split at hn
      · cases hn
      · exact hn
    refine ⟨⟨fun hn => hp.keyed (hnodes hn), fun hn => hp.below (hnodes hn), hp.bounded, hp.next,
      fun hn => hp.named (hnodes hn)⟩, run_modify.mpr ?_⟩
    simp only [permute, IdMap.permute_erase]

/-- Every node of a set is changed on its own. -/
theorem forM_modifyNode {s : NodeSet} {x y : Node → Node}
    (h : ∀ k, Equivariant a σ id (Edit.modifyNode k x) (Edit.modifyNode (σ k) y)) :
    Equivariant a σ id (s.toList.forM fun k => Edit.modifyNode k x)
      ((s.permute σ).toList.forM fun k => Edit.modifyNode k y) :=
  (forM (h := σ) fun k _ => h k).congr fun _ _ _ run =>
    forM_perm (R := fun _ _ => True) (S := fun _ _ => True) (fun _ _ _ _ _ => trivial)
      (fun _ _ _ _ => trades_modifyNode) IdSet.toList_permute_perm.symm
      (List.pairwise_of_forall fun _ _ => trivial) (List.pairwise_of_forall fun _ _ => trivial)
      trivial run

-- ---------------------------------------------------------------------------
-- Surgery
-- ---------------------------------------------------------------------------

section Surgery

variable {parent child new top bottom : NodeId} {n : Node} {position : Nat}

theorem swapParent : Equivariant a σ id (Edit.modifyNode k (Node.swapParent parent new))
    (Edit.modifyNode (σ k) (Node.swapParent (σ parent) (σ new))) :=
  modifyNode (fun _ => rfl) (fun _ => rfl) fun n => by simp [Node.permute, Node.swapParent, Inputs.map_replace]

theorem expectUnary {action : String} : Equivariant a σ id (expectUnary k action) (expectUnary (σ k) action) :=
  bind node fun _ => ite Iff.rfl throw pure

theorem expectOrphan : Equivariant a σ id (expectOrphan k) (expectOrphan (σ k)) :=
  bind node fun n => bind get fun p => ite (by simp [Plan.permute]) throw pure

theorem insertBetween :
    Equivariant a σ id (insertBetween parent child new) (insertBetween (σ parent) (σ child) (σ new)) :=
  bind expectUnary fun _ => bind expectOrphan fun _ => bind node fun n => guard (by simp [Node.permute]) <|
    bind node fun m => guard (by simp [Node.permute]) <|
    bind (modifyNode (fun _ => rfl) (fun _ => rfl) fun n =>
      by simp [Node.permute, Node.dropChild, Node.addChild]) fun _ =>
    bind swapParent fun _ =>
    bind (modifyNode (fun _ => rfl) (fun _ => rfl) fun n => by simp [Node.permute, Inputs.map]) fun _ =>
    bind refresh fun _ => refreshStorage

theorem wireAfterAll :
    Equivariant a σ (IdSet.permute σ) (wireAfterAll parent new) (wireAfterAll (σ parent) (σ new)) :=
  bind expectUnary fun _ => bind expectOrphan fun _ => bind node fun n =>
    bind (modifyNode (fun _ => rfl) (fun _ => rfl) fun n => by simp [Node.permute]) fun _ =>
    bind (forM_modifyNode fun _ => swapParent) fun _ =>
    bind (modifyNode (fun _ => rfl) (fun _ => rfl) fun n => by simp [Node.permute, Inputs.map]) fun _ =>
    bind refresh fun _ => pure

theorem replaceOp {op : Op} : Equivariant a σ id (replaceOp k op) (replaceOp (σ k) op) :=
  bind node fun _ => guard Iff.rfl <| bind (modifyNode (fun _ => rfl) (fun _ => rfl) fun _ => rfl) fun _ => refresh

theorem forkFor (hσ : a.Renumbers σ) :
    Equivariant a σ σ (forkFor k n position child) (forkFor (σ k) (n.permute σ) position (σ child)) :=
  have hlast (copy : NodeId) : Equivariant a σ σ
      (do Edit.modifyNode k (Node.dropChild child); Edit.modifyNode child (Node.swapParent k copy)
          Edit.refreshStorage child; return copy)
      (do Edit.modifyNode (σ k) (Node.dropChild (σ child)); Edit.modifyNode (σ child) (Node.swapParent (σ k) (σ copy))
          Edit.refreshStorage (σ child); return σ copy) :=
    bind (modifyNode (fun _ => rfl) (fun _ => rfl) fun n => by simp [Node.permute, Node.dropChild]) fun _ =>
      bind swapParent fun _ => bind refreshStorage fun _ => pure
  bind (addOrphan hσ) fun copy =>
    bind (modifyNode (fun _ => rfl) (fun _ => rfl) fun c => by simp [Node.permute]) fun _ =>
    bind (forM_modifyNode fun _ => modifyNode (fun _ => rfl) (fun _ => rfl) fun n =>
      by simp [Node.permute, Node.addChild])
      fun _ => ite (by simp) (bind insertRoot fun _ => hlast copy) (hlast copy)

theorem forkNode (hσ : a.Renumbers σ) : Equivariant a σ (List.map σ) (forkNode k) (forkNode (σ k)) :=
  bind node fun n => bind (ask fun _ _ hp => hσ.sortedChildren_permute hp) fun children => by
    rw [List.zipIdx_map, ← List.map_drop]
    exact mapM fun _ _ => forkFor hσ

theorem checkPushDown : Equivariant a σ id (checkPushDown top bottom) (checkPushDown (σ top) (σ bottom)) :=
  bind expectUnary fun _ => bind node fun n => guard (by simp [Node.permute]) <|
    ite (not_congr (Inputs.map_eq_unary (σ := σ))) throw pure

theorem pushCopy {input : NodeId} (hσ : a.Renumbers σ) :
    Equivariant a σ σ (pushCopy top n position input) (pushCopy (σ top) (n.permute σ) position (σ input)) :=
  bind (addOrphan hσ) fun copy =>
    bind (modifyNode (fun _ => rfl) (fun _ => rfl) fun c => by simp [Node.permute, Inputs.map]) fun _ =>
    bind (modifyNode (fun _ => rfl) (fun _ => rfl) fun n =>
      by simp [Node.permute, Node.dropChild, Node.addChild]) fun _ =>
    bind (modifyNode (fun _ => rfl) (fun _ => rfl) fun t => by simp [Node.permute]) fun _ =>
    bind node fun t => by
      rw [show (t.permute σ).inputs = t.inputs.map σ from rfl, Inputs.replaceAt?_map]
      cases t.inputs.replaceAt? position copy with
      | none => exact ⟨fun _ run => by simp at run⟩
      | some inputs =>
        exact bind (modifyNode (fun _ => rfl) (fun _ => rfl) fun t => rfl) fun _ => bind refresh fun _ => pure

theorem relocate (hσ : a.Renumbers σ) (hsize : n.children.size ≤ 1) :
    Equivariant a σ (List.map σ) (relocate top bottom n) (relocate (σ top) (σ bottom) (n.permute σ)) :=
  bind (modifyNode (fun _ => rfl) (fun _ => rfl) fun t => by simp [Node.permute]) fun _ =>
    bind (forM_modifyNode fun _ => swapParent) fun _ => bind eraseNode fun _ => bind node fun t => by
      rw [show (t.permute σ).inputs = t.inputs.map σ from rfl, Inputs.ids_map, List.zipIdx_map,
        show (n.permute σ).children.toList = n.children.toList.map σ from IdSet.toList_permute hsize]
      exact bind (mapM fun _ _ => pushCopy hσ) fun copies => bind refresh fun _ =>
        bind (forM fun _ _ => refreshStorage) fun _ => pure

/-- A node that is moved has one reader at most. -/
theorem pushDown (hσ : a.Renumbers σ) :
    Equivariant a σ (List.map σ) (pushDown top bottom) (pushDown (σ top) (σ bottom)) where
  run {p copies q} hp run := by
    rw [pushDown_eq_relocate] at run ⊢
    obtain ⟨_, r, hcheck, run⟩ := run_bind.mp run
    obtain ⟨rfl, b, hb, -, hsize, -⟩ := run_checkPushDown.mp hcheck
    obtain ⟨b', r, hnode, run⟩ := run_bind.mp run
    obtain ⟨hb', rfl⟩ := run_node.mp hnode
    cases hb.symm.trans hb'
    have hrest : Equivariant a σ _ (Edit.relocate top bottom b) _ := relocate hσ hsize
    obtain ⟨hdq, hrun⟩ := hrest.run hp run
    refine ⟨hdq, ?_⟩
    rw [bind_of_ok (checkPushDown.run hp hcheck).2, bind_of_ok (node.run hp hnode).2, hrun]

end Surgery

end Equivariant

theorem forM_refreshStorage_permute {s : NodeSet} {u : Unit} (hp : Descends a p)
    (run : s.toList.forM refreshStorage p = .ok u q) (hq : q.Agrees σ) :
    Descends a q ∧ (s.permute σ).toList.forM refreshStorage (p.permute σ) = .ok () (q.permute σ) := by
  obtain ⟨hdq, hsame⟩ := (Equivariant.forM (h := σ) fun k _ => Equivariant.refreshStorage).run hp run
  refine ⟨hdq, ?_⟩
  have hgraph : ∀ u v, p.Feeds u v ↔ q.Feeds u v := fun u v =>
    (SameGraph.of_outline_eq (Renews.forM (fun k _ => Renews.refreshStorage.mono (Set.subset_univ _))
      run).outline).feeds.symm
  refine forM_perm (G := fun r => ∀ u v, r.Feeds (σ u) (σ v) ↔ q.Feeds u v) (R := fun i j => σ.symm i < σ.symm j)
    (S := (· < ·)) (fun j r t hr hstep u v => ?_) (fun i j hij hji => ?_) IdSet.toList_permute_perm.symm ?_
    (s.permute σ).ascending (fun u v => feeds_permute.trans (hgraph u v)) hsame
  · rw [(SameGraph.of_outline_eq (Renews.refreshStorage hstep).outline).feeds, hr]
  · -- if one fed the other, the orders would agree on the two
    obtain ⟨i, rfl⟩ := σ.surjective i
    obtain ⟨j, rfl⟩ := σ.surjective j
    rw [σ.symm_apply_apply, σ.symm_apply_apply] at hij
    rw [refreshStorage_eq]
    refine trades_derive hji.ne' (fun r hr hfeeds => ?_) fun r hr hfeeds => ?_
    · exact absurd ((hq i j ((hr i j).mp hfeeds)).mp hij) hji.asymm
    · exact absurd ((hq j i ((hr j i).mp hfeeds)).mpr hji) hij.asymm
  · rw [List.pairwise_map]
    simpa only [σ.symm_apply_apply] using s.ascending

theorem insertAfterAll_permute {parent new : NodeId} {u : Unit} (hp : Descends a p)
    (run : insertAfterAll parent new p = .ok u q) (hq : q.Agrees σ) :
    Descends a q ∧ insertAfterAll (σ parent) (σ new) (p.permute σ) = .ok () (q.permute σ) := by
  rw [insertAfterAll_eq_wire] at run
  obtain ⟨children, r, hwire, hloop⟩ := run_bind.mp run
  obtain ⟨hr, hwire'⟩ := Equivariant.wireAfterAll.run hp hwire
  obtain ⟨hdq, hloop'⟩ := forM_refreshStorage_permute hr hloop hq
  exact ⟨hdq, by rw [insertAfterAll_eq_wire, bind_of_ok hwire', hloop']⟩

end Edit

end JointPlan
