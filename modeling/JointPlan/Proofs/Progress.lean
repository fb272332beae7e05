import JointPlan.Plan.Mpc
import JointPlan.Proofs.Pushing
import JointPlan.Proofs.Traversal

/-!
# Edits that finish

The other proofs about edits start from a run that has finished. Here is what makes
one finish: `Edit.wp` is the weakest precondition of an edit, up to numbers running
out. An edit that comes to a halt because no number is left meets every postcondition,
so the rules below follow the edit and need no account of how many numbers it takes.

Looking something up in a plan whose edges lead somewhere cannot fail, and neither can
the steps of a splice or of a move up to the point where relations are derived.
-/

namespace JointPlan

namespace Edit

open Plan

section Rules

variable {α β ι : Type} {p q : Plan} {x : Edit α} {f : α → Edit β} {Q : α → Plan → Prop}

/-- Unless numbers run out, the edit finishes, and `Q` holds then. -/
def wp (x : Edit α) (Q : α → Plan → Prop) (p : Plan) : Prop :=
  Exhausts x p ∨ ∃ a q, x p = .ok a q ∧ Q a q

/-- A loop each of whose steps finishes, whatever is left. -/
theorem exists_forM {l : List ι} {g : ι → Edit PUnit} {motive : Plan → Prop}
    (step : ∀ a ∈ l, ∀ p, motive p → ∃ q, g a p = .ok () q ∧ motive q) (h : motive p) :
    ∃ q, l.forM g p = .ok () q ∧ motive q := by
  have hloop := forM_total (motive := fun rest q => rest ⊆ l ∧ motive q) (f := g) (fun a rest q ⟨hrest, hq⟩ => ?_)
    ⟨List.Subset.refl l, h⟩
  · obtain ⟨q, hrun, -, hq⟩ := hloop
    exact ⟨q, hrun, hq⟩
  · obtain ⟨ha, hrest⟩ := List.cons_subset.mp hrest
    obtain ⟨r, hrun, hr⟩ := step a ha q hq
    exact ⟨r, hrun, hrest, hr⟩

namespace wp

theorem of_ok {a : α} (run : x p = .ok a q) (h : Q a q) : wp x Q p := .inr ⟨a, q, run, h⟩

/-- The edit finishes unless numbers run out. -/
theorem exists_of_not_exhausts (h : wp x Q p) (hfree : ¬ Exhausts x p) : ∃ a q, x p = .ok a q ∧ Q a q :=
  h.resolve_left hfree

/-- Edits that do the same. -/
theorem congr {y : Edit α} {r : Plan} (heq : x p = y r) (h : wp y Q r) : wp x Q p := by
  unfold wp Exhausts
  rw [heq]
  exact h

theorem pure {a : α} (h : Q a p) : wp (Pure.pure a) Q p := of_ok rfl h

theorem mono {Q' : α → Plan → Prop} (h : wp x Q p) (hQ : ∀ a q, x p = .ok a q → Q a q → Q' a q) :
    wp x Q' p := by
  rcases h with hexhausts | ⟨a, q, run, hq⟩
  · exact .inl hexhausts
  · exact of_ok run (hQ a q run hq)

/-- An edit that takes a number, where one is left. -/
theorem of_room (full : ¬ p.nextId + 1 < Word.limit → x p = .error .exhausted p)
    (h : p.nextId + 1 < Word.limit → wp x Q p) : wp x Q p := by
  by_cases room : p.nextId + 1 < Word.limit
  · exact h room
  · exact .inl ⟨p, full room⟩

/-- A step that is known to finish. -/
theorem step {a : α} {Q : β → Plan → Prop} (run : x p = .ok a q) (h : wp (f a) Q q) :
    wp (x >>= f) Q p := congr (bind_of_ok run) h

theorem bind {Q : β → Plan → Prop} (h : wp x (fun a q => wp (f a) Q q) p) : wp (x >>= f) Q p := by
  rcases h with ⟨q, run⟩ | ⟨a, q, run, hq⟩
  · exact .inl ⟨q, bind_of_error run⟩
  · exact step run hq

theorem discard {Q : Unit → Plan → Prop} (h : wp x (fun _ q => Q () q) p) : wp (discard x) Q p :=
  bind (h.mono fun _ _ _ hq => pure hq)

/-- An edit that hands on what its first step has returned. -/
theorem returning {g : α → Edit PUnit} (h : wp (x >>= g) (fun _ q => ∀ a r, x p = .ok a r → Q a q) p) :
    wp (x >>= fun a => g a >>= fun _ => Pure.pure a) Q p := by
  cases run : x p with
  | error fault q =>
    rcases h with ⟨r, hr⟩ | ⟨_, _, hr, -⟩
    · cases (bind_of_error run).symm.trans hr
      exact .inl ⟨q, bind_of_error run⟩
    · cases (bind_of_error run).symm.trans hr
  | ok a q =>
    refine step run (bind (mono (Q := fun _ q => ∀ a r, x p = .ok a r → Q a q) ?_ fun _ r _ hr =>
      pure (hr a q run)))
    exact congr (bind_of_ok run).symm h

/-- A loop: `motive` is told what is left to be done. -/
theorem forM {l : List ι} {g : ι → Edit PUnit} {motive : List ι → Plan → Prop}
    (step : ∀ a l p, motive (a :: l) p → wp (g a) (fun _ q => motive l q) p) (h : motive l p) :
    wp (l.forM g) (fun _ q => motive [] q) p := by
  induction l generalizing p with
  | nil => exact pure h
  | cons a l ih => exact bind ((step a l p h).mono fun _ q _ hq => ih hq)

theorem mapM {l : List ι} {g : ι → Edit α} {motive : List ι → Plan → Prop}
    (step : ∀ a l p, motive (a :: l) p → wp (g a) (fun _ q => motive l q) p) (h : motive l p) :
    wp (l.mapM g) (fun _ q => motive [] q) p := by
  induction l generalizing p with
  | nil => exact pure h
  | cons a l ih =>
    rw [List.mapM_cons]
    refine bind ((step a l p h).mono fun b q _ hq => ?_)
    exact bind ((ih hq).mono fun bs r _ hr => pure hr)

end wp

end Rules

end Edit

namespace Plan

variable {p q : Plan} {k : NodeId} {n : Node}

-- ---------------------------------------------------------------------------
-- Lookups
-- ---------------------------------------------------------------------------

theorem exists_inputRelations (hn : p.nodes.get? k = some n)
    (hin : ∀ u ∈ n.inputs.ids, ∃ m, p.nodes.get? u = some m) : ∃ ins, p.inputRelations k = .ok ins := by
  have hall : ∀ u ∈ n.inputs.ids, ∃ r, ∃ m, p.nodes.get? u = some m ∧ m.rel = r := by
    intro u hu
    obtain ⟨m, hm⟩ := hin u hu
    exact ⟨m.rel, m, hm, rfl⟩
  obtain ⟨ins, hins⟩ := exists_forall₂ hall
  exact ⟨ins, inputRelations_eq_ok.mpr ⟨n, hn, hins⟩⟩

namespace Linked

variable (hp : p.Linked) (hn : p.nodes.get? k = some n)

include hp hn

theorem exists_input : ∀ u ∈ n.inputs.ids, ∃ m, p.nodes.get? u = some m := fun _ hu => hp.closed ⟨n, hn, hu⟩

theorem exists_isReversible : ∃ b, p.isReversible k = .ok b := by
  obtain ⟨ins, hins⟩ := exists_inputRelations hn (hp.exists_input hn)
  exact ⟨_, bind_eq_ok.mpr ⟨n, node_eq_ok.mpr hn, bind_eq_ok.mpr ⟨ins, hins, rfl⟩⟩⟩

theorem exists_requiresMpcGiven {above : NodeId → Except Fault Bool}
    (habove : ∀ u, p.Feeds u k → ∃ b, above u = .ok b) : ∃ b, p.requiresMpcGiven above k = .ok b := by
  obtain ⟨ins, hins⟩ := exists_inputRelations hn (hp.exists_input hn)
  unfold requiresMpcGiven
  simp only [node_eq_ok.mpr hn, hins, bind, Except.bind]
  cases n.op
  case store =>
    cases hin : n.inputs
    case unary u => exact habove u ⟨n, hn, by simp [hin]⟩
    all_goals exact ⟨_, rfl⟩
  all_goals exact ⟨_, rfl⟩

end Linked

variable (hp : p.Linked)

include hp

theorem Linked.exists_requiresMpc (hn : p.nodes.get? k = some n) : ∃ b, p.requiresMpc k = .ok b := by
  unfold requiresMpc
  generalize p.size = depth
  induction depth generalizing k n with
  | zero => exact hp.exists_requiresMpcGiven hn fun _ _ => ⟨false, rfl⟩
  | succ depth ih =>
    refine hp.exists_requiresMpcGiven hn fun u hu => ?_
    obtain ⟨m, hm⟩ := hp.closed hu
    exact ih hm

theorem Linked.exists_noneRequiresMpc {l : List NodeId} (hl : ∀ u ∈ l, ∃ m, p.nodes.get? u = some m) :
    ∃ b, p.noneRequiresMpc l = .ok b := by
  induction l with
  | nil => exact ⟨true, rfl⟩
  | cons u l ih =>
    obtain ⟨m, hm⟩ := hl u List.mem_cons_self
    obtain ⟨b, hb⟩ := hp.exists_requiresMpc hm
    obtain ⟨c, hc⟩ := ih fun w hw => hl w (List.mem_cons_of_mem _ hw)
    rw [noneRequiresMpc, hb]
    cases b with
    | true => exact ⟨false, rfl⟩
    | false => exact ⟨c, hc⟩

theorem Linked.exists_isUpperBoundary (hn : p.nodes.get? k = some n) : ∃ b, p.isUpperBoundary k = .ok b := by
  obtain ⟨b, hb⟩ := hp.exists_requiresMpc hn
  obtain ⟨c, hc⟩ := hp.exists_noneRequiresMpc (l := n.parents.toList) fun u hu =>
    hp.closed (hp.feeds_of_mem_parents hn (IdSet.mem_toList.mp hu))
  unfold isUpperBoundary
  rw [hb]
  cases b with
  | false => exact ⟨false, rfl⟩
  | true => exact ⟨c, bind_eq_ok.mpr ⟨true, rfl, bind_eq_ok.mpr ⟨n, node_eq_ok.mpr hn, hc⟩⟩⟩

theorem Linked.exists_child (hn : p.nodes.get? k = some n) : ∀ c ∈ n.children, ∃ m, p.nodes.get? c = some m := by
  intro c hc
  obtain ⟨m, hm, -⟩ := (hp.children hn).mp hc
  exact ⟨m, hm⟩

theorem Linked.exists_isLowerBoundary (hn : p.nodes.get? k = some n) : ∃ b, p.isLowerBoundary k = .ok b := by
  obtain ⟨b, hb⟩ := hp.exists_requiresMpc hn
  obtain ⟨c, hc⟩ := hp.exists_noneRequiresMpc (l := n.children.toList) fun u hu =>
    hp.exists_child hn u (IdSet.mem_toList.mp hu)
  unfold isLowerBoundary
  rw [hb]
  cases b with
  | false => exact ⟨false, rfl⟩
  | true => exact ⟨c, bind_eq_ok.mpr ⟨true, rfl, bind_eq_ok.mpr ⟨n, node_eq_ok.mpr hn, hc⟩⟩⟩

theorem Linked.exists_sortedChildren (hn : p.nodes.get? k = some n) : ∃ cs, p.sortedChildren k = .ok cs := by
  have hall : ∀ c ∈ n.children.toList, ∃ named, (fun m => (m.rel.name, m.id)) <$> p.node c = .ok named := by
    intro c hc
    obtain ⟨m, hm⟩ := hp.exists_child hn c (IdSet.mem_toList.mp hc)
    exact ⟨_, map_eq_ok.mpr ⟨m, node_eq_ok.mpr hm, rfl⟩⟩
  obtain ⟨named, hnamed⟩ := exists_forall₂ hall
  exact ⟨_, bind_eq_ok.mpr ⟨n, node_eq_ok.mpr hn, bind_eq_ok.mpr ⟨named, mapM_eq_ok.mpr hnamed, rfl⟩⟩⟩

end Plan

namespace Edit

open Plan

variable {p : Plan} {parent child : NodeId} {op : Op} {rel : Relation} {n : Node} {Q : Unit → Plan → Prop}

-- ---------------------------------------------------------------------------
-- Splices and moves
-- ---------------------------------------------------------------------------

section Splice

variable {x : Edit NodeId} (hp : p.Coherent) (hn : p.nodes.get? parent = some n) (hop : op.arity = .unary)
  (add : x p = addOrphan op rel p)

include hp hop

theorem orphan_joined : (p.joined op rel .none).Orphan p.nextId
    { id := p.nextId, op, rel, inputs := .none, parents := ∅, children := ∅ } where
  node := by rw [get?_joined_none, if_pos rfl]
  arity := hop
  parents := rfl
  children := rfl
  free h := by
    obtain ⟨m, hm, -⟩ := hp.roots.mp h
    exact hp.ne_nextId hm rfl

include hn add

/-- A new node that has been added is spliced in, where a number is left for it. -/
theorem wp_splice {cs : NodeSet} {insert : NodeId → Edit Unit} {derive : Edit Unit}
    (heq : ∀ {o}, (p.joined op rel .none).Insertable parent p.nextId n o →
      insert p.nextId (p.joined op rel .none) = derive ((p.joined op rel .none).spliceAt p.nextId parent cs o.op o.rel))
    (h : p.nextId + 1 < Word.limit → wp derive Q (p.splice parent cs op rel)) : wp (x >>= insert) Q p := by
  refine .of_room (fun full => bind_of_error (add.trans (addOrphan_eq_error full))) fun room => ?_
  have hjoined : (p.joined op rel .none).Linked := hp.toLinked.joined (by simp [Inputs.ids]) room
  have hn' : (p.joined op rel .none).nodes.get? parent = some n := by
    rw [get?_joined_none, if_neg (hp.ne_nextId hn), hn]
  have hinsertable := hjoined.insertable hn' (orphan_joined hp hop) (hp.ne_nextId hn).symm
  refine .step (add.trans (addOrphan_eq room)) (.congr (heq hinsertable) ?_)
  rw [spliceAt_joined]
  exact h room

/-- A new node is spliced into one edge. -/
theorem wp_insertBetween (hc : child ∈ n.children) (h : p.nextId + 1 < Word.limit →
      wp (do refresh p.nextId; refreshStorage child) Q (p.splice parent (.singleton child) op rel)) :
    wp (x >>= fun new => insertBetween parent child new) Q p :=
  wp_splice hp hn hop add (fun hinsertable => insertBetween_eq hinsertable hc) h

/-- A new node is spliced in front of all children. -/
theorem wp_insertAfterAll (h : p.nextId + 1 < Word.limit →
      wp (do refresh p.nextId; n.children.toList.forM refreshStorage) Q (p.splice parent n.children op rel)) :
    wp (x >>= fun new => insertAfterAll parent new) Q p :=
  wp_splice hp hn hop add insertAfterAll_eq h

end Splice

/-- A copy for one child. -/
theorem wp_forkFor {id : NodeId} {cs : NodeSet} {position : Nat} {Q : NodeId → Plan → Prop} (hp : p.Linked)
    (hn : p.nodes.get? id = some { n with children := cs }) (hc : child ∈ cs)
    (h : p.nextId + 1 < Word.limit → wp (refreshStorage child) (fun _ q => Q p.nextId q)
      (p.forked id child { n with children := cs } (n.rel.rename s!"{n.rel.name}_{position}"))) :
    wp (forkFor id n position child) Q p := by
  refine .of_room forkFor_eq_error fun room => .congr (forkFor_eq hp hn hc room) ?_
  exact .bind ((h room).mono fun _ q _ hq => .pure hq)

end Edit

end JointPlan
