import JointPlan.Compile
import JointPlan.Proofs.Endings
import JointPlan.Proofs.Transport

/-!
# Reworked plans

What most passes do to a plan comes down to two things: nodes are derived anew, and
boundary operators are put in where there is a reader. `Plan.Reworked K p q` says that
nothing else has happened on the way from `p` to `q`, and that the operators that were
put in are of the kind `K`. All that is known about the result of such a pass follows
from it, so it is enough to see that an edit is put together from edits that rework.
-/

namespace JointPlan

/-- The endings in the name of a boundary operator. Of several readers each has its position. -/
def Op.marks : Op → Nat → List Mark
  | .closing _, _ => [.close]
  | .opening, _ => [.opened]
  | .store, _ => [.store]
  | _, 0 => [.read]
  | _, position => [.read, .number position]

namespace Plan

variable {p q r : Plan} {parent : NodeId} {cs : NodeSet} {op : Op} {K L : Op → Prop}

/-- The boundary operator `op` has come between `parent` and its children `cs`. -/
structure Inserted (p : Plan) (parent : NodeId) (cs : NodeSet) (op : Op) (q : Plan) : Prop where
  boundary : op.isBoundary = true
  readers : ∃ c, c ∈ cs
  spliced : ∃ rel, p.Spliced parent cs op rel q
  /-- First the new node is derived, then the storage of its readers. -/
  derived : ∃ n rel, p.nodes.get? parent = some n ∧ op.Emits n.rel rel ∧
    cs.toList.forM Edit.refreshStorage (p.splice parent cs op rel) = .ok () q
  /-- The new node is named after its parent. -/
  named : ∃ n m position, p.nodes.get? parent = some n ∧ q.nodes.get? p.nextId = some m ∧
    m.rel.name = marked n.rel.name (op.marks position)

namespace Inserted

theorem coherent (h : p.Inserted parent cs op q) (hp : p.Coherent) : q.Coherent :=
  let ⟨_, spliced⟩ := h.spliced
  spliced.coherent hp

theorem sound (h : p.Inserted parent cs op q) (hs : p.Sound) : q.Sound :=
  let ⟨_, spliced⟩ := h.spliced
  spliced.sound hs

theorem serves (h : p.Inserted parent cs op q) (hp : p.Coherent) (hs : p.Sound) : Serves p q :=
  let ⟨_, spliced⟩ := h.spliced
  let ⟨_, hc⟩ := h.readers
  spliced.serves hp hs h.boundary hc

theorem nextId_eq (h : p.Inserted parent cs op q) : q.nextId = p.nextId + 1 :=
  let ⟨_, spliced⟩ := h.spliced
  spliced.nextId_eq

section Edges

variable {k u v : NodeId} {n : Node} (h : p.Inserted parent cs op q)

include h

theorem feeds : q.Feeds u v ↔
    if v = p.nextId then u = parent
    else if v ∈ cs then (u = p.nextId ∧ p.Feeds parent v) ∨ (u ≠ parent ∧ p.Feeds u v)
    else p.Feeds u v := by
  obtain ⟨rel, spliced⟩ := h.spliced
  rw [(SameGraph.of_outline_eq spliced.outline).feeds, feeds_splice]

theorem feeds_of_mem (hp : p.Coherent) (hv : v ∈ cs) : p.Feeds parent v := by
  obtain ⟨rel, spliced⟩ := h.spliced
  obtain ⟨n, hn, hcs⟩ := spliced.subset
  exact (hp.children hn).mp (hcs v hv)

theorem ne_nextId (hp : p.Coherent) : parent ≠ p.nextId := by
  obtain ⟨rel, spliced⟩ := h.spliced
  obtain ⟨n, hn, -⟩ := spliced.subset
  exact hp.ne_nextId hn

/-- The new node feeds what it was put in front of. -/
theorem feeds_new (hp : p.Coherent) : q.Feeds p.nextId v ↔ v ∈ cs := by
  rw [h.feeds]
  split
  case isTrue hv =>
    subst hv
    exact iff_of_false (h.ne_nextId hp).symm fun hv => hp.not_feeds_nextId (h.feeds_of_mem hp hv)
  case isFalse =>
    split
    case isTrue hv => exact iff_of_true (.inl ⟨rfl, h.feeds_of_mem hp hv⟩) hv
    case isFalse hv => exact iff_of_false hp.not_nextId_feeds hv

theorem feeds_parent (hp : p.Coherent) : q.Feeds parent v ↔ v = p.nextId ∨ (v ∉ cs ∧ p.Feeds parent v) := by
  have hne := h.ne_nextId hp
  rw [h.feeds]
  split <;> simp_all

theorem feeds_old (hp : p.Coherent) (hu : u ≠ parent) (hnew : u ≠ p.nextId) : q.Feeds u v ↔ p.Feeds u v := by
  rw [h.feeds]
  split
  case isTrue hv => exact iff_of_false hu (hv ▸ hp.not_feeds_nextId)
  case isFalse => simp [hu, hnew]

theorem op_of (hn : q.nodes.get? k = some n) : (k = p.nextId ∧ n.op.blank = op.blank) ∨
    (k ≠ p.nextId ∧ ∃ m, p.nodes.get? k = some m ∧ n.op.blank = m.op.blank) := by
  obtain ⟨rel, spliced⟩ := h.spliced
  obtain ⟨m, hm, hs⟩ := get?_of_outline_eq spliced.outline hn
  have hop := Node.blank_eq_of_outline_eq hs
  rcases get?_splice_eq_some hm with ⟨hk, rfl⟩ | ⟨hk, m', hm', rfl⟩
  · exact .inl ⟨hk, hop⟩
  · exact .inr ⟨hk, m', hm', by rw [hop, relinked_op]⟩

end Edges

/-- A node that is in the plan stays in it. -/
theorem contains {k : NodeId} (h : p.Inserted parent cs op q) (hk : p.contains k = true) : q.contains k = true := by
  obtain ⟨rel, spliced⟩ := h.spliced
  rw [contains_eq_of_outline_eq spliced.outline, Plan.contains, IdMap.contains, get?_splice]
  split
  · rfl
  · simpa [Plan.contains, IdMap.contains] using hk

end Inserted

inductive Reworked (K : Op → Prop) (p : Plan) : Plan → Prop where
  | refl : Reworked K p p
  | derived {q r : Plan} : Reworked K p q → Renewed Set.univ q r → Reworked K p r
  | inserted {q r : Plan} {parent : NodeId} {cs : NodeSet} {op : Op} :
    Reworked K p q → K op → q.Inserted parent cs op r → Reworked K p r

namespace Reworked

theorem trans (h₁ : Reworked K p q) (h₂ : Reworked K q r) : Reworked K p r := by
  induction h₂ with
  | refl => exact h₁
  | derived _ hrenewed ih => exact ih.derived hrenewed
  | inserted _ hop hinserted ih => exact ih.inserted hop hinserted

theorem mono (hKL : ∀ op, K op → L op) (h : Reworked K p q) : Reworked L p q := by
  induction h with
  | refl => exact .refl
  | derived _ hrenewed ih => exact ih.derived hrenewed
  | inserted _ hop hinserted ih => exact ih.inserted (hKL _ hop) hinserted

/-- A node that is in the plan stays in it. -/
theorem contains {k : NodeId} (h : Reworked K p q) (hk : p.contains k = true) : q.contains k = true := by
  induction h with
  | refl => exact hk
  | derived _ hrenewed ih => rw [contains_eq_of_outline_eq hrenewed.outline, ih]
  | inserted _ _ hinserted ih => exact hinserted.contains ih

theorem sound (h : Reworked K p q) (hs : p.Sound) : q.Sound := by
  induction h with
  | refl => exact hs
  | derived _ hrenewed ih => exact hrenewed.sound ih
  | inserted _ _ hinserted ih => exact hinserted.sound ih

/-- Where no operator may have been put in, nodes have been derived anew at most. -/
theorem renewed (h : Reworked (fun _ => False) p q) : Renewed Set.univ p q := by
  induction h with
  | refl => exact .refl
  | derived _ hrenewed ih => exact ih.trans hrenewed
  | inserted _ hfalse _ _ => exact hfalse.elim

variable (h : Reworked K p q) (hp : p.Coherent)

include h hp

theorem coherent : q.Coherent := by
  induction h with
  | refl => exact hp
  | derived _ hrenewed ih => exact ih.of_outline_eq hrenewed.outline
  | inserted _ _ hinserted ih => exact hinserted.coherent ih

theorem serves (hs : p.Sound) : Serves p q := by
  induction h with
  | refl => exact .refl
  | derived hpq hrenewed ih =>
    exact ih.trans (.of_skeleton_eq (hrenewed.touched (hpq.sound hs)).skeleton)
  | inserted hpq _ hinserted ih => exact ih.trans (hinserted.serves (hpq.coherent hp) (hpq.sound hs))

/-- A rule by which all that is put in hands on its input goes on to hold. -/
theorem obeys {α : Type} {R : Rule α} {v : NodeId → α} (hs : p.Sound) (hR : ∀ op a, K op → R.Yields [a] op a)
    (hv : p.Obeys R v v) : ∃ w, q.Obeys R w w := by
  induction h with
  | refl => exact ⟨v, hv⟩
  | derived hpq hrenewed ih =>
    obtain ⟨w, hw⟩ := ih
    exact ⟨w, hw.of_skeleton_eq (hrenewed.touched (hpq.sound hs)).skeleton⟩
  | @inserted q r parent cs op hpq hop hinserted ih =>
    obtain ⟨w, hw⟩ := ih
    obtain ⟨rel, spliced⟩ := hinserted.spliced
    obtain ⟨n, hn, -⟩ := spliced.subset
    have hsplice : (q.splice parent cs op rel).Obeys R _ _ :=
      hw.splice (hpq.coherent hp) hn (.inl rfl) (hR op (w parent) hop)
    rw [Function.update_eq_self] at hsplice
    exact ⟨_, hsplice.of_skeleton_eq (spliced.touched (hpq.sound hs)).skeleton⟩

end Reworked

theorem Orderly.reworked (hp : p.Orderly) (h : Reworked K p q) : q.Orderly where
  coherent := h.coherent hp.coherent
  sound := h.sound hp.sound

end Plan

namespace Edit

open Plan

/-- A finished run of the edit reworks the plan. -/
def Reworks {α : Type} (K : Op → Prop) (x : Edit α) : Prop :=
  ∀ ⦃p a q⦄, p.Coherent → x p = .ok a q → Reworked K p q

namespace Reworks

variable {α β : Type} {K L : Op → Prop} {x : Edit α} {f : α → Edit β} {id : NodeId}

theorem mono (hKL : ∀ op, K op → L op) (h : Reworks K x) : Reworks L x :=
  fun _ _ _ hp run => (h hp run).mono hKL

/-- An edit that changes nothing. -/
theorem of_reads (h : Reads x) : Reworks K x := fun _ _ _ _ run => h.of_ok run ▸ .refl

theorem pure {a : α} : Reworks K (Pure.pure a : Edit α) := of_reads Leads.pure

theorem get : Reworks K (get : Edit Plan) := of_reads Leads.get

theorem ask {g : Plan → Except Fault α} : Reworks K (ask g) := of_reads ask_leads

theorem node : Reworks K (node id) := ask

theorem bind (hx : Reworks K x) (hf : ∀ a, Reworks K (f a)) : Reworks K (x >>= f) := by
  intro p b q hp run
  obtain ⟨a, r, hr, run⟩ := run_bind.mp run
  have hpr := hx hp hr
  exact hpr.trans (hf a (hpr.coherent hp) run)

theorem ite {c : Prop} [Decidable c] {y z : Edit α} (hy : Reworks K y) (hz : Reworks K z) :
    Reworks K (if c then y else z) := by
  split
  · exact hy
  · exact hz

theorem forM {ι : Type} {l : List ι} {g : ι → Edit PUnit} (h : ∀ a ∈ l, Reworks K (g a)) :
    Reworks K (l.forM g) := by
  induction l with
  | nil => exact pure
  | cons a l ih =>
    exact bind (h a List.mem_cons_self) fun _ => ih fun b hb => h b (List.mem_cons_of_mem _ hb)

/-- An edit that changes what is derived only. -/
theorem of_renews {S : Set NodeId} {x : Edit Unit} (h : Renews S x) : Reworks K x :=
  fun _ _ _ _ run => Reworked.refl.derived ((h run).mono (Set.subset_univ _))

theorem refreshStorage : Reworks K (refreshStorage id) := of_renews Renews.refreshStorage

theorem refreshAll : Reworks K refreshAll := of_renews Renews.refreshAll

theorem propagateStorage : Reworks K propagateStorage := of_renews Renews.propagateStorage

/-- An edit that puts in one boundary operator at most. -/
theorem of_inserted {x : Edit Unit} (h : ∀ ⦃p u q⦄, p.Coherent → x p = .ok u q →
    q = p ∨ ∃ parent cs op, K op ∧ p.Inserted parent cs op q) : Reworks K x := by
  intro p u q hp run
  rcases h hp run with rfl | ⟨_, _, _, hop, hinserted⟩
  · exact .refl
  · exact Reworked.refl.inserted hop hinserted

/-- A loop of edits that rework: what holds before it, with all elements to come, holds
after it with none. -/
theorem loop {ι : Type} {l : List ι} {g : ι → Edit PUnit} {motive : List ι → Plan → Prop}
    (h : ∀ a, Reworks K (g a))
    (step : ∀ a l p q, p.Coherent → motive (a :: l) p → g a p = .ok () q → motive l q)
    {p q : Plan} {u : Unit} (hp : p.Coherent) (start : motive l p)
    (run : l.forM g p = .ok u q) : motive [] q := by
  refine (forM_loop (motive := fun l p => p.Coherent ∧ motive l p) ?_ ⟨hp, start⟩ run).2
  rintro a l p q ⟨hp, hm⟩ run
  exact ⟨(h a hp run).coherent hp, step a l p q hp hm run⟩

end Reworks

end Edit

namespace Pass

open Edit

variable {K : Op → Prop} {pass : Pass}

theorem step_reworks {id : NodeId} (hvisit : ∀ op, Reworks K (pass.visit id op)) :
    Reworks K (pass.step id) := Reworks.get.bind fun p => by
  cases p.nodes.get? id with
  | none => exact .pure
  | some n => exact hvisit n.op

theorem reworks (hvisit : ∀ id op, Reworks K (pass.visit id op)) (hfinish : Reworks K pass.finish) :
    Reworks K pass.run := by
  rw [run_eq]
  exact Reworks.ask.bind fun _ =>
    (Reworks.forM fun id _ => step_reworks (hvisit id)).bind fun _ => hfinish

end Pass

-- ---------------------------------------------------------------------------
-- Widening labels
-- ---------------------------------------------------------------------------

namespace PushUp

open Plan Edit

variable {p q : Plan} {id : NodeId} {n : Node} {members : PartySet} {u : Unit}

theorem skeleton_loosenColumns (hop : n.op ≠ .create) :
    (loosenColumns members n).skeleton = n.skeleton :=
  Node.skeleton_derived rfl rfl fun h => absurd h hop

theorem sound_loosenColumns (hn : n.Sound) : (loosenColumns members n).Sound := by
  refine ⟨fun i c hc => ?_, fun cs hcs => ?_⟩
  · simp only [loosenColumns, List.getElem?_map, Option.map_eq_some_iff] at hc
    obtain ⟨d, hd, rfl⟩ := hc
    exact hn.numbered i d hd
  · simpa [loosenColumns] using hn.sized cs hcs

theorem renewed_loosenColumns (hn : p.nodes.get? id = some n) (hop : n.op ≠ .create) :
    Renewed Set.univ p (p.set id (loosenColumns members n)) where
  outline := (Touched.set hn (skeleton_loosenColumns hop)).skeleton |> outline_eq_of_skeleton_eq
  touched _ := (Touched.set hn (skeleton_loosenColumns hop)).mono (Set.subset_univ _)
  sound hs := hs.set (sound_loosenColumns (hs _ _ hn))

/-- Either nothing is done, or the columns of the node and of its only parent are widened. -/
theorem run_visit (hp : p.Coherent) (run : visit id p = .ok u q) : q = p ∨ ∃ n parent m,
    p.nodes.get? id = some n ∧ n.inputs = .unary parent ∧ p.nodes.get? parent = some m ∧
    m.isRoot = false ∧ p.isReversible id = .ok true ∧ p.isLowerBoundary id = .ok true ∧
    q = (p.set id (loosenColumns n.rel.storage.members n)).set parent
      (loosenColumns n.rel.storage.members m) := by
  simp only [visit, run_bind, run_node] at run
  obtain ⟨n, _, ⟨hn, rfl⟩, run⟩ := run
  have hdone (run : (Pure.pure () : Edit Unit) p = .ok u q) : q = p := (run_pure.mp run).2.symm
  cases hin : n.inputs <;> simp only [hin] at run
  case unary parent =>
    obtain ⟨reversible, _, asked, run⟩ := run_bind.mp run
    obtain ⟨hreversible, rfl⟩ := run_ask.mp asked
    cases reversible with
    | false => exact .inl (hdone run)
    | true =>
      obtain ⟨lower, _, asked, run⟩ := run_bind.mp run
      obtain ⟨hlower, rfl⟩ := run_ask.mp asked
      cases lower with
      | false => exact .inl (hdone run)
      | true =>
        obtain ⟨root, _, asked, run⟩ := run_bind.mp run
        obtain ⟨hroot, rfl⟩ := run_ask.mp asked
        cases root with
        | true => exact .inl (hdone run)
        | false =>
          obtain ⟨m, hfound, hroot⟩ := map_eq_ok.mp hroot
          have hm := node_eq_ok.mp hfound
          have hne : parent ≠ id := by
            rintro rfl
            exact hp.not_feeds_self ⟨n, hn, by simp [hin]⟩
          simp only [Bool.not_false, if_true, run_bind, run_modifyNode] at run
          obtain ⟨_, _, ⟨n', hn', rfl⟩, m', hm', rfl⟩ := run
          cases hn.symm.trans hn'
          rw [get?_set, if_neg hne, hm] at hm'
          cases hm'
          exact .inr ⟨n, parent, m, hn, hin, hm, hroot, hreversible, hlower, rfl⟩
  all_goals exact .inl (hdone run)

theorem renewed_of_visit (hp : p.Coherent) (run : visit id p = .ok u q) : Renewed Set.univ p q := by
  rcases run_visit hp run with rfl | ⟨n, parent, m, hn, hin, hm, hroot, -, -, rfl⟩
  · exact .refl
  · have hne : parent ≠ id := by
      rintro rfl
      exact hp.not_feeds_self ⟨n, hn, by simp [hin]⟩
    have hnop : n.op ≠ .create := by
      intro hop
      have := hp.arity_of_inputs hn hin
      rw [hop] at this
      cases this
    have hmop : m.op ≠ .create := by
      rw [ne_eq, ← hp.isRoot_iff hm, hroot]
      exact Bool.false_ne_true
    have hm' : (p.set id (loosenColumns n.rel.storage.members n)).nodes.get? parent = some m := by
      rw [get?_set, if_neg hne, hm]
    exact (renewed_loosenColumns hn hnop).trans (renewed_loosenColumns hm' hmop)

end PushUp

namespace Pass

open Edit

variable {K : Op → Prop} {id : NodeId} {op : Op}

theorem pushUp_visit_reworks : Reworks K (pushUp.visit id op) :=
  .ite (fun _ _ _ hp run => .derived .refl (PushUp.renewed_of_visit hp run)) .pure

theorem pushUp_reworks : Reworks K pushUp.run := reworks (fun _ _ => pushUp_visit_reworks) .pure

end Pass

end JointPlan
