import JointPlan.Proofs.Dividing
import JointPlan.Proofs.Naming

/-!
# What work that is pushed down leaves as it is

A rule divides if the parts of an operator, applied to the inputs of a concatenation one by one,
can be led to what the operator yields on the concatenation. For such a rule the first pass changes values at
concatenations alone. Profiles are such a rule, and what roots have on record is another; with the name
they are all of a relation.
-/

namespace JointPlan

open Plan Edit

/-- Work can be divided and comes to the same. -/
def Rule.Divides {α : Type} (R : Rule α) : Prop :=
  ∀ {op part : Op} {rest : List Op} {ins : List α} {c y : α}, op.Splits part rest →
    R.Yields ins .concat c → R.Yields [c] op y →
    ∃ d outs z, R.Yields [c] part d ∧ List.Forall₂ (fun a out => R.Yields [a] part out) ins outs ∧
      R.Yields outs .concat z ∧ R.Leads rest z y

/-- The nodes that are left have their operators, and yield what they did unless they concatenate. -/
structure Plan.Retains {α : Type} (R : Rule α) (p : Plan) (v : NodeId → α) (q : Plan) (v' : NodeId → α) : Prop where
  obeys : q.Obeys R v' v'
  next : p.nextId ≤ q.nextId
  kept : ∀ k m, k < p.nextId → q.nodes.get? k = some m →
    ∃ n, p.nodes.get? k = some n ∧ m.op.bare = n.op.bare ∧ (n.op ≠ .concat → v' k = v k)

namespace Plan.Retains

variable {α : Type} {R : Rule α} {p q r : Plan} {v v' v'' : NodeId → α}

theorem refl (h : p.Obeys R v v) : p.Retains R v p v := ⟨h, le_rfl, fun _ m _ hm => ⟨m, hm, rfl, fun _ => rfl⟩⟩

theorem trans (h : p.Retains R v q v') (h' : q.Retains R v' r v'') : p.Retains R v r v'' where
  obeys := h'.obeys
  next := h.next.trans h'.next
  kept k o hk ho := by
    obtain ⟨m, hm, hom, hv'⟩ := h'.kept k o (hk.trans_le h.next) ho
    obtain ⟨n, hn, hmn, hv⟩ := h.kept k m hk hm
    refine ⟨n, hn, hom.trans hmn, fun hop => (hv' fun hc => hop ?_).trans (hv hop)⟩
    exact Op.eq_of_bare_eq (hmn.symm.trans (congrArg _ hc)) rfl

theorem of_skeleton_eq (h : p.Retains R v q v') (hs : r.skeleton = q.skeleton) : p.Retains R v r v' where
  obeys := h.obeys.of_skeleton_eq hs
  next := nextId_eq_of_skeleton_eq hs ▸ h.next
  kept k o hk ho := by
    obtain ⟨m, hm, hom⟩ := get?_of_skeleton_eq hs ho
    obtain ⟨n, hn, hmn, hv⟩ := h.kept k m hk hm
    exact ⟨n, hn, (Node.bare_eq_of_skeleton_eq hom).trans hmn, hv⟩

end Plan.Retains

-- ---------------------------------------------------------------------------
-- The sweep
-- ---------------------------------------------------------------------------

section Sweep

variable {α : Type} {R : Rule α} {p q : Plan} {v : NodeId → α} {X : NodeId} {x : Node} {rest : List NodeId}

theorem Plan.Forked.retains {child : NodeId} {rel : Relation} (h : p.Forked X child x rel q) (hp : p.Coherent) (hs : p.Sound)
    (hop : x.op ≠ .create) (hobeys : p.Obeys R v v) : ∃ v', p.Retains R v q v' := by
  have hskeleton := (h.touched hs).skeleton
  refine ⟨_, (hobeys.forked hp h.node (Rule.yields_of_allows (hobeys X x h.node) hop)).of_skeleton_eq hskeleton,
    h.nextId_eq ▸ Nat.le_succ _, fun k m hk hm => ?_⟩
  obtain ⟨m', hm', hmm'⟩ := get?_of_skeleton_eq hskeleton hm
  rcases get?_forked_eq_some hm' with ⟨rfl, -⟩ | ⟨hne, n, hn, rfl⟩
  · exact absurd hk (lt_irrefl _)
  · exact ⟨n, hn, by simp [Node.bare_eq_of_skeleton_eq hmm'], fun _ => Function.update_of_ne hne ..⟩

variable [Inhabited α]

theorem Plan.Distributed.retains {D : NodeId} {t t' b : Node} {part : Op} {ops : List Op} {p₁ p₂ : Plan}
    (h : p.Distributed D X t x part ops q p₁ p₂ t' b) (hR : R.Divides) (hp : p.Sweeping (X :: rest)) (hobeys : p.Obeys R v v) : ∃ v', p.Retains R v q v' := by
  have hc := hp.coherent
  have hskeleton := (h.pushed.touched (h.sound₂ hp.sound)).skeleton
  have hupper := Rule.yields_of_allows (hobeys D t h.upper) (by simp [h.concat])
  have hlower := Rule.yields_of_allows (hobeys X x h.lower) (hc.ne_create (u := D) h.lower (by simp [h.fed]))
  rw [h.concat] at hupper
  rw [h.fed] at hlower
  obtain ⟨d, outs, z, hhere, heach, hall, hleads⟩ := hR (h.splits hp.sound) hupper hlower
  obtain ⟨v', hobeys', hold⟩ := h.obeys hp hobeys hhere (List.forall₂_map_left_iff.mp heach) hall hleads
  have hnext : p.nextId ≤ q.nextId := by
    rw [nextId_eq_of_skeleton_eq hskeleton]
    exact h.nextId_le.trans (Nat.le_add_right _ _)
  refine ⟨v', hobeys', hnext, fun k m hk hm => ?_⟩
  have hkX : k ≠ X := by
    obtain ⟨m', hm', -⟩ := get?_of_skeleton_eq hskeleton hm
    rcases get?_pushed_eq_some (h.coherent₂ hc).toLinked hm' with ⟨i, -, rfl, -, -⟩ | ⟨-, hkX, -⟩
    · exact absurd hk (Nat.not_lt.mpr (h.nextId_le.trans (Nat.le_add_right _ _)))
    · exact hkX
  have hname := (PushDown.Visited.distributed h).nameAt hc h.lower hk (.inl hkX)
  obtain ⟨n, hn, -⟩ := nameAt_eq_some.mp (hname.symm.trans (nameAt_of_get? hm))
  obtain ⟨m', hm', hop⟩ := h.get?_old hp.sound hc hn hkX
  cases hm.symm.trans hm'
  refine ⟨n, hn, hop, fun hconcat => hold k n hn ?_ hkX⟩
  rintro rfl
  cases h.upper.symm.trans hn
  exact hconcat h.concat

/-- One visit. -/
theorem PushDown.Visited.retains (h : Visited p X x q) (hR : R.Divides) (hp : p.Sweeping (X :: rest))
    (hx : p.nodes.get? X = some x) (hobeys : p.Obeys R v v) : ∃ v', p.Retains R v q v' := by
  cases h with
  | skipped same _ =>
    subst same
    exact ⟨v, .refl hobeys⟩
  | distributed h => exact h.retains hR hp hobeys
  | copied concat _ run =>
    refine (forkNode_forks (motive := fun r => r.Sound ∧ ∃ v', p.Retains R v r v') hp.coherent hx
      ⟨hp.sound, v, .refl hobeys⟩ (fun hr forked h => ?_) run).2
    obtain ⟨hsound, v', hv'⟩ := h
    obtain ⟨v'', hv''⟩ := forked.retains hr hsound (by simp [concat]) hv'.obeys
    exact ⟨forked.sound hsound, v'', hv'.trans hv''⟩

/-- All visits. -/
theorem Pass.pushDown_retains {u : Unit} (hR : R.Divides) (hp : p.Orderly) (h : p.Obeys R v v)
    (run : pushDown.run p = .ok u q) : ∃ v', p.Retains R v q v' := by
  obtain ⟨r, ⟨v', hv'⟩, -, -, -, hskeleton⟩ := exists_of_pushDown (motive := fun r => ∃ v', p.Retains R v r v') hp
    ⟨v, .refl h⟩ (fun hsweep hx hvisited ⟨v', hv'⟩ => by
      obtain ⟨v'', hv''⟩ := hvisited.retains hR hsweep hx hv'.obeys
      exact ⟨v'', hv'.trans hv''⟩) run
  exact ⟨v', hv'.of_skeleton_eq hskeleton⟩

end Sweep

-- ---------------------------------------------------------------------------
-- Relations
-- ---------------------------------------------------------------------------

namespace Rule

variable {op : Op} {ops : List Op}

theorem makes_of_yields {ins : List Profile} {f : Profile} (h : profiles.Yields ins op f) (hop : op ≠ .create) :
    op.Makes ins f := (h ⟨0, op, .blank "", .none, ∅, ∅⟩ rfl).2 hop

theorem profiles_divides : profiles.Divides := by
  intro op part rest ins c y hsplits hconcat hop
  obtain ⟨d, outs, z, hd, heach, hall, hleads⟩ :=
    hsplits.makes (makes_of_yields hconcat (by simp)) (makes_of_yields hop (Op.ne_create_of_unary hsplits.arity.1))
  exact ⟨d, outs, z, profiles_yields hd, heach.imp fun _ _ => profiles_yields, profiles_yields hall, hleads⟩

/-- Roots have what is on record; nothing is said about others. -/
def roots : Rule Relation where
  allows n _ r := n.op = .create → r = n.rel
  congr hop hrel h hc := by
    have hc := Op.eq_of_bare_eq (hop.symm.trans (congrArg _ hc)) rfl
    rw [hrel hc, h hc]

theorem roots_yields {ins : List Relation} {r : Relation} (hop : op ≠ .create) : roots.Yields ins op r :=
  fun _ hn hc => absurd (hn.symm.trans hc) hop

theorem roots_leads (r : Relation) : roots.Leads ops r r := by
  induction ops with
  | nil => exact .nil
  | cons op ops ih => exact .cons (fun hop => roots_yields (Op.ne_create_of_unary hop)) ih

theorem roots_divides : roots.Divides := by
  intro op part rest ins c y hsplits _ _
  have hcreate := Op.ne_create_of_unary hsplits.arity.2
  refine ⟨y, ins.map fun _ => y, y, roots_yields hcreate, ?_, roots_yields (by simp), roots_leads y⟩
  rw [List.forall₂_map_right_iff, List.forall₂_same]
  exact fun _ _ => roots_yields hcreate

end Rule

instance : Inhabited Relation := ⟨.blank ""⟩

namespace Plan

variable {p : Plan} {k : NodeId} {n : Node}

/-- The relation that a node has on record. -/
def relationAt (p : Plan) (k : NodeId) : Relation := ((p.nodes.get? k).map fun n => n.rel).getD default

theorem relationAt_of_get? (hn : p.nodes.get? k = some n) : p.relationAt k = n.rel := by
  rw [relationAt, hn]
  rfl

theorem obeys_roots : p.Obeys .roots p.relationAt p.relationAt := fun _ _ hn _ => relationAt_of_get? hn

/-- In a settled plan nodes have the profiles that their operators make, and own their columns. -/
theorem Settled.makes (hp : p.Settled) (hs : p.Sound) (hn : p.nodes.get? k = some n) (hop : n.op ≠ .create) :
    n.op.Makes (n.inputs.ids.map fun u => (p.relationAt u).profile) n.rel.profile ∧ n.rel.renumber = n.rel := by
  obtain ⟨ins, _, hins, hn', hnew⟩ := steadyAt_iff.mp (hp k n hn hop)
  cases hn.symm.trans hn'
  have hmap : ins.map Relation.profile = _ :=
    map_inputRelations (fun hn => congrArg Relation.profile (relationAt_of_get? hn)) hn hins
  rw [← hmap]
  exact Node.makes_of_anew (hs.inputs hins) hop hnew

theorem Settled.obeys_profiles (hp : p.Settled) (hs : p.Sound) :
    p.Obeys .profiles (fun k => (p.relationAt k).profile) fun k => (p.relationAt k).profile := by
  intro k n hn
  simp only [relationAt_of_get? hn]
  exact ⟨fun _ => rfl, fun hop => (hp.makes hs hn hop).1⟩

end Plan

namespace Workflow

/-- The spread of what two parties hold, by groups that both know of. -/
def spread : List Call :=
  [.create "a" [(Column.fresh "g" .integer).labeled (.ofList [1, 2]) (.singleton 1), .fresh "x" .integer]
    (.among 1 []),
   .create "b" [(Column.fresh "g" .integer).labeled (.ofList [1, 2]) (.singleton 2), .fresh "x" .integer]
    (.among 2 []),
   .concat [0, 1] "c", .stdDev 2 "d" ["g"] "x" "s", .sortBy 3 "e" "s" true, .collect 4 "f" (.singleton 1)]

end Workflow

end JointPlan
