import JointPlan.Proofs.Requests
import JointPlan.Proofs.Validity

/-!
# Workflows at every moment

As long as every call succeeds, a workflow is regular: its plan is well formed and up to date, its columns
are numbered and owned by their relations, and the table of names lists every node under the
name of its relation and nothing else. The columns of an operator are looked up by name when
it is added and by position from then on; both lead to the same columns because of the numbering.
-/

namespace JointPlan

open Plan

namespace Workflow

variable {w w' : Workflow} {call : Call} {id : NodeId}

structure Regular (w : Workflow) : Prop where
  simple : w.plan.Simple
  settled : w.plan.Settled
  owned : ∀ k n, w.plan.nodes.get? k = some n → n.rel.Owned
  listed : ∀ name k, w.names.lookup name = some k ↔ ∃ n, w.plan.nodes.get? k = some n ∧ n.rel.name = name

theorem regular_empty : Workflow.empty.Regular where
  simple := simple_empty
  settled _ _ hn := nomatch hn
  owned _ _ hn := nomatch hn
  listed _ _ := ⟨fun h => (nomatch h), fun ⟨_, hn, _⟩ => nomatch hn⟩

namespace Regular

theorem lookup_iff (hw : w.Regular) {name : String} {k : NodeId} :
    w.lookup name = .ok k ↔ ∃ n, w.plan.nodes.get? k = some n ∧ n.rel.name = name := by
  rw [← hw.listed, lookup]
  cases w.names.lookup name <;> simp

theorem added (hw : w.Regular) (run : call.run w = .ok id w') :
    id = w.plan.nextId ∧ w.plan.Added call.out w'.plan := by
  obtain ⟨request, -, -, plan, hadd, rfl⟩ := Call.run_eq_ok.mp run
  exact added_of_request hw.simple.coherent.toLinked hadd

/-- A call that succeeds keeps a workflow regular. -/
theorem step (hw : w.Regular) (run : call.run w = .ok id w') : w'.Regular := by
  have hgrown := call.run_grows run
  have hlinked := hw.simple.coherent.toLinked
  obtain ⟨rfl, hadded⟩ := hw.added run
  obtain ⟨m, hm, hname, howned⟩ := hadded.node
  constructor
  case simple => exact hgrown.simple hw.simple
  case settled => exact hgrown.settled hw.simple hw.settled
  case owned =>
    intro k n hn
    have hcases := (hadded.exists_iff (P := (· = n.rel)) hlinked).mp ⟨n, hn, rfl⟩
    rcases hcases with ⟨n', hn', hrel⟩ | ⟨rfl, -⟩
    · exact hrel ▸ hw.owned k n' hn'
    · cases hm.symm.trans hn
      exact howned
  case listed =>
    intro name k
    rw [hadded.exists_iff (P := (·.name = name)) hlinked, ← hw.listed]
    obtain ⟨request, -, hfree, plan, -, rfl⟩ := Call.run_eq_ok.mp run
    rw [List.lookup_cons]
    by_cases heq : name = call.out
    · subst heq
      simp [hfree, hm, hname, eq_comm]
    · have hne : call.out ≠ name := fun h => heq h.symm
      simp [hm, hname, hne, beq_eq_false_iff_ne.mpr heq]

end Regular

/-- Calls that succeed end in a regular workflow. -/
theorem regular_of_calls {calls : List Call}
    (run : (calls.forM fun call => discard call.run) .empty = .ok () w) : w.Regular := by
  refine forM_loop (motive := fun _ w => w.Regular) (fun call _ w w' hw hstep => ?_) regular_empty run
  obtain ⟨id, hrun⟩ := run_discard.mp hstep
  exact hw.step hrun

theorem regular_of_write {calls : List Call} {p : Plan} (run : write calls .empty = .ok p w) :
    w.Regular ∧ w.plan = p := by
  obtain ⟨hcalls, -, rfl⟩ := run_write.mp run
  exact ⟨regular_of_calls hcalls, rfl⟩

/-- After calls that all succeed the plan is well formed, the table of names and the nodes of the plan are in one-to-one
correspondence, columns are numbered by position and name their relation, and deriving everything
anew succeeds and changes nothing. -/
theorem regular_after_calls {calls : List Call}
    (run : (calls.forM fun call => discard call.run) .empty = .ok () w) :
    w.plan.WellFormed ∧
    (∀ name k, w.lookup name = .ok k ↔ ∃ n, w.plan.nodes.get? k = some n ∧ n.rel.name = name) ∧
    (∀ k n, w.plan.nodes.get? k = some n → ∀ (i : Nat) (c : Column), n.rel.columns[i]? = some c →
      c.index = i ∧ c.owner = n.rel.name) ∧
    Edit.refreshAll w.plan = .ok () w.plan := by
  have hw := regular_of_calls run
  refine ⟨hw.simple.coherent.wellFormed, fun name k => hw.lookup_iff, fun k n hn i c hc => ?_,
    Edit.refreshAll_of_settled hw.simple.coherent hw.settled⟩
  exact ⟨(hw.simple.sound k n hn).numbered i c hc, hw.owned k n hn c (List.mem_of_getElem? hc)⟩

/-- Quantities and prices, held by different parties, are joined, multiplied and added up. -/
def turnover : List Call :=
  [.create "sold" [.fresh "item" .integer, .fresh "quantity" .integer] (.among 1 []),
   .create "prices" [.fresh "item" .integer, .fresh "price" .float] (.among 2 []),
   .join 0 1 "both" ["item"] ["item"],
   .arithmetic .multiply 2 "priced" "total" [.column "quantity", .column "price"],
   .sum 3 "sum" [] "total" "turnover"]

theorem regular_after_calls_turnover : ∃ w : Workflow,
    (turnover.forM fun call => discard call.run) .empty = .ok () w ∧ w.plan.WellFormed ∧
    (∀ name k, w.lookup name = .ok k ↔ ∃ n, w.plan.nodes.get? k = some n ∧ n.rel.name = name) ∧
    (∀ k n, w.plan.nodes.get? k = some n → ∀ (i : Nat) (c : Column), n.rel.columns[i]? = some c →
      c.index = i ∧ c.owner = n.rel.name) ∧
    Edit.refreshAll w.plan = .ok () w.plan := by
  have hcalls : (match (turnover.forM fun call => discard call.run) Workflow.empty with
      | .ok _ _ => true
      | .error _ _ => false) = true := by cbv
  split at hcalls
  · rename_i w run
    exact ⟨w, run, regular_after_calls run⟩
  · cases hcalls

end Workflow

end JointPlan
