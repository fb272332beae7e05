import JointPlan.Proofs.Boundaries
import JointPlan.Proofs.Building
import JointPlan.Proofs.PushDown
import JointPlan.Proofs.Validity
import Mathlib

/-!
# Compilation keeps the result

Both pipelines take a valid plan to a valid plan that yields the same rows at its
sink, whatever the sources hold and however scalars and the square root are
interpreted.
-/

namespace JointPlan

namespace Plan

variable {p q : Plan} {I : Interpretation}

/-- A valid plan has an answer, and a valid plan that serves its leaves has the same. -/
theorem Serves.answer (h : Serves p q) (hp : p.Coherent) (hq : q.Coherent)
    (hvalid : p.validate = .ok ()) (hvalid' : q.validate = .ok ()) :
    ∃ rows, p.answer? I = some rows ∧ q.answer? I = some rows := by
  obtain ⟨-, sink, -, hsink, -⟩ := validate_eq_ok.mp hvalid
  obtain ⟨-, sink', -, hsink', -⟩ := validate_eq_ok.mp hvalid'
  obtain ⟨⟨k, hk⟩, hleaf⟩ := hp.mem_sinks.mp (show sink ∈ p.sinks by simp [hsink])
  obtain ⟨m, hm, hleaf', -, hbag⟩ := h k sink hk (IdSet.isEmpty_iff.mp hleaf)
  have hmem : m ∈ q.sinks := hq.mem_sinks.mpr ⟨⟨k, hm⟩, IdSet.isEmpty_iff.mpr hleaf'⟩
  obtain rfl : m = sink' := by simpa [hsink'] using hmem
  refine ⟨p.bag I k, ?_, ?_⟩
  · simp [answer?, hsink, hp.keyed hk]
  · simp [answer?, hsink', hq.keyed hm, hbag]

end Plan

namespace Edit

open Plan

variable {p q : Plan} {optimize : Bool} {u : Unit}

theorem run_validate : validate p = .ok u q ↔ p.validate = .ok () ∧ p = q := by
  simp [validate]

theorem run_compilePlain : compilePlain p = .ok u q ↔ p.validate = .ok () ∧ ∃ r,
    insertBoundaries p = .ok () r ∧ refreshAll r = .ok () q ∧ q.validate = .ok () := by
  simp only [compilePlain, run_bind, run_validate]
  constructor
  · rintro ⟨_, _, ⟨hp, rfl⟩, _, r, hr, _, _, hq, hvalid, rfl⟩
    exact ⟨hp, r, hr, hq, hvalid⟩
  · rintro ⟨hp, r, hr, hq, hvalid⟩
    exact ⟨(), p, ⟨hp, rfl⟩, (), r, hr, (), q, hq, hvalid, rfl⟩

theorem run_compileOptimized : compileOptimized p = .ok u q ↔ p.validate = .ok () ∧ ∃ a b c r,
    Pass.pushDown.run p = .ok () a ∧ Pass.pushUp.run a = .ok () b ∧ insertBoundaries b = .ok () c ∧
      refreshAll c = .ok () r ∧ Pass.pushUp.run r = .ok () q ∧ q.validate = .ok () := by
  simp only [compileOptimized, run_bind, run_validate]
  constructor
  · rintro ⟨_, _, ⟨hp, rfl⟩, _, a, ha, _, b, hb, _, c, hc, _, r, hr, _, _, hq, hvalid, rfl⟩
    exact ⟨hp, a, b, c, r, ha, hb, hc, hr, hq, hvalid⟩
  · rintro ⟨hp, a, b, c, r, ha, hb, hc, hr, hq, hvalid⟩
    exact ⟨(), p, ⟨hp, rfl⟩, (), a, ha, (), b, hb, (), c, hc, (), r, hr, (), q, hq, hvalid, rfl⟩

theorem validate_of_compile (run : compile optimize p = .ok u q) : q.validate = .ok () := by
  cases optimize with
  | false =>
    obtain ⟨-, r, -, -, hvalid⟩ := run_compilePlain.mp run
    exact hvalid
  | true =>
    obtain ⟨-, a, b, c, r, -, -, -, -, -, hvalid⟩ := run_compileOptimized.mp run
    exact hvalid

/-- What is done before the boundaries are put in. -/
def prepare (optimize : Bool) : Edit Unit := if optimize then do Pass.pushDown.run; Pass.pushUp.run else return

/-- What is left to do in the end when everything has been derived. -/
def widen (optimize : Bool) : Edit Unit := if optimize then Pass.pushUp.run else return

theorem widen_reworks {K : Op → Prop} : Reworks K (widen optimize) := .ite Pass.pushUp_reworks .pure

theorem exists_of_compile (run : compile optimize p = .ok u q) : ∃ a b c, prepare optimize p = .ok () a ∧
    insertBoundaries a = .ok () b ∧ refreshAll b = .ok () c ∧ widen optimize c = .ok () q := by
  cases optimize with
  | false =>
    obtain ⟨-, b, hinsert, hrefresh, -⟩ := run_compilePlain.mp run
    exact ⟨p, b, q, rfl, hinsert, hrefresh, rfl⟩
  | true =>
    obtain ⟨-, r, a, b, c, hdown, hup, hinsert, hrefresh, hwiden, -⟩ := run_compileOptimized.mp run
    exact ⟨a, b, c, run_bind.mpr ⟨(), r, hdown, hup⟩, hinsert, hrefresh, hwiden⟩

theorem prepare_serves (hp : p.Orderly) (run : prepare optimize p = .ok () q) :
    q.Orderly ∧ Serves p q ∧ ∀ P, Placement P → p.Placed P → q.Placed P := by
  cases optimize with
  | false =>
    obtain ⟨-, rfl⟩ := run_pure.mp run
    exact ⟨hp, .refl, fun _ _ => id⟩
  | true =>
    obtain ⟨_, r, hdown, hup⟩ := run_bind.mp run
    have hreworks := Pass.pushUp_reworks (K := fun _ => False)
    obtain ⟨hr, hserves, hplaced⟩ := Pass.pushDown_serves hp hdown
    have hrenewed := (hreworks hr.coherent hup).renewed
    have hskeleton := (hrenewed.touched hr.sound).skeleton
    exact ⟨hr.of_skeleton_eq hskeleton (hrenewed.sound hr.sound), hserves.trans (.of_skeleton_eq hskeleton),
      fun P hP h => (hplaced P hP h).of_skeleton_eq hP hskeleton⟩

/-- From there on nodes are only derived and put in. -/
theorem reworked_of_compile (hp : p.Orderly) (run : compile optimize p = .ok u q) :
    ∃ a, prepare optimize p = .ok () a ∧ Reworked (fun _ => True) a q := by
  obtain ⟨a, b, c, ha, hb, hc, hq⟩ := exists_of_compile run
  have hcoherent := (prepare_serves hp ha).1.coherent
  have hreworks : Reworks (fun _ => True) (do insertBoundaries; refreshAll; widen optimize) :=
    insertBoundaries_reworks.bind fun _ => Reworks.refreshAll.bind fun _ => widen_reworks
  refine ⟨a, ha, hreworks hcoherent (a := ()) ?_⟩
  simp only [run_bind]
  exact ⟨(), b, hb, (), c, hc, hq⟩

theorem compile_orderly (hp : p.Orderly) (run : compile optimize p = .ok u q) :
    q.Orderly ∧ Serves p q := by
  obtain ⟨a, ha, haq⟩ := reworked_of_compile hp run
  obtain ⟨ha, hserves, -⟩ := prepare_serves hp ha
  exact ⟨⟨haq.coherent ha.coherent, haq.sound ha.sound⟩, hserves.trans (haq.serves ha.coherent ha.sound)⟩

theorem compile_serves (hp : p.Simple) (run : compile optimize p = .ok u q) :
    q.Coherent ∧ Serves p q :=
  have ⟨horderly, hserves⟩ := compile_orderly hp.toOrderly run
  ⟨horderly.coherent, hserves⟩

/-- A plan that has been built and compiled yields the rows that it would have yielded
before. -/
theorem answer_compile (I : Interpretation) (optimize : Bool) (hp : p.Built)
    (run : compile optimize p = .ok () q) :
    ∃ rows, p.answer? I = some rows ∧ q.answer? I = some rows := by
  have hsimple := hp.simple
  obtain ⟨hcoherent, hserves⟩ := compile_serves hsimple run
  exact hserves.answer hsimple.coherent hcoherent hp.validate (validate_of_compile run)

end Edit

-- ---------------------------------------------------------------------------
-- Instances
-- ---------------------------------------------------------------------------

/-- One locus, at a party and some others. -/
def Storage.among (party : PartyId) (others : List PartyId) : Storage :=
  .single (.ofList (party :: others)) (IdSet.ne_empty_of_mem (IdSet.mem_ofList.mpr List.mem_cons_self))

/-- The names of the relations, in the order of the nodes. -/
def Plan.names (p : Plan) : List String := p.nodes.entries.map fun e => e.2.rel.name

-- Runs are evaluated by `cbv`. It works with the equations of `EStateM`, and these are among the
-- imports of Mathlib as a whole only.

/-- Whether the run finishes in a state that passes the test. -/
def runsTo {ε σ : Type} (x : EStateM ε σ Unit) (s : σ) (test : σ → Bool) : Bool :=
  match x s with
  | .ok _ t => test t
  | .error _ _ => false

theorem exists_of_runsTo {ε σ : Type} {x : EStateM ε σ Unit} {s : σ} {test : σ → Bool} (h : runsTo x s test = true) :
    ∃ t, x s = .ok () t ∧ test t = true := by
  unfold runsTo at h
  split at h
  · rename_i t run
    exact ⟨t, run, h⟩
  · cases h

namespace Workflow

/-- Whether the calls end in a plan that passes the test. -/
def writesTo (calls : List Call) (test : Plan → Bool) : Bool :=
  match write calls .empty with
  | .ok p _ => test p
  | .error _ _ => false

theorem exists_of_writesTo {calls : List Call} {test : Plan → Bool} (h : writesTo calls test = true) :
    ∃ p w, write calls .empty = .ok p w ∧ test p = true := by
  unfold writesTo at h
  split at h
  · rename_i p w hwrite
    exact ⟨p, w, hwrite, h⟩
  · cases h

/-- Whether the calls end in a plan that can be compiled, and the compiled plan passes the test. -/
def compilesTo (optimize : Bool) (calls : List Call) (test : Plan → Bool) : Bool :=
  writesTo calls fun p => runsTo (Edit.compile optimize) p test

theorem exists_write_of_compilesTo {optimize : Bool} {calls : List Call} {test : Plan → Bool}
    (h : compilesTo optimize calls test = true) : ∃ p w, write calls .empty = .ok p w ∧
      ∃ q, Edit.compile optimize p = .ok () q ∧ test q = true := by
  obtain ⟨p, w, hwrite, htest⟩ := exists_of_writesTo h
  exact ⟨p, w, hwrite, exists_of_runsTo htest⟩

theorem exists_of_compilesTo {optimize : Bool} {calls : List Call} {test : Plan → Bool}
    (h : compilesTo optimize calls test = true) :
    ∃ p q, p.Built ∧ Edit.compile optimize p = .ok () q ∧ test q = true := by
  obtain ⟨p, w, hwrite, q, hq⟩ := exists_write_of_compilesTo h
  exact ⟨p, q, ⟨calls, w, hwrite⟩, hq⟩

/-- One plan, compiled either way. -/
theorem exists_of_compilesTo_both {calls : List Call} {test : Bool → Plan → Bool}
    (h : ∀ optimize, compilesTo optimize calls (test optimize) = true) :
    ∃ p w, write calls .empty = .ok p w ∧
      ∀ optimize, ∃ q, Edit.compile optimize p = .ok () q ∧ test optimize q = true := by
  obtain ⟨p, w, hwrite, -⟩ := exists_write_of_compilesTo (h true)
  refine ⟨p, w, hwrite, fun optimize => ?_⟩
  obtain ⟨p', w', hwrite', hq⟩ := exists_write_of_compilesTo (h optimize)
  cases hwrite.symm.trans hwrite'
  exact hq

/-- Whether the calls end in a plan that can be compiled. -/
def compiles (optimize : Bool) (calls : List Call) : Bool := compilesTo optimize calls fun _ => true

theorem exists_of_compiles {optimize : Bool} {calls : List Call} (h : compiles optimize calls = true) :
    ∃ p q, p.Built ∧ Edit.compile optimize p = .ok () q := by
  obtain ⟨p, q, hp, run, -⟩ := exists_of_compilesTo h
  exact ⟨p, q, hp, run⟩

/-- What two parties hold, once without repetitions and once filtered, put together and sorted. -/
def distinctAndSmall : List Call :=
  [.create "a" [.fresh "x" .integer] (.among 1 []),
   .create "b" [.fresh "x" .integer] (.among 2 []),
   .concat [0, 1] "c", .distinct 2 "d" ["x"], .filterByScalar 2 "e" "x" .lt (.int 9),
   .concat [3, 4] "f", .sortBy 5 "g" "x" true, .collect 6 "h" (.singleton 1)]

/-- Its relations once it has been compiled. With optimization `c` has a copy `c_1` and each party
does its part of `d` and of `e`. -/
def distinctAndSmallNames (optimize : Bool) : List String :=
  if optimize then
    ["a", "b", "c", "f", "g", "h", "c_1", "d_obl", "d_0", "d_1", "e_0", "e_1",
     "d_0_close", "d_1_close", "e_0_close", "e_1_close", "f_open", "f_open_read",
     "d_0_store", "d_1_store", "e_0_store", "e_1_store", "f_open_store"]
  else
    ["a", "b", "c", "d", "e", "f", "g", "h", "a_close", "b_close", "g_open", "g_open_read",
     "a_store", "b_store", "g_open_store"]

/-- A relation that two parties share is put together with one that one of them holds. -/
def concatShared : List Call :=
  [.create "h" [.fresh "c" .integer] (.among 1 [2]),
   .create "q" [.fresh "c" .integer] (.among 1 []),
   .concat [0, 1] "a", .collect 2 "r" (.singleton 3)]

/-- Two relations, each of which one party holds, are put together. -/
def concatHeld : List Call :=
  [.create "a" [.fresh "x" .integer] (.among 1 []),
   .create "b" [.fresh "x" .integer] (.among 2 []),
   .concat [0, 1] "c", .collect 2 "d" (.singleton 1)]

theorem exists_compile_distinctAndSmall : ∃ p w, write distinctAndSmall .empty = .ok p w ∧
    ∀ optimize, ∃ q, Edit.compile optimize p = .ok () q ∧ q.names = distinctAndSmallNames optimize := by
  have hcompiles (optimize : Bool) : compilesTo optimize distinctAndSmall
      (fun q => q.names = distinctAndSmallNames optimize) = true := by
    cases optimize <;> cbv
  obtain ⟨p, w, hwrite, hboth⟩ := exists_of_compilesTo_both hcompiles
  refine ⟨p, w, hwrite, fun optimize => ?_⟩
  obtain ⟨q, run, hnames⟩ := hboth optimize
  exact ⟨q, run, of_decide_eq_true hnames⟩

end Workflow

theorem Edit.answer_compile_distinctAndSmall : ∃ p w,
    Workflow.write Workflow.distinctAndSmall .empty = .ok p w ∧
    ∀ optimize, ∃ q, Edit.compile optimize p = .ok () q ∧
      q.names = Workflow.distinctAndSmallNames optimize ∧
      ∀ I, ∃ rows, Plan.answer? I p = some rows ∧ Plan.answer? I q = some rows := by
  obtain ⟨p, w, hwrite, hboth⟩ := Workflow.exists_compile_distinctAndSmall
  refine ⟨p, w, hwrite, fun optimize => ?_⟩
  obtain ⟨q, run, hnames⟩ := hboth optimize
  exact ⟨q, run, hnames, fun I => Edit.answer_compile I optimize ⟨_, w, hwrite⟩ run⟩

end JointPlan
