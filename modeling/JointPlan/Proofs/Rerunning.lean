import JointPlan.Proofs.Delivering
import JointPlan.Proofs.Revealing

/-!
# Running a boundary pass again

Each boundary pass leaves a plan in which it finds nothing to do. What it leaves is different from
pass to pass (`Stage`): shares in front of joint computations, an opening behind each of them that feeds a
local one, reads behind openings, and stores in between.
-/

namespace JointPlan

open Plan Edit Boundary

variable {p q r : Plan} {i : Nat} {pass : Pass} {u : Unit}

namespace Pass

theorem insertRead_of_reading {post : NodeId → Station} (hp : p.Coherent) (hb : Reading [] p post) :
    insertRead.run p = .ok () p := by
  refine run_of_stays hp (fun k n hn => ?_) rfl
  by_cases hop : n.op = .opening
  case neg =>
    rw [insertRead_visit_of_ne hop]
    rfl
  have hk : post k = .opening := Station.of_holds_opening (hop ▸ hb.holds k n hn)
  obtain ⟨children, hsorted⟩ := hp.toLinked.exists_sortedChildren hn
  rw [hop]
  show readAfterOpening k p = .ok () p
  rw [readAfterOpening_eq]
  refine run_bind.mpr ⟨children, p, run_ask.mpr ⟨hsorted, rfl⟩, forM_stays fun child hchild => run_readBehind.mpr ?_⟩
  have hmem : child.1 ∈ n.children := by
    rw [← IdSet.mem_toList, ← (sortedChildren_perm hp.toLinked hn hsorted).mem_iff]
    exact List.fst_mem_of_mem_zipIdx hchild
  have hfeeds := (hp.children hn).mp hmem
  have ⟨m, hm, _⟩ := hfeeds
  have hread := hb.holds child.1 m hm
  rw [hb.reads k child.1 hk List.not_mem_nil hfeeds] at hread
  exact ⟨m, hm, .inl ⟨of_decide_eq_true hread, rfl⟩⟩

theorem storeAfterOpening_of_storing {post : NodeId → Station} {k : NodeId} {n : Node} (hp : p.Coherent)
    (hb : Storing [] p post) (hn : p.nodes.get? k = some n) (hk : post k = .opening) :
    storeAfterOpening k p = .ok () p := by
  obtain ⟨c, hc, hfeeds⟩ := hb.keeps k n hn hk List.not_mem_nil
  have hchildren : n.children = .singleton c := IdSet.ext fun v => by
    rw [hp.children hn, hfeeds, IdSet.mem_singleton]
  have ⟨m, hm, _⟩ := (hfeeds c).mpr rfl
  have hop := hb.holds c m hm
  rw [hc] at hop
  refine run_bind.mpr ⟨n, p, run_node.mpr ⟨hn, rfl⟩, ?_⟩
  obtain ⟨one, hone⟩ := exists_feedsOneStore hp hn
  have hstore : one = true := (run_feedsOneStore hp hn hone).2.mpr ⟨c, m, hchildren, hm, of_decide_eq_true hop⟩
  split
  case isTrue => exact run_bind.mpr ⟨one, p, hone, by simp [hstore]⟩
  case isFalse => rfl

theorem storeBeforeClosing_of_storing {post : NodeId → Station} {k : NodeId} {n : Node} {storage : Storage}
    (hp : p.Coherent) (hb : Storing [] p post) (hn : p.nodes.get? k = some n) (hop : n.op = .closing storage)
    (hk : post k = .closing) : storeBeforeClosing k p = .ok () p := by
  obtain ⟨parent, hin⟩ := hp.inputs_of_arity hn (by rw [hop]; rfl)
  have hfeeds : p.Feeds parent k := ⟨n, hn, by simp [hin]⟩
  obtain ⟨m, hm⟩ := hp.closed hfeeds
  have hstore := hb.holds parent m hm
  rw [hb.stages parent k hk List.not_mem_nil hfeeds] at hstore
  refine run_bind.mpr ⟨n, p, run_node.mpr ⟨hn, rfl⟩, ?_⟩
  rw [hin]
  exact run_bind.mpr ⟨m, p, run_node.mpr ⟨hm, rfl⟩, by simp [show m.op = .store from of_decide_eq_true hstore]⟩

theorem insertStore_of_storing {post : NodeId → Station} (hp : p.Coherent) (hb : Storing [] p post) :
    insertStore.run p = .ok () p := by
  refine run_of_stays hp (fun k n hn => ?_) rfl
  have hholds := hb.holds k n hn
  by_cases hopening : n.op = .opening
  · rw [hopening] at hholds ⊢
    exact storeAfterOpening_of_storing hp hb hn (Station.of_holds_opening hholds)
  by_cases hclosing : ∃ storage, n.op = .closing storage
  · obtain ⟨storage, hop⟩ := hclosing
    rw [hop] at hholds ⊢
    exact storeBeforeClosing_of_storing hp hb hn hop (Station.of_holds_closing hholds)
  rw [insertStore_visit_of_ne hopening hclosing]
  rfl

end Pass

-- ---------------------------------------------------------------------------
-- From pass to pass
-- ---------------------------------------------------------------------------

/-- What holds when the first boundary passes have been run. -/
def Stage : Nat → Plan → Prop
  | 0, p => p.Orderly ∧ p.Plain
  | 1, p => p.Orderly ∧ Sharing [] p ∧ ∃ post, p.Bordered post ∧ p.Only post [.step, .meet, .closing]
  | 2, p => p.Orderly ∧ Revealing [] p ∧ ∃ post, p.Bordered post ∧ p.Only post [.step, .meet, .closing, .opening]
  | 3, p => p.Orderly ∧ ∃ post, Reading [] p post
  | _, p => p.Orderly ∧ ∃ post, Storing [] p post

theorem Stage.next (h : Stage i p) (hpass : Pass.boundaries[i]? = some pass) (run : pass.run p = .ok u q) : Stage (i + 1) q := by
  match i, hpass with
  | 0, rfl =>
    obtain ⟨hp, hplain⟩ := h
    exact ⟨hp.reworked (Pass.insertClose_reworks hp.coherent run),
      Pass.sharing_of_insertClose hp.indexed run, Pass.bordered_of_insertClose hp hplain run⟩
  | 1, rfl =>
    obtain ⟨hp, hsharing, _, hb, honly⟩ := h
    exact ⟨hp.reworked (Pass.insertOpen_reworks hp.coherent run),
      Pass.revealing_of_insertOpen hsharing run, Pass.bordered_of_insertOpen hp hb honly run⟩
  | 2, rfl =>
    obtain ⟨hp, -, _, hb, honly⟩ := h
    exact ⟨hp.reworked (Pass.insertRead_reworks hp.coherent run),
      Pass.reading_of_insertRead hp hb honly run⟩
  | 3, rfl =>
    obtain ⟨hp, _, hb⟩ := h
    exact ⟨hp.reworked (Pass.insertStore_reworks hp.coherent run),
      Pass.storing_of_insertStore hp hb run⟩

theorem Stage.of_forM (h : Stage 0 p) (hi : i ≤ Pass.boundaries.length)
    (run : (Pass.boundaries.take i).forM Pass.run p = .ok u q) : Stage i q := by
  induction i generalizing q u with
  | zero => exact run_forM_nil.mp run ▸ h
  | succ i ih =>
    rw [List.take_add_one, List.getElem?_eq_getElem hi, Option.toList_some] at run
    obtain ⟨r, hbefore, hlast⟩ := run_forM_append.mp run
    obtain ⟨_, hpass, hdone⟩ := run_forM_cons.mp hlast
    obtain rfl := run_forM_nil.mp hdone
    exact (ih (Nat.le_of_succ_le hi) hbefore).next (List.getElem?_eq_getElem hi) hpass

/-- A pass has nothing to do on what it leaves. -/
theorem Stage.stays (h : Stage (i + 1) p) (hpass : Pass.boundaries[i]? = some pass) : pass.run p = .ok () p := by
  match i, hpass with
  | 0, rfl => exact Pass.insertClose_of_sharing h.2.1
  | 1, rfl => exact Pass.insertOpen_of_revealing h.2.1
  | 2, rfl =>
    obtain ⟨hp, _, hb⟩ := h
    exact Pass.insertRead_of_reading hp.coherent hb
  | 3, rfl =>
    obtain ⟨hp, _, hb⟩ := h
    exact Pass.insertStore_of_storing hp.coherent hb

namespace Edit

/-- Run again right after its first run, a boundary pass changes nothing. -/
theorem boundary_rerun (optimize : Bool) (hp : p.Built) (hpass : Pass.boundaries[i]? = some pass)
    (hfree : ¬ Exhausts (do prepare optimize; (Pass.boundaries.take i).forM Pass.run; pass.run) p) :
    ∃ q r, (do prepare optimize; (Pass.boundaries.take i).forM Pass.run) p = .ok () q ∧ pass.run q = .ok () r ∧
      pass.run r = .ok () r := by
  have hsimple := hp.simple
  have hmem := List.mem_of_getElem? hpass
  have hbefore : ∀ pass ∈ Pass.boundaries.take i, pass ∈ Pass.boundaries := fun _ h => List.mem_of_mem_take h
  obtain ⟨s, recipients, n, -, -, -, hcarries⟩ := hp.exists_carries
  have hwp : wp (do prepare optimize; (Pass.boundaries.take i).forM Pass.run; pass.run) (fun _ _ => True) p :=
    .bind ((wp_prepare optimize hcarries).mono fun _ a _ ha =>
      .bind ((wp_boundaries hbefore ha).mono fun _ q _ hq => (wp_boundary hmem hq).mono fun _ _ _ _ => trivial))
  obtain ⟨_, r, hrun, -⟩ := hwp.exists_of_not_exhausts hfree
  obtain ⟨_, a, hprepare, hrest⟩ := run_bind.mp hrun
  obtain ⟨_, q, hpasses, hlast⟩ := run_bind.mp hrest
  obtain ⟨ha, -, hplaced⟩ := prepare_serves hsimple.toOrderly hprepare
  have hstage : Stage 0 a := ⟨ha, hplaced _ plain_placement hsimple.plain⟩
  have hi : i < Pass.boundaries.length := (List.getElem?_eq_some_iff.mp hpass).1
  refine ⟨q, r, run_bind.mpr ⟨(), a, hprepare, hpasses⟩, hlast, ?_⟩
  exact ((hstage.of_forM hi.le hpasses).next hpass hlast).stays hpass

/-- What two relations are put together to is opened in the first run, and in no second one. -/
theorem boundary_rerun_concatHeld : ∃ p q r, p.Built ∧ Pass.boundaries[1]? = some Pass.insertOpen ∧
    ¬ Exhausts (do prepare true; (Pass.boundaries.take 1).forM Pass.run; Pass.insertOpen.run) p ∧
    (do prepare true; (Pass.boundaries.take 1).forM Pass.run) p = .ok () q ∧ q.opAt 6 = none ∧
    Pass.insertOpen.run q = .ok () r ∧ r.opAt 6 = some .opening ∧ Pass.insertOpen.run r = .ok () r := by
  have hwrites : Workflow.writesTo Workflow.concatHeld (fun p =>
      runsTo (do prepare true; (Pass.boundaries.take 1).forM Pass.run; Pass.insertOpen.run) p fun r =>
        (after (do prepare true; (Pass.boundaries.take 1).forM Pass.run) p).opAt 6 = none ∧
          r.opAt 6 = some .opening) = true := by cbv
  obtain ⟨p, w, hwrite, hruns⟩ := Workflow.exists_of_writesTo hwrites
  obtain ⟨r, hrun, htest⟩ := exists_of_runsTo hruns
  obtain ⟨hbefore, hopened⟩ := of_decide_eq_true htest
  have hp : p.Built := ⟨_, w, hwrite⟩
  have hfree := not_exhausts_of_ok hrun
  obtain ⟨q, r', hq, hr, hstays⟩ := boundary_rerun true hp rfl hfree
  obtain rfl : r' = r := by
    obtain ⟨_, a, ha, hrest⟩ := run_bind.mp hrun
    obtain ⟨_, q', hq', hlast⟩ := run_bind.mp hrest
    cases hq.symm.trans ((bind_of_ok ha).trans hq')
    cases hr.symm.trans hlast
    rfl
  rw [after_of_ok hq] at hbefore
  exact ⟨p, q, r', hp, rfl, hfree, hq, hbefore, hr, hopened, hstays⟩

end Edit

end JointPlan
