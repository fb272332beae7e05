import JointPlan.Proofs.Permuting
import JointPlan.Proofs.Rerunning
import JointPlan.Proofs.Workflows

/-!
# At the border of a joint computation

What the first two boundary passes leave behind. The first one puts closings in front of joint computations and
nothing else: every joint computation with several inputs works on shares of the same parties from
then on, and columns stay as they are. The second one puts openings behind joint computations that
only feed local ones, so that no such computation is left.
-/

namespace JointPlan

open Plan Edit Boundary

namespace Node

variable {n m o : Node}

/-- The node is the same but for its storage, for what its operator is bound to, and for its inputs if it takes several. -/
structure Persists (n m : Node) : Prop where
  op : m.op.blank = n.op.blank
  name : m.rel.name = n.rel.name
  columns : m.rel.columns = n.rel.columns
  inputs : n.op.arity = .unary → m.inputs = n.inputs

namespace Persists

theorem refl : Persists n n := ⟨rfl, rfl, rfl, fun _ => rfl⟩

theorem trans (h₁ : Persists n m) (h₂ : Persists m o) : Persists n o where
  op := h₂.op.trans h₁.op
  name := h₂.name.trans h₁.name
  columns := h₂.columns.trans h₁.columns
  inputs hop := (h₂.inputs ((Op.arity_eq_of_blank_eq h₁.op).trans hop)).trans (h₁.inputs hop)

theorem of_outline_eq (houtline : m.outline = n.outline) (hcolumns : m.rel.columns = n.rel.columns) : Persists n m where
  op := blank_eq_of_outline_eq houtline
  name := (congrArg (fun n => n.rel.name) houtline :)
  columns := hcolumns
  inputs _ := inputs_eq_of_outline_eq houtline

end Persists

/-- The node is a closing, and it has the columns of the other node under its own name. -/
structure Closes (o n : Node) : Prop where
  op : ∃ storage, n.op = .closing storage
  columns : n.rel.columns = o.rel.columns.map fun c => { c with owner := n.rel.name }

theorem Closes.persists {n' o' : Node} (h : Closes o n) (ho : Persists o o') (hn : Persists n n') : Closes o' n' where
  op := by
    obtain ⟨storage, hop⟩ := h.op
    exact ⟨storage, Op.eq_of_blank_eq (hop ▸ hn.op) rfl⟩
  columns := by rw [hn.columns, h.columns, ho.columns, hn.name]

theorem Closes.arity (h : Closes o n) : n.op.arity = .unary := by
  obtain ⟨storage, hop⟩ := h.op
  rw [hop]
  rfl

end Node

/-- Columns that are numbered already get another owner only. -/
theorem Relation.number_of_numbered {r : Relation} {name : String} (h : r.Numbered) :
    Relation.number name 0 r.columns = r.columns.map fun c => { c with owner := name } := by
  refine List.ext_getElem? fun i => ?_
  rw [getElem?_number, List.getElem?_map]
  refine Option.map_congr fun c hc => ?_
  rw [Nat.zero_add, ← h i c hc]

theorem Op.Emits.columns_of_closing {storage : Storage} {r rel : Relation} (h : (Op.closing storage).Emits r rel)
    (hr : r.Numbered) : rel.columns = r.columns.map fun c => { c with owner := rel.name } := by
  obtain ⟨cols, hcols, hrel⟩ := h.columns
  have hsame : r.columns = cols := Option.some.inj (Except.ok.inj hcols)
  rw [hrel, ← hsame, Relation.number_of_numbered hr]

namespace Plan

variable {p q r : Plan} {id k parent : NodeId} {n o : Node} {storage : Storage} {rel : Relation}

-- ---------------------------------------------------------------------------
-- What comes in
-- ---------------------------------------------------------------------------

/-- Closings have come in, and nothing has gone. -/
structure Enclosed (p q : Plan) : Prop where
  persists : ∀ k n, p.nodes.get? k = some n → ∃ m, q.nodes.get? k = some m ∧ n.Persists m
  closes : ∀ k n, q.nodes.get? k = some n → p.nodes.get? k = none →
    ∃ u o, n.inputs = .unary u ∧ q.nodes.get? u = some o ∧ o.Closes n

namespace Enclosed

theorem of_persists (hpersists : ∀ k n, p.nodes.get? k = some n → ∃ m, q.nodes.get? k = some m ∧ n.Persists m)
    (hnone : ∀ k n, q.nodes.get? k = some n → p.nodes.get? k ≠ none) : p.Enclosed q :=
  ⟨hpersists, fun k n hn h => absurd h (hnone k n hn)⟩

theorem refl : p.Enclosed p := .of_persists (fun _ n hn => ⟨n, hn, .refl⟩) (by simp +contextual)

theorem trans (h₁ : p.Enclosed q) (h₂ : q.Enclosed r) : p.Enclosed r where
  persists k n hn := by
    obtain ⟨m, hm, h⟩ := h₁.persists k n hn
    obtain ⟨m', hm', h'⟩ := h₂.persists k m hm
    exact ⟨m', hm', h.trans h'⟩
  closes k n hn hnone := by
    cases hm : q.nodes.get? k with
    | none => exact h₂.closes k n hn hm
    | some m =>
      -- it came in before, and a closing keeps its input
      obtain ⟨u, o, hin, ho, hcloses⟩ := h₁.closes k m hm hnone
      obtain ⟨n', hn', hpersists⟩ := h₂.persists k m hm
      obtain ⟨o', ho', hpersists'⟩ := h₂.persists u o ho
      cases hn.symm.trans hn'
      exact ⟨u, o', (hpersists.inputs hcloses.arity).trans hin, ho', hcloses.persists hpersists' hpersists⟩

/-- Nothing comes in where storage is derived anew. -/
theorem of_outline_eq (houtline : q.outline = p.outline) (hcolumns : q.columnsAt = p.columnsAt) : p.Enclosed q := by
  refine .of_persists (fun k n hn => ?_) fun k n hn => ?_
  · obtain ⟨m, hm, hs⟩ := get?_of_outline_eq houtline.symm hn
    have hk := congrFun hcolumns k
    rw [columnsAt, columnsAt, hm, hn, Option.map_some, Option.map_some] at hk
    exact ⟨m, hm, .of_outline_eq hs.symm (Option.some.inj hk)⟩
  · obtain ⟨m, hm, -⟩ := get?_of_outline_eq houtline hn
    simp [hm]

theorem splice (hp : p.Indexed) (ho : p.nodes.get? parent = some o) (hemits : (Op.closing storage).Emits o.rel rel)
    (hn : p.nodes.get? id = some n) (hop : n.op.arity ≠ .unary) :
    p.Enclosed (p.splice parent (.singleton id) (.closing storage) rel) where
  persists k m hm := by
    refine ⟨_, by rw [get?_splice, if_neg (hp.coherent.ne_nextId hm), hm, Option.map_some], by simp, by simp, by simp, ?_⟩
    intro hunary
    rw [relinked_inputs, if_neg]
    rintro hk
    cases IdSet.mem_singleton.mp hk
    cases hm.symm.trans hn
    exact hop hunary
  closes k m hm hnone := by
    obtain ⟨rfl, rfl⟩ | ⟨-, m', hm', -⟩ := get?_splice_eq_some hm
    · refine ⟨parent, _, rfl, by rw [get?_splice, if_neg (hp.coherent.ne_nextId ho), ho, Option.map_some], ⟨storage, rfl⟩, ?_⟩
      rw [relinked_rel]
      exact hemits.columns_of_closing (hp.numbered parent o ho)
    · rw [hm'] at hnone
      cases hnone

theorem of_inserted (hp : p.Indexed) (h : p.Inserted parent (.singleton id) (.closing storage) q)
    (hn : p.nodes.get? id = some n) (hop : n.op.arity ≠ .unary) : p.Enclosed q := by
  obtain ⟨o, rel, ho, hemits, run⟩ := h.derived
  exact (splice hp ho hemits hn hop).trans <| .of_outline_eq
    ((Renews.forM fun c _ => Renews.refreshStorage.mono (Set.subset_univ {c})) run).outline
    ((Leads.forM fun _ _ => refreshStorage_columns).of_ok run)

end Enclosed

-- ---------------------------------------------------------------------------
-- Joint computations on shares
-- ---------------------------------------------------------------------------

/-- Several parties have shares of everything that the node gets and yields, and all of it is computed jointly. -/
structure Pools (p : Plan) (k : NodeId) (n : Node) : Prop where
  shares : ∃ parties : PartySet, 2 ≤ parties.size ∧ n.rel.storage.loci = [parties] ∧
    ∃ ins, p.inputRelations k = .ok ins ∧ ∀ r ∈ ins, r.storage.loci = [parties]
  parents : ∀ u ∈ n.parents, p.requiresMpc u = .ok true

theorem Sharing.pools (h : Sharing [] p) (hn : p.nodes.get? k = some n) (hop : n.op.arity = .binary ∨ n.op.arity = .nary)
    (hmpc : p.requiresMpc k = .ok true) : p.Pools k n := by
  have hcreate : n.op ≠ .create := by
    intro hcreate
    simp [hcreate, Op.arity] at hop
  have hborder : n.op.isBoundary = false := by
    cases hcase : n.op <;> simp_all [Op.arity, Op.isBoundary]
  have hjoint := h.joint k n hn hop List.not_mem_nil hmpc
  -- the output is where the inputs are
  have hstored : n.rel.storage = n.rel.storage.shared :=
    (h.steady k n hn hcreate List.not_mem_nil).storage_of_multi hn hop fun u hu => (hjoint u hu).1
  have hloci {st : Storage} (hst : st = n.rel.storage.shared) : st.loci = [n.rel.storage.members] := by
    rw [hst]
    rfl
  obtain ⟨order, horder⟩ := h.coherent.toLinked.exists_topSort
  obtain ⟨a, ha, b, hb, hab⟩ := (h.revealing horder).lagging.exists_ne h.coherent hn hborder hmpc
  obtain ⟨ins, hins⟩ := exists_inputRelations hn (h.coherent.toLinked.exists_input hn)
  refine ⟨⟨n.rel.storage.members, ?_, hloci hstored, ins, hins, fun r hr => ?_⟩, fun u hu => ?_⟩
  · by_contra hsize
    exact hab (IdSet.eq_of_size_le_one (by omega) ha hb)
  · obtain ⟨u, hu, m, hm, rfl⟩ := (mem_inputRelations hins hn).mp hr
    obtain ⟨⟨m', hm', hst⟩, -⟩ := hjoint u ⟨n, hn, hu⟩
    cases hm.symm.trans hm'
    exact hloci hst
  · exact (hjoint u ⟨n, hn, (h.coherent.parents hn).mp hu⟩).2

end Plan

namespace Boundary

variable {p q : Plan} {id : NodeId} {n : Node} {u : Unit}

theorem enclosed_of_refreshStorage (hp : p.Indexed) (run : refreshStorage id p = .ok u q) : q.Indexed ∧ p.Enclosed q :=
  ⟨(at_of_refreshStorage hp run).1,
    .of_outline_eq (Renews.refreshStorage run).outline (refreshStorage_columns.of_ok run)⟩

theorem enclosed_of_closeInputs (hp : p.Indexed) (hn : p.nodes.get? id = some n) (hop : n.op.arity ≠ .unary)
    (run : closeInputs id p = .ok u q) : q.Indexed ∧ p.Enclosed q := by
  obtain ⟨r, hstorage, hrun⟩ := run_closeInputs.mp run
  have hr := enclosed_of_refreshStorage hp hstorage
  obtain ⟨-, rfl⟩ | ⟨-, m, -, hloop⟩ := hrun
  · exact hr
  refine forM_loop (motive := fun _ s => s.Indexed ∧ p.Enclosed s) ?_ hr hloop
  rintro a left s t ⟨hs, henclosed⟩ hstep
  obtain ⟨rfl, -⟩ | hinserted := run_closeInput hs.coherent hstep
  · exact ⟨hs, henclosed⟩
  obtain ⟨n', hn', hpersists⟩ := henclosed.persists id n hn
  have hop' : n'.op.arity ≠ .unary := Op.arity_eq_of_blank_eq hpersists.op ▸ hop
  exact ⟨⟨hinserted.coherent hs.coherent, hinserted.numbered hs.numbered⟩,
    henclosed.trans (.of_inserted hs hinserted hn' hop')⟩

theorem enclosed_of_visitClose (hp : p.Indexed) (hn : p.nodes.get? id = some n)
    (run : visitClose id n.op p = .ok u q) : q.Indexed ∧ p.Enclosed q := by
  rw [visitClose] at run
  cases hop : n.op.arity <;> simp only [hop] at run
  case nullary =>
    obtain ⟨-, rfl⟩ := run_pure.mp run
    exact ⟨hp, .refl⟩
  case unary => exact enclosed_of_refreshStorage hp run
  all_goals exact enclosed_of_closeInputs hp hn (by simp [hop]) run

end Boundary

namespace Pass

variable {p q : Plan} {u : Unit}

theorem enclosed_of_insertClose (hp : p.Indexed) (run : insertClose.run p = .ok u q) :
    p.Enclosed q := by
  obtain ⟨r, ⟨-, hr⟩, -, hfinish⟩ := exists_of_visits (motive := fun _ s => s.Indexed ∧ p.Enclosed s) hp.coherent
    (fun _ _ => insertClose_visit_reworks) (fun _ _ => ⟨hp, .refl⟩)
    (fun ⟨hs, henclosed⟩ _ hn hvisit =>
      have ⟨ht, h⟩ := enclosed_of_visitClose hs hn hvisit
      ⟨ht, henclosed.trans h⟩) run
  exact hr.trans (.of_outline_eq (Renews.propagateStorage hfinish).outline (propagateStorage_columns.of_ok hfinish))

/-- The first boundary pass makes joint computations with several inputs work on shares. It adds closings only. -/
theorem insertClose_pools (hp : p.WellFormed) (hnumbered : p.Numbered) (run : insertClose.run p = .ok () q) :
    (∀ k n, q.nodes.get? k = some n → (n.op.arity = .binary ∨ n.op.arity = .nary) → q.requiresMpc k = .ok true →
      q.Pools k n) ∧ p.Enclosed q := by
  have hindexed : p.Indexed := ⟨hp.coherent, hnumbered⟩
  exact ⟨fun k n hn hop hmpc => (sharing_of_insertClose hindexed run).pools hn hop hmpc,
    enclosed_of_insertClose hindexed run⟩

theorem insertClose_pools_concatHeld : ∃ p q n, p.WellFormed ∧ p.Numbered ∧ insertClose.run p = .ok () q ∧
    q.nodes.get? 2 = some n ∧ n.op = .concat ∧ q.requiresMpc 2 = .ok true ∧ q.Pools 2 n ∧ p.Enclosed q := by
  have hwrites : Workflow.writesTo Workflow.concatHeld (fun p => runsTo insertClose.run p fun q =>
      q.opAt 2 = some .concat ∧ q.requiresMpc 2 = .ok true) = true := by cbv
  obtain ⟨p, w, hwrite, hruns⟩ := Workflow.exists_of_writesTo hwrites
  obtain ⟨q, run, htest⟩ := exists_of_runsTo hruns
  obtain ⟨hop, hmpc⟩ := of_decide_eq_true htest
  obtain ⟨n, hn, hop⟩ := opAt_eq_some.mp hop
  have hbuilt : p.Built := ⟨_, w, hwrite⟩
  have hsimple := hbuilt.simple
  obtain ⟨hpools, henclosed⟩ := insertClose_pools hsimple.coherent.wellFormed hsimple.sound.numbered run
  exact ⟨p, q, n, hsimple.coherent.wellFormed, hsimple.sound.numbered, run, hn, hop, hmpc,
    hpools 2 n hn (.inr (by rw [hop]; rfl)) hmpc, henclosed⟩

end Pass

-- ---------------------------------------------------------------------------
-- Openings
-- ---------------------------------------------------------------------------

namespace Plan

variable {p : Plan} {k : NodeId} {n : Node}

theorem Revealing.exists_child (h : Revealing [] p) (hn : p.nodes.get? k = some n) (hchildren : n.children ≠ ∅)
    (hop : n.op.isBoundary = false) (hmpc : p.requiresMpc k = .ok true) : ∃ c ∈ n.children, p.requiresMpc c = .ok true := by
  obtain ⟨v, hv⟩ := IdSet.exists_mem_of_ne_empty hchildren
  obtain ⟨c, hc, hjoint⟩ := h.revealed k n hn hop List.not_mem_nil hmpc v ((h.coherent.children hn).mp hv)
  exact ⟨c, (h.coherent.children hn).mpr hc, hjoint⟩

theorem Revealing.isLowerBoundary (h : Revealing [] p) (hn : p.nodes.get? k = some n) (hchildren : n.children ≠ ∅)
    (hop : n.op.isBoundary = false) : p.isLowerBoundary k = .ok false := by
  obtain ⟨lower, hlower⟩ := h.coherent.toLinked.exists_isLowerBoundary hn
  cases lower with
  | false => exact hlower
  | true =>
    obtain ⟨hmpc, hlocal⟩ := (isLowerBoundary_eq_true hn).mp hlower
    obtain ⟨c, hc, hjoint⟩ := h.exists_child hn hchildren hop hmpc
    cases hjoint.symm.trans (hlocal c hc)

end Plan

namespace Edit

variable {p : Plan} {i : Nat}

/-- The first boundary passes finish on a plan that has been built and prepared, and they get as far as they should. -/
theorem exists_stage (optimize : Bool) (hp : p.Built) (hi : i ≤ Pass.boundaries.length)
    (hfree : ¬ Exhausts (do prepare optimize; (Pass.boundaries.take i).forM Pass.run) p) :
    ∃ q, (do prepare optimize; (Pass.boundaries.take i).forM Pass.run) p = .ok () q ∧ Stage i q := by
  have hsimple := hp.simple
  have hmem : ∀ pass ∈ Pass.boundaries.take i, pass ∈ Pass.boundaries := fun _ h => List.mem_of_mem_take h
  obtain ⟨s, recipients, n, -, -, -, hcarries⟩ := hp.exists_carries
  have hwp : wp (do prepare optimize; (Pass.boundaries.take i).forM Pass.run) (fun _ _ => True) p :=
    .bind ((wp_prepare optimize hcarries).mono fun _ a _ ha =>
      (wp_boundaries hmem ha).mono fun _ _ _ _ => trivial)
  obtain ⟨_, q, run, -⟩ := hwp.exists_of_not_exhausts hfree
  obtain ⟨_, a, hprepare, hpasses⟩ := run_bind.mp run
  obtain ⟨ha, -, hplaced⟩ := prepare_serves hsimple.toOrderly hprepare
  have hstart : Stage 0 a := ⟨ha, hplaced _ plain_placement hsimple.plain⟩
  exact ⟨q, run, hstart.of_forM hi hpasses⟩

/-- The second boundary pass leaves no computation that is joint and feeds local ones only. Nodes that stand at the
border themselves are no computations. -/
theorem insertOpen_reveals (optimize : Bool) (hp : p.Built)
    (hfree : ¬ Exhausts (do prepare optimize; Pass.insertClose.run; Pass.insertOpen.run) p) :
    ∃ q, (do prepare optimize; Pass.insertClose.run; Pass.insertOpen.run) p = .ok () q ∧
      ∀ k n, q.nodes.get? k = some n → n.children ≠ ∅ → n.op.isBoundary = false →
        q.isLowerBoundary k = .ok false ∧
          (q.requiresMpc k = .ok true → ∃ c ∈ n.children, q.requiresMpc c = .ok true) := by
  have hpasses : (do Pass.insertClose.run; Pass.insertOpen.run) = (Pass.boundaries.take 2).forM Pass.run := by
    simp [Pass.boundaries]
  rw [hpasses] at hfree ⊢
  obtain ⟨q, run, -, hq, -⟩ := exists_stage optimize hp (by decide) hfree
  exact ⟨q, run, fun k n hn hchildren hop => ⟨hq.isLowerBoundary hn hchildren hop, hq.exists_child hn hchildren hop⟩⟩

/-- What two relations are put together to is delivered. It is opened before that, and then it is not joint any longer. -/
theorem insertOpen_reveals_concatHeld : ∃ p q n, p.Built ∧
    ¬ Exhausts (do prepare true; Pass.insertClose.run; Pass.insertOpen.run) p ∧
    (do prepare true; Pass.insertClose.run; Pass.insertOpen.run) p = .ok () q ∧
    q.nodes.get? 2 = some n ∧ n.op = .concat ∧ n.children ≠ ∅ ∧ q.requiresMpc 2 = .ok true ∧
    q.isLowerBoundary 2 = .ok false ∧ ∃ c ∈ n.children, q.requiresMpc c = .ok true := by
  have hwrites : Workflow.writesTo Workflow.concatHeld (fun p =>
      runsTo (do prepare true; Pass.insertClose.run; Pass.insertOpen.run) p fun q => q.requiresMpc 2 = .ok true ∧
        (q.nodes.get? 2).any fun n => n.op = .concat ∧ n.children ≠ ∅) = true := by cbv
  obtain ⟨p, w, hwrite, hruns⟩ := Workflow.exists_of_writesTo hwrites
  obtain ⟨q, run, htest⟩ := exists_of_runsTo hruns
  obtain ⟨hmpc, hnode⟩ := of_decide_eq_true htest
  have hp : p.Built := ⟨_, w, hwrite⟩
  have hfree := not_exhausts_of_ok run
  obtain ⟨q', run', hreveals⟩ := insertOpen_reveals true hp hfree
  cases run.symm.trans run'
  obtain ⟨n, hn, hnode⟩ := (Option.any_eq_true _ _).mp hnode
  obtain ⟨hop, hchildren⟩ := of_decide_eq_true hnode
  obtain ⟨hlower, hchild⟩ := hreveals 2 n hn hchildren (by rw [hop]; rfl)
  exact ⟨p, q, n, hp, hfree, run, hn, hop, hchildren, hmpc, hlower, hchild hmpc⟩

end Edit

end JointPlan
