import JointPlan.Pass.PushDown
import JointPlan.Proofs.Distribution

/-!
# Pushing work below concatenations keeps the result

What each visit of the pass does is one of three things: nothing, a distribution of
the work at the node over the inputs of a concatenation, or a copy of a concatenation
for each reader. Every one of them keeps the invariant of the sweep and serves the
same leaves, so the whole pass does.
-/

namespace JointPlan

namespace Relation

variable {r : Relation} {start count i : Nat} {c : Column} {cs : List Column}

theorem Numbered.columnAt (h : r.Numbered) (hc : r.columnAt i = .ok c) : c.index = i := by
  unfold Relation.columnAt at hc
  split at hc
  · cases hc
    exact h i c ‹_›
  · cases hc

theorem Numbered.columnSlice (h : r.Numbered) (hcs : PushDown.columnSlice r start count = .ok cs) :
    Op.positions cs = (List.range count).map (start + ·) := by
  unfold PushDown.columnSlice at hcs
  split at hcs
  · cases hcs
    refine List.ext_getElem (by simp [Op.positions]; omega) fun i hi _ => ?_
    have hi : start + i < r.columns.length := by
      simp [Op.positions] at hi
      omega
    simpa [Op.positions] using h (start + i) _ (List.getElem?_eq_getElem hi)
  · cases hcs

theorem Numbered.positions_columns (h : r.Numbered) :
    Op.positions r.columns = List.range r.columns.length := by
  refine List.ext_getElem (by simp [Op.positions]) fun i hi _ => ?_
  simpa [Op.positions] using h i _ (List.getElem?_eq_getElem (by simpa using hi))

end Relation

namespace PushDown

open Plan Edit

variable {p q : Plan} {D X id : NodeId} {x n : Node} {rest : List NodeId} {op : Op}

-- ---------------------------------------------------------------------------
-- Finished runs
-- ---------------------------------------------------------------------------

theorem run_boundaryConcat? {concat? : Option NodeId} (run : boundaryConcat? X p = .ok concat? q) :
    q = p ∧ ∀ D, concat? = some D → ∃ t x, p.Entry D X t x := by
  simp only [boundaryConcat?, run_bind, run_node] at run
  obtain ⟨x, _, ⟨hx, rfl⟩, run⟩ := run
  have hnone (run : (pure none : Edit (Option NodeId)) p = .ok concat? q) :
      q = p ∧ ∀ D, concat? = some D → ∃ t x, p.Entry D X t x := by
    obtain ⟨rfl, rfl⟩ := run_pure.mp run
    exact ⟨rfl, by simp⟩
  cases hin : x.inputs <;> simp only [hin] at run
  case unary parent =>
    split at run
    · exact hnone run
    simp only [run_bind, run_node] at run
    obtain ⟨t, _, ⟨ht, rfl⟩, run⟩ := run
    split at run
    · exact hnone run
    rename_i hop
    simp only [run_bind, run_ask, run_pure] at run
    obtain ⟨flag, _, ⟨hflag, rfl⟩, rfl, rfl⟩ := run
    refine ⟨rfl, fun D h => ?_⟩
    cases flag with
    | false => cases h
    | true =>
      cases h
      exact ⟨t, x, ht, hx, hin, not_not.mp hop, hflag⟩
  all_goals exact hnone run

/-- An operator that is appended. -/
theorem spliced_of_append {name : String} (hp : p.Coherent)
    (hsized : ∀ n ds, p.nodes.get? X = some n → op = .distinct ds → n.rel.columns.length = ds.length)
    (run : append X op name p = .ok id q) :
    id = p.nextId ∧ ∃ n rel, p.nodes.get? X = some n ∧ p.Spliced X n.children op rel q ∧ rel.name = name := by
  simp only [append, run_bind, run_node, run_pure] at run
  obtain ⟨n, _, ⟨hn, rfl⟩, new, r, add, _, _, insert, rfl, rfl⟩ := run
  obtain ⟨-, rfl, -⟩ := run_addNode.mp add
  refine ⟨rfl, n, _, hn, spliced_of_insertAfterAll hp.toLinked add (n.rel.numbered_rename _)
    (fun ds hds => ?_) hn insert, rfl⟩
  rw [Relation.length_rename, hsized n ds hn hds]

-- ---------------------------------------------------------------------------
-- Splitting an aggregate
-- ---------------------------------------------------------------------------

section Split

variable {p₁ : Plan} {part : Op} {last out : String} {width : Nat}

/-- One operator below the part. -/
theorem parted_of_append (hp : p.Coherent) (exchanged : p.Exchanged X x part p₁)
    (splits : p.Sound → x.op.Splits part [op])
    (hsized : ∀ n ds, p₁.nodes.get? X = some n → op = .distinct ds →
      n.rel.columns.length = ds.length)
    (run : append X op last p₁ = .ok id q) : p.Parted X x part [op] p₁ q where
  toExchanged := exchanged
  splits := splits
  appended := by
    obtain ⟨-, n, rel, hn, spliced, -⟩ := spliced_of_append (exchanged.coherent hp) hsized run
    exact .cons hn spliced .nil

theorem exchanged_of_replaceOp (hx : p.nodes.get? X = some x) (harity : x.op.arity = .unary)
    (hsized : ∀ ds, op ≠ .distinct ds) (run : replaceOp X op p = .ok () q) : p.Exchanged X x op q := by
  obtain ⟨x', hx', hsame, h⟩ := run_replaceOp run
  cases hx.symm.trans hx'
  have hstart (hs : p.Sound) : (p.set X { x with op }).Sound :=
    hs.set ⟨(hs _ _ hx).numbered, fun ds h => absurd h (hsized ds)⟩
  exact ⟨hx, harity, hsame.symm.trans harity, h.outline, fun hs => h.touched (hstart hs),
    fun hs => h.sound (hstart hs)⟩

theorem parted_of_globalSum (hp : p.Coherent) (hx : p.nodes.get? X = some x)
    (harity : x.op.arity = .unary)
    (splits : ∀ groups c, Op.positions groups = List.range width → c.index = width → x.op.Splits x.op [.sum groups c out])
    (hop : globalSum x.rel width out = .ok op) (run : append X op last p = .ok id q) : p.Parted X x x.op [op] p q := by
  simp only [globalSum, bind_eq_ok, pure_eq_ok] at hop
  obtain ⟨groups, hgroups, c, hc, rfl⟩ := hop
  refine parted_of_append hp (.refl hx harity) (fun hs => splits groups c ?_ ?_) (by simp) run
  · simpa using (hs X x hx).numbered.columnSlice hgroups
  · exact (hs X x hx).numbered.columnAt hc

theorem parted_of_distinct {cs : List Column} (hp : p.Coherent)
    (hx : p.nodes.get? X = some x) (hop : x.op = .distinct cs)
    (run : append X (.distinct x.rel.columns) last p = .ok id q) :
    p.Parted X x x.op [.distinct x.rel.columns] p q := by
  refine parted_of_append hp (.refl hx (by rw [hop]; rfl)) (fun hs => ?_) ?_ run
  · rw [hop]
    exact .distinct (by rw [(hs X x hx).numbered.positions_columns, (hs X x hx).sized cs hop])
  · intro n ds hn hds
    cases hx.symm.trans hn
    cases hds
    rfl

theorem parted_of_mean {groups : List Column} {c : Column} {sumName countName : String} {y : Node}
    (hp : p.Coherent) (hx : p.nodes.get? X = some x) (hop : x.op = .mean groups c out none)
    (replace : replaceOp X (.sumCount groups c sumName countName) p = .ok () p₁)
    (hy : p₁.nodes.get? X = some y)
    (hglobal : (do
      return Op.mean (← columnSlice y.rel 0 groups.length) (← y.rel.columnAt groups.length) out
        (some (← y.rel.columnAt (groups.length + 1)))) = Except.ok op)
    (run : append X op last p₁ = .ok id q) :
    p.Parted X x (.sumCount groups c sumName countName) [op] p₁ q := by
  have exchanged := exchanged_of_replaceOp hx (by rw [hop]; rfl) (by simp) replace
  simp only [bind_eq_ok, pure_eq_ok] at hglobal
  obtain ⟨groups', hgroups, total, htotal, size, hsize, rfl⟩ := hglobal
  refine parted_of_append hp exchanged (fun hs => ?_) (by simp) run
  have hnumbered := (exchanged.sound hs X y hy).numbered
  rw [hop]
  exact .mean (by simpa using hnumbered.columnSlice hgroups) (hnumbered.columnAt htotal) (hnumbered.columnAt hsize)

theorem parted_of_stdDev {groups : List Column} {c : Column} {y z : Node} {r s : Plan} {op' : Op}
    {sumName squaresName countName varianceName sumsName spreadName : String} {sums spread : NodeId}
    (hp : p.Coherent) (hx : p.nodes.get? X = some x) (hop : x.op = .stdDev groups c out)
    (replace : replaceOp X (.sumSquaresCount groups c sumName squaresName countName) p = .ok () p₁)
    (hy : p₁.nodes.get? X = some y)
    (hsums : (do
      return Op.columnSums (← columnSlice y.rel 0 groups.length) (← columnSlice y.rel groups.length 3)) =
        Except.ok op)
    (run : append X op sumsName p₁ = .ok sums r) (hz : r.nodes.get? sums = some z)
    (hspread : (do
      return Op.variance (← columnSlice z.rel 0 groups.length) (← z.rel.columnAt groups.length)
        (← z.rel.columnAt (groups.length + 1)) (← z.rel.columnAt (groups.length + 2)) varianceName) =
        Except.ok op')
    (run' : append sums op' spreadName r = .ok spread s)
    (run'' : append spread (.squareRoot out) last s = .ok id q) :
    p.Parted X x (.sumSquaresCount groups c sumName squaresName countName) [op, op', .squareRoot out]
      p₁ q := by
  have exchanged := exchanged_of_replaceOp hx (by rw [hop]; rfl) (by simp) replace
  have hp₁ := exchanged.coherent hp
  simp only [bind_eq_ok, pure_eq_ok] at hsums hspread
  obtain ⟨groups₁, hgroups₁, cs, hcs, rfl⟩ := hsums
  obtain ⟨groups₂, hgroups₂, total, htotal, squares, hsquares, size, hsize, rfl⟩ := hspread
  obtain ⟨rfl, n, rel, hn, first, -⟩ := spliced_of_append hp₁ (by simp) run
  obtain ⟨rfl, n', rel', hn', second, -⟩ :=
    spliced_of_append (first.coherent hp₁) (by simp) run'
  obtain ⟨rfl, n'', rel'', hn'', third, -⟩ := spliced_of_append
    (second.coherent (first.coherent hp₁)) (by simp) run''
  exact {
    toExchanged := exchanged
    splits := fun hs => by
      have hnumbered := (exchanged.sound hs X y hy).numbered
      have hnumbered' := (first.sound (exchanged.sound hs) _ z hz).numbered
      rw [hop]
      exact .stdDev (by simpa using hnumbered.columnSlice hgroups₁) (hnumbered.columnSlice hcs)
        (by simpa using hnumbered'.columnSlice hgroups₂) (hnumbered'.columnAt htotal)
        (hnumbered'.columnAt hsquares) (hnumbered'.columnAt hsize)
    appended := .cons hn first (.cons hn' second (.cons hn'' third .nil)) }

theorem eq_of_splitOp (run : splitOp X x p = .ok false q) : q = p := by
  cases hop : x.op <;> simp only [splitOp, hop, run_bind, run_discard, run_ask, run_pure] at run
  case mean groups c out weight =>
    cases weight with
    | some weight => exact (run_pure.mp run).2.symm
    | none =>
      simp only [run_bind, run_pure] at run
      simp at run
  all_goals simp_all

/-- What stays at the node is an operator for each input, and what is appended brings the
results together. -/
theorem parted_of_splitOp (hp : p.Coherent) (hx : p.nodes.get? X = some x)
    (run : splitOp X x p = .ok true q) :
    ∃ part ops p₁, p.Parted X x part ops p₁ q := by
  cases hop : x.op <;> simp only [splitOp, hop, run_bind, run_discard, run_ask, run_pure] at run
  case sum groups c out =>
    obtain ⟨global, _, ⟨hglobal, rfl⟩, _, _, ⟨_, run⟩, -, rfl⟩ := run
    refine ⟨_, _, _, parted_of_globalSum hp hx ?_ ?_ hglobal run⟩ <;> rw [hop]
    · rfl
    · exact fun _ _ hgroups hc => .sum hgroups hc
  case count groups out =>
    obtain ⟨global, _, ⟨hglobal, rfl⟩, _, _, ⟨_, run⟩, -, rfl⟩ := run
    refine ⟨_, _, _, parted_of_globalSum hp hx ?_ ?_ hglobal run⟩ <;> rw [hop]
    · rfl
    · exact fun _ _ hgroups hc => .count hgroups hc
  case numRows out =>
    obtain ⟨global, _, ⟨hglobal, rfl⟩, _, _, ⟨_, run⟩, -, rfl⟩ := run
    refine ⟨_, _, _, parted_of_globalSum hp hx ?_ ?_ hglobal run⟩ <;> rw [hop]
    · rfl
    · intro groups c hgroups hc
      obtain rfl : groups = [] := by simpa [Op.positions] using hgroups
      exact .numRows hc
  case distinct cs =>
    obtain ⟨_, _, ⟨_, run⟩, -, rfl⟩ := run
    exact ⟨_, _, _, parted_of_distinct hp hx hop run⟩
  case mean groups c out weight =>
    cases weight with
    | some weight => simp at run
    | none =>
      simp only [run_bind, run_discard, run_ask, run_pure, run_node] at run
      obtain ⟨_, p₁, replace, y, _, ⟨hy, rfl⟩, global, _, ⟨hglobal, rfl⟩, _, _, ⟨_, run⟩, -, rfl⟩ := run
      exact ⟨_, _, _, parted_of_mean hp hx hop replace hy hglobal run⟩
  case stdDev groups c out =>
    simp only [run_node] at run
    obtain ⟨_, p₁, replace, y, _, ⟨hy, rfl⟩, op₁, _, ⟨hsums, rfl⟩, sums, r, run₁, z, _, ⟨hz, rfl⟩, op₂, _,
      ⟨hspread, rfl⟩, spread, s, run₂, _, _, ⟨_, run₃⟩, -, rfl⟩ := run
    exact ⟨_, _, _, parted_of_stdDev hp hx hop replace hy hsums run₁ hz hspread run₂ run₃⟩
  all_goals simp at run

end Split

-- ---------------------------------------------------------------------------
-- Copying a concatenation for each reader
-- ---------------------------------------------------------------------------

/-- A node has got a copy for each of its children but one: what holds while the children
in `cs` have got none is kept from copy to copy, and one child has none in the end. -/
theorem forkNode_loop {motive : NodeSet → Plan → Prop} {copies : List NodeId} (hp : p.Linked)
    (hn : p.nodes.get? X = some n) (start : motive n.children p)
    (step : ∀ child other position cs copy p q, motive cs p → child ∈ cs → other ∈ cs → other ≠ child →
      forkFor X n position child p = .ok copy q → motive (cs.erase child) q)
    (run : forkNode X p = .ok copies q) : ∃ cs, motive cs q ∧ cs.size ≤ 1 := by
  simp only [forkNode, run_bind, run_node, run_ask] at run
  obtain ⟨n', _, ⟨hn', rfl⟩, children, _, ⟨hsorted, rfl⟩, run⟩ := run
  cases hn.symm.trans hn'
  have hperm := sortedChildren_perm hp hn hsorted
  have hmem : ∀ c, c ∈ children ↔ c ∈ n.children := fun c => hperm.mem_iff.trans IdSet.mem_toList
  have hnodup : children.Nodup := hperm.nodup_iff.mpr (IdSet.nodup_toList _)
  cases children with
  | nil =>
    obtain ⟨-, rfl⟩ := run_mapM_nil.mp run
    exact ⟨_, start, IdSet.size_le_one fun a ha => absurd ((hmem a).mpr ha) List.not_mem_nil⟩
  | cons first others =>
    have hothers : ((first :: others).zipIdx.drop 1).map Prod.fst = others := by
      rw [List.map_drop, List.zipIdx_map_fst]
      rfl
    obtain ⟨hfirst, hnodup⟩ := List.nodup_cons.mp hnodup
    -- the first child is never the one that gets a copy
    obtain ⟨cs, ⟨h, -⟩, hcs⟩ := forkFors_loop (motive := fun cs p => motive cs p ∧ first ∈ cs)
      (fun a ha cs copy p q h hc run => by
        have ha : a.1 ∈ others := hothers ▸ List.mem_map_of_mem ha
        have hne : first ≠ a.1 := fun h => hfirst (h ▸ ha)
        exact ⟨step a.1 first a.2 cs copy p q h.1 hc h.2 hne run,
          IdSet.mem_erase.mpr ⟨h.2, hne⟩⟩)
      (by rw [hothers]; exact fun c hc => (hmem c).mp (List.mem_cons_of_mem _ hc))
      (by rwa [hothers]) ⟨start, (hmem first).mp List.mem_cons_self⟩ run
    rw [hothers] at hcs
    have hleft : ∀ c ∈ cs, c = first := fun c hc =>
      (List.mem_cons.mp ((hmem c).mpr (hcs c hc).1)).resolve_right (hcs c hc).2
    exact ⟨cs, h, IdSet.size_le_one fun a ha b hb => (hleft a ha).trans (hleft b hb).symm⟩

/-- What every single copy preserves. -/
theorem forkNode_forks {motive : Plan → Prop} {copies : List NodeId} (hp : p.Coherent)
    (hn : p.nodes.get? X = some n) (start : motive p)
    (step : ∀ {child cs rel r s}, r.Coherent → r.Forked X child { n with children := cs } rel s →
      motive r → motive s)
    (run : forkNode X p = .ok copies q) : motive q := by
  obtain ⟨cs, ⟨-, -, h⟩, -⟩ := forkNode_loop
    (motive := fun cs r => r.Coherent ∧ r.nodes.get? X = some { n with children := cs } ∧ motive r)
    hp.toLinked hn ⟨hp, hn, start⟩ (fun _ _ _ _ _ _ _ ⟨hr, hnode, h⟩ hc _ _ run => by
      obtain ⟨-, forked⟩ := forked_of_forkFor hr.toLinked hnode hc run
      exact ⟨forked.coherent hr, forked.left, step hr forked h⟩) run
  exact h

/-- Some readers of the node `X`, which is `n` in `p`, have got a copy of it; the readers in
`cs` have not. -/
structure Forking (p : Plan) (X : NodeId) (n : Node) (cs : NodeSet) (r : Plan) : Prop extends r.Orderly where
  node : r.nodes.get? X = some { n with children := cs }
  left : ∀ c ∈ cs, c ∈ n.children
  nextId_le : p.nextId ≤ r.nextId
  framed : Framed ({k | p.nextId ≤ k} ∪ {c | c ∈ n.children})
    ({k | p.nextId ≤ k} ∪ {X} ∪ {u | u ∈ n.parents}) p r
  single : ∀ k m, r.nodes.get? k = some m → p.nextId ≤ k → m.children.size ≤ 1
  ops_of : ∀ k m, r.nodes.get? k = some m → m.op.bare = n.op.bare ∨ ∃ o, p.nodes.get? k = some o ∧ m.op.bare = o.op.bare
  serves : Serves p r

namespace Forking

variable {r s : Plan} {cs : NodeSet} {child copy : NodeId} {position : Nat}

theorem start (h : p.Sweeping rest) (hn : p.nodes.get? X = some n) : Forking p X n n.children p where
  toOrderly := h.toOrderly
  node := hn
  left _ hc := hc
  nextId_le := Nat.le_refl _
  framed := .refl
  single _ _ hm hk := absurd (h.coherent.below hm) (Nat.not_lt.mpr hk)
  ops_of _ m hm := .inr ⟨m, hm, rfl⟩
  serves := .refl

theorem step (h : Forking p X n cs r) (hp : p.Coherent) (hn : p.nodes.get? X = some n)
    (hop : n.op ≠ .create) (hchild : child ∈ cs) (run : forkFor X n position child r = .ok copy s) : Forking p X n (cs.erase child) s := by
  obtain ⟨rfl, forked⟩ := forked_of_forkFor h.coherent.toLinked h.node hchild run
  have hparents : ∀ u ∈ n.parents, u < p.nextId ∧ u ≠ X := by
    intro u hu
    have hfeeds := hp.feeds_of_mem_parents hn hu
    exact ⟨hp.source_lt hfeeds, hp.ne_of_feeds hfeeds⟩
  have hcases {k : NodeId} {m : Node} (hm : s.nodes.get? k = some m) :
      (k = r.nextId ∧ m.op.bare = n.op.bare ∧ m.children = .singleton child) ∨
        ∃ m', r.nodes.get? k = some m' ∧ m.op.bare = m'.op.bare ∧
          m.children = (forkedNode X child r.nextId { n with children := cs } k m').children := by
    obtain ⟨o, ho, hs⟩ := get?_of_skeleton_eq (forked.touched h.sound).skeleton hm
    rw [Node.bare_eq_of_skeleton_eq hs, Node.children_eq_of_skeleton_eq hs]
    rcases get?_forked_eq_some ho with ⟨rfl, rfl⟩ | ⟨-, m', hm', rfl⟩
    · exact .inl ⟨rfl, rfl, rfl⟩
    · exact .inr ⟨m', hm', by rw [forkedNode_op], rfl⟩
  refine
    { coherent := forked.coherent h.coherent
      sound := forked.sound h.sound
      node := forked.left
      left := fun c hc => h.left c (IdSet.mem_erase.mp hc).1
      nextId_le := ?_
      framed := h.framed.trans ((forked.framed h.sound).mono ?_ ?_)
      single := fun k m hm hk => ?_
      ops_of := fun k m hm => ?_
      serves := h.serves.trans (forked.serves h.coherent h.sound hop) }
  · exact (h.nextId_le.trans (Nat.le_succ _)).trans_eq forked.nextId_eq.symm
  · rintro k (rfl | rfl)
    · exact .inl h.nextId_le
    · exact .inr (h.left _ hchild)
  · rintro k ((rfl | rfl) | hk)
    · exact .inl (.inl h.nextId_le)
    · exact .inl (.inr rfl)
    · exact .inr hk
  · rcases hcases hm with ⟨-, -, hchildren⟩ | ⟨m', hm', -, hchildren⟩
    · rw [hchildren]
      exact Nat.le_refl 1
    · have hkX : k ≠ X := by rintro rfl; exact absurd (hp.below hn) (Nat.not_lt.mpr hk)
      have hkparent : k ∉ n.parents := fun hmem => absurd (hparents k hmem).1 (Nat.not_lt.mpr hk)
      have hsame : m.children = m'.children := by
        rw [hchildren]
        ext c
        simp [mem_forkedNode_children, hkX, hkparent]
      rw [hsame]
      exact h.single k m' hm' hk
  · rcases hcases hm with ⟨-, hbare, -⟩ | ⟨m', hm', hbare, -⟩
    · exact .inl hbare
    · exact (h.ops_of k m' hm').imp hbare.trans fun ⟨o, ho, hbare'⟩ => ⟨o, ho, hbare.trans hbare'⟩

theorem placed {P : NodeId → Op → Prop} (hP : Placement P) (h : Forking p X n cs r) (hop : n.op = .concat)
    (hp : p.Placed P) : r.Placed P := by
  intro k m hm
  rcases h.ops_of k m hm with hbare | ⟨o, ho, hbare⟩
  · exact hP.bare hbare (hP.inner (by rw [hop]; rfl))
  · exact hP.bare hbare (hp k o ho)

/-- All readers but one have got a copy. -/
theorem sweeping (h : Forking p X n cs q) (hp : p.Sweeping (X :: rest))
    (hn : p.nodes.get? X = some n) (henters : p.isUpperBoundary X = .ok true)
    (hcs : cs.size ≤ 1) : q.Sweeping rest := by
  have hc := hp.coherent
  refine hp.rework ({X} ∪ {u | u ∈ rest}) (by simp) ?_ h.framed ?_ ?_ ?_ h.toOrderly ?_
  · rintro u w (rfl | hu) huw
    · exact .inr (hp.mem_of_feeds_head huw)
    · exact .inr (hc.mem_of_feeds hp.ordered.2.2 hu huw)
  · rintro k (hk | hk)
    · exact .inl hk
    · exact .inr (.inr (hp.mem_of_feeds_head ((hc.children hn).mp hk)))
  · rintro u ((hu | hu) | hu) hlate hlt
    · exact absurd hlt (Nat.not_lt.mpr hu)
    · exact absurd (.inl hu) hlate
    · exact ((isUpperBoundary_eq_true hn).mp henters).2 u hu
  · rintro u hu ((hold | rfl) | hparent)
    · exact Nat.not_lt.mpr hold (hp.below_of_mem (List.mem_cons_of_mem _ hu))
    · exact hp.ordered.1 hu
    · exact hp.ordered.1 (hc.mem_of_feeds hp.ordered.2.2 hu (hc.feeds_of_mem_parents hn hparent))
  · rintro k m hm - hk ((rfl | hrest) | hnew)
    · cases h.node.symm.trans hm
      exact hcs
    · exact absurd hrest hk
    · exact h.single k m hm hnew

end Forking

-- ---------------------------------------------------------------------------
-- What a visit does
-- ---------------------------------------------------------------------------

/-- What a finished visit has done at the node `X`. -/
inductive Visited (p : Plan) (X : NodeId) (x : Node) (q : Plan) : Prop
  | skipped (same : q = p)
      (narrow : x.op = .concat → 1 < x.children.size → p.isUpperBoundary X ≠ .ok true)
  | distributed {D : NodeId} {t t' b : Node} {part : Op} {ops : List Op} {p₁ p₂ : Plan}
      (h : p.Distributed D X t x part ops q p₁ p₂ t' b)
  | copied {copies : List NodeId} (concat : x.op = .concat) (enters : p.isUpperBoundary X = .ok true)
      (run : forkNode X p = .ok copies q)

variable {u : Unit}

theorem fork_visited (hx : p.nodes.get? X = some x) (hop : x.op = .concat)
    (run : fork X p = .ok u q) : Visited p X x q := by
  simp only [fork, run_bind, run_node] at run
  obtain ⟨x', _, ⟨hx', rfl⟩, run⟩ := run
  cases hx.symm.trans hx'
  split at run
  case isFalse hsize =>
    obtain ⟨-, rfl⟩ := run_pure.mp run
    exact .skipped rfl fun _ h => absurd h hsize
  case isTrue =>
    simp only [run_bind, run_ask] at run
    obtain ⟨flag, _, ⟨hflag, rfl⟩, run⟩ := run
    cases flag with
    | false =>
      obtain ⟨-, rfl⟩ := run_pure.mp run
      exact .skipped rfl fun _ _ => by simp [hflag]
    | true =>
      obtain ⟨copies, run⟩ := run_discard.mp run
      exact .copied hop hflag run

theorem visited_of_pushDown {p₁ p₂ : Plan} {t : Node} {part : Op} {ops : List Op} {copies : List NodeId}
    (hp : p.Coherent) (entry : p.Entry D X t x) (parted : p.Parted X x part ops p₁ p₂)
    (hsingle : x.children.size = 1) (run : Edit.pushDown D X p₂ = .ok copies q) :
    Visited p X x q := by
  obtain ⟨t', b, pushed⟩ := pushed_of_pushDown (parted.coherent₂ hp).toLinked run
  exact .distributed { toEntry := entry, toParted := parted, single := hsingle, pushed }

theorem parted_of_rowWise {t : Node} (hp : p.Coherent) (entry : p.Entry D X t x) (hop : x.op.isRowWise = true) :
    Parted p X x x.op [] p p where
  toExchanged := .refl entry.lower (hp.arity_of_inputs entry.lower entry.fed)
  splits _ := .rowWise hop
  appended := .nil

theorem swap_visited (hp : p.Coherent) (hx : p.nodes.get? X = some x) (hop : x.op.isRowWise = true)
    (run : swap X p = .ok u q) : Visited p X x q := by
  have hconcat : x.op ≠ .concat := fun h => by rw [h] at hop; cases hop
  simp only [swap, run_bind] at run
  obtain ⟨concat?, r, hfind, run⟩ := run
  obtain ⟨hr, hentry⟩ := run_boundaryConcat? hfind
  subst r
  cases concat? with
  | none =>
    obtain ⟨-, rfl⟩ := run_pure.mp run
    exact .skipped rfl fun h => absurd h hconcat
  | some D =>
    obtain ⟨t, x', entry⟩ := hentry D rfl
    cases hx.symm.trans entry.lower
    simp only [run_bind, run_node] at run
    obtain ⟨x', _, ⟨hx', rfl⟩, run⟩ := run
    cases hx.symm.trans hx'
    split at run
    case isFalse =>
      obtain ⟨-, rfl⟩ := run_pure.mp run
      exact .skipped rfl fun h => absurd h hconcat
    case isTrue hsingle =>
      obtain ⟨copies, run⟩ := run_discard.mp run
      exact visited_of_pushDown hp entry (parted_of_rowWise hp entry hop) hsingle run

theorem split_visited (hp : p.Coherent) (hx : p.nodes.get? X = some x) (hop : x.op ≠ .concat)
    (run : split X p = .ok u q) : Visited p X x q := by
  simp only [PushDown.split, run_bind] at run
  obtain ⟨concat?, r, hfind, run⟩ := run
  obtain ⟨hr, hentry⟩ := run_boundaryConcat? hfind
  subst r
  cases concat? with
  | none =>
    obtain ⟨-, rfl⟩ := run_pure.mp run
    exact .skipped rfl fun h => absurd h hop
  | some D =>
    obtain ⟨t, x', entry⟩ := hentry D rfl
    cases hx.symm.trans entry.lower
    simp only [run_bind, run_node] at run
    obtain ⟨x', _, ⟨hx', rfl⟩, run⟩ := run
    cases hx.symm.trans hx'
    split at run
    case isFalse =>
      obtain ⟨-, rfl⟩ := run_pure.mp run
      exact .skipped rfl fun h => absurd h hop
    case isTrue hsingle =>
      obtain ⟨done, p₂, hsplit, hpush⟩ := run_bind.mp run
      cases done with
      | false =>
        obtain ⟨-, rfl⟩ := run_pure.mp hpush
        exact .skipped (eq_of_splitOp hsplit) fun h => absurd h hop
      | true =>
        obtain ⟨copies, run⟩ := run_discard.mp hpush
        obtain ⟨part, ops, p₁, parted⟩ := parted_of_splitOp hp hx hsplit
        exact visited_of_pushDown hp entry parted hsingle run

theorem visit_visited (hp : p.Coherent) (hx : p.nodes.get? X = some x)
    (run : visit X x.op p = .ok u q) : Visited p X x q := by
  cases hop : x.op <;> simp only [visit, hop] at run
  case project | arithmetic | filterByColumn | filterByScalar =>
    exact swap_visited hp hx (by simp [hop, Op.isRowWise]) run
  case sum | distinct | count | mean | stdDev | numRows =>
    exact split_visited hp hx (by simp [hop]) run
  case concat => exact fork_visited hx hop run
  all_goals
    obtain ⟨-, rfl⟩ := run_pure.mp run
    exact .skipped rfl (by simp [hop])

/-- A step of the sweep keeps the invariant, and the leaves. -/
theorem Visited.steps (h : Visited p X x q) (hp : p.Sweeping (X :: rest)) (hx : p.nodes.get? X = some x) : q.Sweeping rest ∧ Serves p q ∧ ∀ P, Placement P → p.Placed P → q.Placed P := by
  cases h with
  | skipped same narrow =>
    subst same
    refine ⟨hp.skip fun n hn => ?_, .refl, fun _ _ => id⟩
    cases hx.symm.trans hn
    exact narrow
  | distributed h => exact ⟨h.sweeping hp, h.serves hp, fun _ hP => h.placed hP hp⟩
  | copied concat enters run =>
    obtain ⟨cs, h, hcs⟩ := forkNode_loop (motive := Forking p X x) hp.coherent.toLinked hx (.start hp hx)
      (fun child _ position cs copy r s h hc _ _ run =>
        h.step hp.coherent hx (by simp [concat]) hc run) run
    exact ⟨h.sweeping hp hx enters hcs, h.serves, fun _ hP => h.placed hP concat⟩

end PushDown

namespace Pass

open Plan Edit

variable {p q : Plan} {u : Unit}

/-- What holds at the start of the sweep and is kept from visit to visit holds when all nodes have
been visited; after that the plan is derived anew. -/
theorem exists_of_sweep {motive : List NodeId → Plan → Prop} (hp : p.Orderly)
    (start : ∀ order, p.topSort = .ok order → motive order p)
    (skip : ∀ {X rest r}, r.nodes.get? X = none → motive (X :: rest) r → motive rest r)
    (visit : ∀ {X rest x r s}, r.Sweeping (X :: rest) → r.nodes.get? X = some x → PushDown.visit X x.op r = .ok () s →
      PushDown.Visited r X x s → motive (X :: rest) r → motive rest s)
    (run : pushDown.run p = .ok u q) :
    ∃ r, motive [] r ∧ r.Orderly ∧ Edit.refreshAll r = .ok () q ∧ q.Orderly ∧ q.skeleton = r.skeleton := by
  obtain ⟨order, r, horder, hsteps, hfinish⟩ := run_run.mp run
  have hloop : r.Sweeping [] ∧ motive [] r := by
    refine forM_loop (motive := fun rest s => s.Sweeping rest ∧ motive rest s) ?_
      ⟨.start hp horder, start order horder⟩ hsteps
    rintro X rest s t ⟨hsweep, h⟩ hstep
    rcases run_step.mp hstep with ⟨hnone, rfl⟩ | ⟨x, hx, hvisit⟩
    · exact ⟨hsweep.skip fun n hn => by simp [hnone] at hn, skip hnone h⟩
    · have hvisited := PushDown.visit_visited hsweep.coherent hx hvisit
      exact ⟨(hvisited.steps hsweep hx).1, visit hsweep hx hvisit hvisited h⟩
  have renewed := Renews.refreshAll hfinish
  have hskeleton := (renewed.touched hloop.1.sound).skeleton
  exact ⟨r, hloop.2, hloop.1.toOrderly, hfinish, hloop.1.toOrderly.of_skeleton_eq hskeleton (renewed.sound hloop.1.sound),
    hskeleton⟩

/-- What every visit preserves holds when all nodes have been visited. -/
theorem exists_of_pushDown {motive : Plan → Prop} (hp : p.Orderly) (start : motive p)
    (visit : ∀ {X rest x r s}, r.Sweeping (X :: rest) → r.nodes.get? X = some x →
      PushDown.Visited r X x s → motive r → motive s)
    (run : pushDown.run p = .ok u q) :
    ∃ r, motive r ∧ r.Orderly ∧ Edit.refreshAll r = .ok () q ∧ q.Orderly ∧ q.skeleton = r.skeleton :=
  exists_of_sweep (motive := fun _ => motive) hp (fun _ _ => start) (fun _ h => h)
    (fun hsweep hx _ hvisited h => visit hsweep hx hvisited h) run

/-- The leaves yield the same rows when the pass has run. -/
theorem pushDown_serves (hp : p.Orderly) (run : pushDown.run p = .ok u q) :
    q.Orderly ∧ Serves p q ∧ ∀ P, Placement P → p.Placed P → q.Placed P := by
  obtain ⟨r, ⟨hserves, hplaced⟩, -, -, hq, hskeleton⟩ := exists_of_pushDown hp
    (motive := fun r => Serves p r ∧ ∀ P, Placement P → p.Placed P → r.Placed P) ⟨.refl, fun _ _ => id⟩
    (fun hsweep hx hvisited h => by
      obtain ⟨-, hserves, hplaced⟩ := hvisited.steps hsweep hx
      exact ⟨h.1.trans hserves, fun P hP hp => hplaced P hP (h.2 P hP hp)⟩) run
  exact ⟨hq, hserves.trans (.of_skeleton_eq hskeleton), fun P hP hp => (hplaced P hP hp).of_skeleton_eq hP hskeleton⟩

end Pass

end JointPlan
