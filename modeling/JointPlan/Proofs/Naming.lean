import JointPlan.Proofs.Delivering

/-!
# The names of what is pushed down

Every visit of the first pass names what it puts in after the visited node, with an ending that it uses
once. A node is visited once, so if no relation is named like another one with endings, no two relations
share a name when the pass has run.
-/

namespace JointPlan

/-- The endings of what is put in when work is pushed down. -/
def Mark.isPart : Mark → Bool
  | .number _ | .obl | .colsum | .var => true
  | _ => false

namespace Plan

variable {p q r : Plan} {k l X : NodeId} {n m : Node} {base s t : String} {marks marks' : List Mark} {mark : Mark}

theorem nameAt_eq_some : p.nameAt k = some s ↔ ∃ n, p.nodes.get? k = some n ∧ n.rel.name = s := Option.map_eq_some_iff

theorem nameAt_of_get? (hn : p.nodes.get? k = some n) : p.nameAt k = some n.rel.name := nameAt_eq_some.mpr ⟨n, hn, rfl⟩

theorem Coherent.below_of_nameAt (hp : p.Coherent) (hs : p.nameAt k = some s) : k < p.nextId :=
  have ⟨_, hn, _⟩ := nameAt_eq_some.mp hs
  hp.below hn

-- ---------------------------------------------------------------------------
-- Nodes that come in
-- ---------------------------------------------------------------------------

/-- Nodes have come in, all named after `base` with one ending each. Others may be gone. -/
structure Sprouted (base : String) (marks : List Mark) (p q : Plan) : Prop where
  next : q.nextId = p.nextId + marks.length
  names : ∀ k s, q.nameAt k = some s → (k < p.nextId ∧ p.nameAt k = some s) ∨
    ∃ i mark, k = p.nextId + i ∧ marks[i]? = some mark ∧ s = marked base [mark]

namespace Sprouted

theorem of_nameAt (hp : p.Coherent) (hnext : q.nextId = p.nextId) (h : ∀ k, q.nameAt k = p.nameAt k) :
    Sprouted base [] p q where
  next := hnext
  names k _ hs := .inl ⟨hp.below_of_nameAt (h k ▸ hs), h k ▸ hs⟩

theorem refl (hp : p.Coherent) : Sprouted base [] p p := of_nameAt hp rfl fun _ => rfl

theorem trans (h : Sprouted base marks p q) (h' : Sprouted base marks' q r) : Sprouted base (marks ++ marks') p r where
  next := by rw [h'.next, h.next, List.length_append, Nat.add_assoc]
  names k s hs := by
    rcases h'.names k s hs with ⟨-, hs⟩ | ⟨i, mark, rfl, hi, rfl⟩
    · refine (h.names k s hs).imp_right fun ⟨i, mark, hk, hi, hs⟩ => ⟨i, mark, hk, ?_, hs⟩
      rw [List.getElem?_append_left (List.getElem?_eq_some_iff.mp hi).1, hi]
    · refine .inr ⟨marks.length + i, mark, by rw [h.next, Nat.add_assoc], ?_, rfl⟩
      rw [List.getElem?_append_right (Nat.le_add_right _ _), Nat.add_sub_cancel_left, hi]

/-- One node has come in. -/
theorem single (hq : q.Coherent) (hnext : q.nextId = p.nextId + 1) (hold : ∀ k < p.nextId, q.nameAt k = p.nameAt k)
    (hnew : q.nameAt p.nextId = some (marked base [mark])) : Sprouted base [mark] p q where
  next := hnext
  names k s hs := by
    rcases Nat.lt_succ_iff_lt_or_eq.mp (hnext ▸ hq.below_of_nameAt hs) with hk | rfl
    · exact .inl ⟨hk, hold k hk ▸ hs⟩
    · exact .inr ⟨0, mark, rfl, rfl, Option.some.inj (hs.symm.trans hnew)⟩

end Sprouted

theorem Spliced.sprouted {parent : NodeId} {cs : NodeSet} {op : Op} {rel : Relation} (h : p.Spliced parent cs op rel q)
    (hp : p.Coherent) (hname : rel.name = marked base [mark]) : Sprouted base [mark] p q := by
  obtain ⟨m, hm, hmname⟩ := h.name_new
  exact .single (h.coherent hp) h.nextId_eq (fun k hk => h.nameAt hk) (by rw [nameAt_of_get? hm, hmname, hname])

theorem Forked.sprouted {id child : NodeId} {rel : Relation} (h : p.Forked id child n rel q) (hp : p.Coherent)
    (hname : rel.name = marked base [mark]) : Sprouted base [mark] p q := by
  refine .single (h.coherent hp) h.nextId_eq (fun k hk => h.nameAt hk) ?_
  rw [nameAt_of_outline_eq h.outline, Plan.nameAt, Plan.forked, IdMap.get?_insert, if_pos rfl]
  exact congrArg some hname

/-- The copies of a node go by their positions. -/
theorem Pushed.sprouted {top bottom : NodeId} {t b : Node} (h : p.Pushed top bottom t b q) (hp : p.Coherent) :
    Sprouted b.rel.name ((List.range t.inputs.ids.length).map .number) p q := by
  have hnext : q.nextId = p.nextId + t.inputs.ids.length := nextId_eq_of_outline_eq h.outline
  refine ⟨by simpa using hnext, fun k s hs => ?_⟩
  rw [nameAt_of_outline_eq h.outline] at hs
  obtain ⟨m, hm, rfl⟩ := nameAt_eq_some.mp hs
  obtain ⟨i, input, rfl, hi, rfl⟩ | ⟨-, -, n, hn, rfl⟩ := get?_pushed_eq_some hp.toLinked hm
  · refine .inr ⟨i, .number i, rfl, ?_, rfl⟩
    rw [List.getElem?_map, List.getElem?_range (List.getElem?_eq_some_iff.mp hi).1, Option.map_some]
  · exact .inl ⟨hp.below hn, by rw [nameAt_of_get? hn, pushedNode_rel]⟩

end Plan

namespace PushDown

open Plan Edit

variable {p q r : Plan} {D X id : NodeId} {x : Node} {op : Op} {base name : String} {mark : Mark} {u : Unit}

-- ---------------------------------------------------------------------------
-- What a visit puts in
-- ---------------------------------------------------------------------------

theorem sprouted_of_append (hp : p.Coherent)
    (hsized : ∀ n ds, p.nodes.get? X = some n → op = .distinct ds → n.rel.columns.length = ds.length)
    (hname : name = marked base [mark]) (run : append X op name p = .ok id q) :
    Sprouted base [mark] p q ∧ q.Coherent := by
  obtain ⟨-, n, rel, -, spliced, hrel⟩ := spliced_of_append hp hsized run
  exact ⟨spliced.sprouted hp (hrel.trans hname), spliced.coherent hp⟩

theorem sprouted_of_exchanged {part : Op} (h : p.Exchanged X x part q) (hp : p.Coherent) : Sprouted base [] p q :=
  .of_nameAt hp h.nextId_eq fun _ => h.nameAt

theorem sprouted_of_globalSum {rel : Relation} {width : Nat} {out : String} (hp : p.Coherent)
    (hop : globalSum rel width out = .ok op) (run : append X op s!"{base}_obl" p = .ok id q) :
    Sprouted base [.obl] p q := by
  simp only [globalSum, bind_eq_ok, pure_eq_ok] at hop
  obtain ⟨groups, -, c, -, rfl⟩ := hop
  exact (sprouted_of_append hp (by simp) name_obl run).1

/-- What is appended below an aggregate that is split. -/
theorem sprouted_of_splitOp (hp : p.Coherent) (hx : p.nodes.get? X = some x) (run : splitOp X x p = .ok true q) : Sprouted x.rel.name [.obl] p q ∨ Sprouted x.rel.name [.colsum, .var, .obl] p q := by
  cases hop : x.op <;> simp only [splitOp, hop, run_bind, run_discard, run_ask, run_pure] at run
  case sum groups c out =>
    obtain ⟨global, _, ⟨hglobal, rfl⟩, _, _, ⟨_, run⟩, -, rfl⟩ := run
    exact .inl (sprouted_of_globalSum hp hglobal run)
  case count groups out =>
    obtain ⟨global, _, ⟨hglobal, rfl⟩, _, _, ⟨_, run⟩, -, rfl⟩ := run
    exact .inl (sprouted_of_globalSum hp hglobal run)
  case numRows out =>
    obtain ⟨global, _, ⟨hglobal, rfl⟩, _, _, ⟨_, run⟩, -, rfl⟩ := run
    exact .inl (sprouted_of_globalSum hp hglobal run)
  case distinct cs =>
    obtain ⟨_, _, ⟨_, run⟩, -, rfl⟩ := run
    refine .inl (sprouted_of_append hp (fun n ds hn hds => ?_) name_obl run).1
    cases hx.symm.trans hn
    cases hds
    rfl
  case mean groups c out weight =>
    cases weight with
    | some weight => simp at run
    | none =>
      simp only [run_bind, run_discard, run_ask, run_pure, run_node] at run
      obtain ⟨_, p₁, replace, y, _, ⟨hy, rfl⟩, global, _, ⟨hglobal, rfl⟩, _, _, ⟨_, run⟩, -, rfl⟩ := run
      have exchanged := exchanged_of_replaceOp hx (by rw [hop]; rfl) (by simp) replace
      simp only [bind_eq_ok, pure_eq_ok] at hglobal
      obtain ⟨_, -, _, -, _, -, rfl⟩ := hglobal
      exact .inl ((sprouted_of_exchanged exchanged hp).trans
        (sprouted_of_append (exchanged.coherent hp) (by simp) name_obl run).1)
  case stdDev groups c out =>
    simp only [run_node] at run
    obtain ⟨_, p₁, replace, y, _, ⟨hy, rfl⟩, op₁, _, ⟨hsums, rfl⟩, sums, r, run₁, z, _, ⟨hz, rfl⟩, op₂, _,
      ⟨hspread, rfl⟩, spread, s, run₂, _, _, ⟨_, run₃⟩, -, rfl⟩ := run
    have exchanged := exchanged_of_replaceOp hx (by rw [hop]; rfl) (by simp) replace
    simp only [bind_eq_ok, pure_eq_ok] at hsums hspread
    obtain ⟨_, -, _, -, rfl⟩ := hsums
    obtain ⟨_, -, _, -, _, -, _, -, rfl⟩ := hspread
    obtain ⟨first, hr⟩ := sprouted_of_append (exchanged.coherent hp) (by simp) name_colsum run₁
    obtain ⟨second, hs⟩ := sprouted_of_append hr (by simp) name_var run₂
    obtain ⟨third, -⟩ := sprouted_of_append hs (by simp) name_obl run₃
    exact .inr ((((sprouted_of_exchanged exchanged hp).trans first).trans second).trans third)
  all_goals simp at run

/-- A copy of a node is named after the position of its reader. -/
theorem sprouted_of_forkFors {n : Node} {cs : NodeSet} {l : List (NodeId × Nat)} {copies : List NodeId} (hp : p.Coherent)
    (hn : p.nodes.get? X = some { n with children := cs }) (hl : ∀ a ∈ l, a.1 ∈ cs) (hnodup : (l.map Prod.fst).Nodup)
    (run : (l.mapM fun (child, position) => forkFor X n position child : Edit (List NodeId)) p = .ok copies q) : Sprouted n.rel.name (l.map fun a => .number a.2) p q := by
  induction l generalizing p cs copies with
  | nil =>
    obtain ⟨-, rfl⟩ := run_mapM_nil.mp run
    exact .refl hp
  | cons a l ih =>
    obtain ⟨copy, r, copies, hstep, run, -⟩ := run_mapM_cons.mp run
    obtain ⟨-, forked⟩ := forked_of_forkFor hp.toLinked hn (hl a List.mem_cons_self) hstep
    rw [List.map_cons, List.nodup_cons] at hnodup
    have hrest : ∀ b ∈ l, b.1 ∈ cs.erase a.1 := by
      intro b hb
      refine IdSet.mem_erase.mpr ⟨hl b (List.mem_cons_of_mem _ hb), fun hba => hnodup.1 ?_⟩
      exact hba ▸ List.mem_map_of_mem hb
    have first : Sprouted n.rel.name [.number a.2] p r := forked.sprouted hp rfl
    exact first.trans (ih (forked.coherent hp) forked.left hrest hnodup.2 run)

theorem sprouted_of_forkNode {n : Node} {copies : List NodeId} (hp : p.Coherent) (hn : p.nodes.get? X = some n)
    (run : forkNode X p = .ok copies q) :
    ∃ marks : List Mark, marks.Nodup ∧ (∀ m ∈ marks, m.isPart = true) ∧ Sprouted n.rel.name marks p q := by
  simp only [forkNode, run_bind, run_node, run_ask] at run
  obtain ⟨n', _, ⟨hn', rfl⟩, children, _, ⟨hsorted, rfl⟩, run⟩ := run
  cases hn.symm.trans hn'
  have hperm := sortedChildren_perm hp.toLinked hn hsorted
  have hnodup : children.Nodup := hperm.nodup_iff.mpr (IdSet.nodup_toList _)
  refine ⟨_, ?_, ?_, sprouted_of_forkFors hp hn (fun a ha => ?_) ?_ run⟩
  · have hpositions : ((children.zipIdx.drop 1).map Prod.snd).Nodup := by
      rw [List.map_drop, List.zipIdx_map_snd]
      exact List.Nodup.sublist (List.drop_sublist _ _) List.nodup_range'
    have hnumbers := hpositions.map (f := Mark.number) fun _ _ => Mark.number.inj
    rwa [List.map_map] at hnumbers
  · intro m hm
    obtain ⟨a, -, rfl⟩ := List.mem_map.mp hm
    rfl
  · rw [← IdSet.mem_toList, ← hperm.mem_iff]
    exact List.fst_mem_of_mem_zipIdx (List.mem_of_mem_drop ha)
  · rw [List.map_drop, List.zipIdx_map_fst]
    exact hnodup.drop

theorem sprouted_of_pushDown {copies : List NodeId} (hp : p.Coherent) (hname : p.nameAt X = some base)
    (run : Edit.pushDown D X p = .ok copies q) :
    ∃ width, Sprouted base ((List.range width).map .number) p q := by
  obtain ⟨t, b, pushed⟩ := pushed_of_pushDown hp.toLinked run
  obtain rfl : b.rel.name = base := Option.some.inj ((nameAt_of_get? pushed.lower).symm.trans hname)
  exact ⟨_, pushed.sprouted hp⟩

/-- What a visit puts in is named after the visited node, and no ending is used twice. -/
def Sprouts (base : String) (p q : Plan) : Prop :=
  ∃ marks : List Mark, marks.Nodup ∧ (∀ m ∈ marks, m.isPart = true) ∧ Sprouted base marks p q

theorem Sprouts.refl (hp : p.Coherent) : Sprouts base p p := ⟨[], .nil, by simp, .refl hp⟩

theorem nodup_numbers {width : Nat} : ((List.range width).map Mark.number).Nodup :=
  List.nodup_range.map fun _ _ => Mark.number.inj

theorem sprouts_of_swap (hp : p.Coherent) (hx : p.nodes.get? X = some x) (run : swap X p = .ok u q) :
    Sprouts x.rel.name p q := by
  simp only [swap, run_bind] at run
  obtain ⟨concat?, r, hfind, run⟩ := run
  obtain ⟨hr, -⟩ := run_boundaryConcat? hfind
  subst r
  cases concat? with
  | none =>
    obtain ⟨-, rfl⟩ := run_pure.mp run
    exact .refl hp
  | some D =>
    obtain ⟨_, _, asked, run⟩ := run_bind.mp run
    obtain ⟨-, rfl⟩ := run_node.mp asked
    split at run
    case isFalse =>
      obtain ⟨-, rfl⟩ := run_pure.mp run
      exact .refl hp
    case isTrue =>
      obtain ⟨copies, run⟩ := run_discard.mp run
      obtain ⟨width, h⟩ := sprouted_of_pushDown hp (nameAt_of_get? hx) run
      exact ⟨_, nodup_numbers, by simp [Mark.isPart], h⟩

theorem sprouts_of_split (hp : p.Coherent) (hx : p.nodes.get? X = some x) (run : split X p = .ok u q) :
    Sprouts x.rel.name p q := by
  simp only [PushDown.split, run_bind] at run
  obtain ⟨concat?, r, hfind, run⟩ := run
  obtain ⟨hr, -⟩ := run_boundaryConcat? hfind
  subst r
  cases concat? with
  | none =>
    obtain ⟨-, rfl⟩ := run_pure.mp run
    exact .refl hp
  | some D =>
    obtain ⟨x', _, asked, run⟩ := run_bind.mp run
    obtain ⟨hx', rfl⟩ := run_node.mp asked
    cases hx.symm.trans hx'
    split at run
    case isFalse =>
      obtain ⟨-, rfl⟩ := run_pure.mp run
      exact .refl hp
    case isTrue =>
      obtain ⟨done, p₂, hsplit, hpush⟩ := run_bind.mp run
      cases done with
      | false =>
        obtain ⟨-, rfl⟩ := run_pure.mp hpush
        rw [eq_of_splitOp hsplit]
        exact .refl hp
      | true =>
        obtain ⟨copies, run⟩ := run_discard.mp hpush
        obtain ⟨part, ops, p₁, parted⟩ := parted_of_splitOp hp hx hsplit
        -- the node keeps its name until it is gone
        have hname : p₂.nameAt X = some x.rel.name := by
          rw [parted.appended.nameAt (parted.toExchanged.nextId_eq ▸ hp.below hx), parted.toExchanged.nameAt,
            nameAt_of_get? hx]
        obtain ⟨width, hcopies⟩ := sprouted_of_pushDown (parted.coherent₂ hp) hname run
        rcases sprouted_of_splitOp hp hx hsplit with happended | happended
        · exact ⟨_, by simp [nodup_numbers], by simp [Mark.isPart], happended.trans hcopies⟩
        · exact ⟨_, by simp [nodup_numbers], by simp [Mark.isPart], happended.trans hcopies⟩

theorem sprouts_of_fork (hp : p.Coherent) (hx : p.nodes.get? X = some x) (run : fork X p = .ok u q) :
    Sprouts x.rel.name p q := by
  simp only [fork, run_bind, run_node] at run
  obtain ⟨x', _, ⟨hx', rfl⟩, run⟩ := run
  split at run
  case isFalse =>
    obtain ⟨-, rfl⟩ := run_pure.mp run
    exact .refl hp
  case isTrue =>
    obtain ⟨flag, _, asked, run⟩ := run_bind.mp run
    obtain ⟨-, rfl⟩ := run_ask.mp asked
    cases flag with
    | false =>
      obtain ⟨-, rfl⟩ := run_pure.mp run
      exact .refl hp
    | true =>
      obtain ⟨copies, run⟩ := run_discard.mp run
      exact sprouted_of_forkNode hp hx run

theorem sprouts_of_visit (hp : p.Coherent) (hx : p.nodes.get? X = some x) (run : visit X x.op p = .ok u q) : Sprouts x.rel.name p q := by
  cases hop : x.op <;> simp only [visit, hop] at run
  case project | arithmetic | filterByColumn | filterByScalar => exact sprouts_of_swap hp hx run
  case sum | distinct | count | mean | stdDev | numRows => exact sprouts_of_split hp hx run
  case concat => exact sprouts_of_fork hp hx run
  all_goals
    obtain ⟨-, rfl⟩ := run_pure.mp run
    exact .refl hp

end PushDown

-- ---------------------------------------------------------------------------
-- The whole pass
-- ---------------------------------------------------------------------------

namespace Plan

variable {p q r : Plan} {k l X : NodeId} {x : Node} {s t : String} {rest : List NodeId} {marks marks' : List Mark}

/-- No two nodes yield relations of the same name. -/
def Distinct (p : Plan) : Prop := ∀ k l s, p.nameAt k = some s → p.nameAt l = some s → k = l

/-- No relation is named like another one with endings. -/
def Unmarked (p : Plan) : Prop :=
  ∀ k l s t, p.nameAt k = some s → p.nameAt l = some t → ∀ marks, s = marked t marks → marks = []

/-- A name with endings tells which relation it is taken from. -/
theorem Unmarked.inj (h : p.Unmarked) (hd : p.Distinct) (hk : p.nameAt k = some s) (hl : p.nameAt l = some t)
    (heq : marked s marks = marked t marks') : k = l ∧ marks = marks' := by
  obtain ⟨rfl, hmarks⟩ := marked_inj heq (h k l s t hk hl) (h l k t s hl hk)
  exact ⟨hd k l s hk hl, hmarks⟩

/-- What holds when the nodes in `rest` are still to be visited: what has come in since `p` is named
after nodes that have had their turn. -/
structure Sprouting (p : Plan) (rest : List NodeId) (r : Plan) : Prop where
  next : p.nextId ≤ r.nextId
  pending : ∀ u ∈ rest, u < p.nextId
  old : ∀ k s, k < p.nextId → r.nameAt k = some s → p.nameAt k = some s
  new : ∀ k s, p.nextId ≤ k → r.nameAt k = some s →
    ∃ u b m, u ∉ rest ∧ p.nameAt u = some b ∧ m.isPart = true ∧ s = marked b [m]
  distinct : p.Unmarked → p.Distinct → ∀ k l s, p.nextId ≤ k → p.nextId ≤ l → r.nameAt k = some s →
    r.nameAt l = some s → k = l

theorem Coherent.sprouting (hp : p.Coherent) (hrest : ∀ u ∈ rest, p.contains u = true) : Sprouting p rest p := by
  have hnone {k : NodeId} {s : String} (hk : p.nextId ≤ k) : p.nameAt k ≠ some s := fun hs =>
    absurd (hp.below_of_nameAt hs) (Nat.not_lt.mpr hk)
  refine ⟨le_rfl, fun u hu => ?_, fun _ _ _ hs => hs, fun k s hk hs => absurd hs (hnone hk),
    fun _ _ k l s hk _ hs => absurd hs (hnone hk)⟩
  obtain ⟨n, hn⟩ := Option.isSome_iff_exists.mp (hrest u hu)
  exact hp.below hn

theorem Sprouting.skip (h : Sprouting p (X :: rest) r) : Sprouting p rest r where
  next := h.next
  pending u hu := h.pending u (List.mem_cons_of_mem _ hu)
  old := h.old
  new k s hk hs := by
    obtain ⟨u, b, m, hu, hnew⟩ := h.new k s hk hs
    exact ⟨u, b, m, fun hmem => hu (List.mem_cons_of_mem _ hmem), hnew⟩
  distinct := h.distinct

theorem Sprouting.visit (h : Sprouting p (X :: rest) r) (hX : X ∉ rest) (hx : r.nodes.get? X = some x)
    (hsprouts : PushDown.Sprouts x.rel.name r q) : Sprouting p rest q := by
  obtain ⟨marks, hnodup, hpart, hsprouted⟩ := hsprouts
  have hname : p.nameAt X = some x.rel.name := h.old X _ (h.pending X List.mem_cons_self) (nameAt_of_get? hx)
  constructor
  case next => exact h.next.trans (hsprouted.next ▸ Nat.le_add_right _ _)
  case pending => exact fun u hu => h.pending u (List.mem_cons_of_mem _ hu)
  case old =>
    intro k s hk hs
    rcases hsprouted.names k s hs with ⟨-, hs⟩ | ⟨i, mark, rfl, -⟩
    · exact h.old k s hk hs
    · exact absurd (h.next.trans (Nat.le_add_right _ i)) (Nat.not_le.mpr hk)
  case new =>
    intro k s hk hs
    rcases hsprouted.names k s hs with ⟨-, hs⟩ | ⟨i, mark, -, hi, rfl⟩
    · exact h.skip.new k s hk hs
    · exact ⟨X, _, mark, hX, hname, hpart mark (List.mem_of_getElem? hi), rfl⟩
  case distinct =>
    intro hunmarked hdistinct k l s hk hl hks hls
    -- what has come in before is named after other nodes
    have hother {k i : Nat} {mark : Mark} (hk : p.nextId ≤ k) (hs : r.nameAt k = some (marked x.rel.name [mark])) : False := by
      obtain ⟨u, b, m, hu, hb, -, heq⟩ := h.new k _ hk hs
      exact hu ((hunmarked.inj hdistinct hname hb heq).1 ▸ List.mem_cons_self)
    rcases hsprouted.names k s hks with ⟨-, hks⟩ | ⟨i, mark, rfl, hi, rfl⟩ <;>
      rcases hsprouted.names l _ hls with ⟨-, hls⟩ | ⟨j, mark', rfl, hj, heq⟩
    · exact h.distinct hunmarked hdistinct k l s hk hl hks hls
    · exact absurd (heq ▸ hks) (hother (i := j) hk)
    · exact absurd hls (hother (i := i) hl)
    · obtain ⟨-, hmark⟩ := hunmarked.inj hdistinct hname hname heq
      obtain rfl : mark = mark' := List.singleton_inj.mp hmark
      rw [List.getElem?_inj (List.getElem?_eq_some_iff.mp hi).1 hnodup |>.mp (hi.trans hj.symm)]

theorem Sprouting.of_outline_eq (h : Sprouting p rest r) (heq : q.outline = r.outline) : Sprouting p rest q where
  next := h.next.trans (nextId_eq_of_outline_eq heq).ge
  pending := h.pending
  old k s hk hs := h.old k s hk (nameAt_of_outline_eq heq ▸ hs)
  new k s hk hs := h.new k s hk (nameAt_of_outline_eq heq ▸ hs)
  distinct hu hd k l s hk hl hks hls :=
    h.distinct hu hd k l s hk hl (nameAt_of_outline_eq heq ▸ hks) (nameAt_of_outline_eq heq ▸ hls)

/-- Where a name comes from when all nodes have been visited. -/
theorem Sprouting.exists_source (h : Sprouting p [] q) (hs : q.nameAt k = some s) :
    ∃ u b marks, p.nameAt u = some b ∧ s = marked b marks ∧
      ((marks = [] ∧ u = k) ∨ (p.nextId ≤ k ∧ ∃ m, marks = [m] ∧ m.isPart = true)) := by
  by_cases hk : k < p.nextId
  · exact ⟨k, s, [], h.old k s hk hs, rfl, .inl ⟨rfl, rfl⟩⟩
  · obtain ⟨u, b, m, -, hb, hm, rfl⟩ := h.new k s (Nat.not_lt.mp hk) hs
    exact ⟨u, b, [m], hb, rfl, .inr ⟨Nat.not_lt.mp hk, m, rfl, hm⟩⟩

/-- The endings that boundary operators add can be told from all others. -/
theorem Sprouting.inj (h : Sprouting p [] q) (hu : p.Unmarked) (hd : p.Distinct) (hk : q.nameAt k = some s)
    (hl : q.nameAt l = some t) (hmarks : ∀ m ∈ marks.head?, m.isPart = false)
    (hmarks' : ∀ m ∈ marks'.head?, m.isPart = false) (heq : marked s marks = marked t marks') : k = l ∧ marks = marks' := by
  obtain ⟨u, b, parts, hb, rfl, hsource⟩ := h.exists_source hk
  obtain ⟨v, c, parts', hc, rfl, hsource'⟩ := h.exists_source hl
  rw [← marked_append, ← marked_append] at heq
  obtain ⟨rfl, hall⟩ := hu.inj hd hb hc heq
  cases hb.symm.trans hc
  rcases hsource with ⟨rfl, rfl⟩ | ⟨hnew, m, rfl, hm⟩ <;> rcases hsource' with ⟨rfl, rfl⟩ | ⟨hnew', m', rfl, hm'⟩
  · exact ⟨rfl, hall⟩
  · rw [List.nil_append] at hall
    rw [hall] at hmarks
    exact absurd (hmarks m' rfl) (by simp [hm'])
  · rw [List.nil_append] at hall
    rw [← hall] at hmarks'
    exact absurd (hmarks' m rfl) (by simp [hm])
  · obtain ⟨rfl, hmarks⟩ := List.cons.inj hall
    exact ⟨h.distinct hu hd k l _ hnew hnew' hk hl, hmarks⟩

end Plan

open Plan Edit

variable {p q : Plan} {u : Unit}

theorem Pass.sprouting_of_pushDown (hp : p.Orderly) (run : pushDown.run p = .ok u q) :
    Sprouting p [] q := by
  obtain ⟨r, h, -, hrefresh, -⟩ := exists_of_sweep (motive := Sprouting p) hp
    (fun order horder => hp.coherent.sprouting fun u hu => (hp.coherent.mem_topSort horder).mp hu)
    (fun _ h => h.skip)
    (fun hsweep hx hvisit _ h => h.visit hsweep.ordered.1 hx (PushDown.sprouts_of_visit hsweep.coherent hx hvisit))
    run
  exact h.of_outline_eq (Renews.refreshAll hrefresh).outline

theorem Edit.sprouting_of_prepare {optimize : Bool} (hp : p.Orderly) (run : prepare optimize p = .ok () q) : Sprouting p [] q := by
  cases optimize with
  | false =>
    obtain ⟨-, rfl⟩ := run_pure.mp run
    exact hp.coherent.sprouting (by simp)
  | true =>
    obtain ⟨_, r, hdown, hup⟩ := run_bind.mp run
    have hreworks := Pass.pushUp_reworks (K := fun _ => False)
    have hr := (Pass.pushDown_serves hp hdown).1
    exact (Pass.sprouting_of_pushDown hp hdown).of_outline_eq (hreworks hr.coherent hup).renewed.outline

end JointPlan
