import JointPlan.Proofs.Handoffs
import JointPlan.Proofs.Naming
import JointPlan.Proofs.Workflows

/-!
# The names of boundary operators

What the boundary passes put in is named after the node it is put in behind. To see which names can
coincide every node gets a label: the node that its name is taken from, and the role it has
been put in for. A name tells the label. One label belongs to one node, except that a node is shared
once for each joint computation that reads it.
-/

namespace JointPlan

open Boundary

/-- What a node has been put in for. -/
inductive Label
  | plain
  | closing
  | opening
  | read (position : Nat)
  | kept
  | staged
  deriving DecidableEq

namespace Label

variable {label label' : Label} {op op' : Op}

/-- The endings behind the name that the node has got its name from. -/
def marks : Label → List Mark
  | plain => []
  | closing => [.close]
  | opening => [.opened]
  | read position => .opened :: Op.read.marks position
  | kept => [.opened, .store]
  | staged => [.store]

/-- The pass that puts such a node in. -/
def stage : Label → Nat
  | plain => 0
  | closing => 1
  | opening => 2
  | read _ => 3
  | kept | staged => 4

def holds : Label → Op → Bool
  | plain, op => !op.isBoundary
  | closing, .closing _ | opening, .opening | read _, .read | kept, .store | staged, .store => true
  | _, _ => false

theorem marks_read_injective {i j : Nat} (h : Op.read.marks i = Op.read.marks j) : i = j := by
  cases i <;> cases j <;> simp_all [Op.marks]

theorem marks_injective : Function.Injective marks := by
  intro label label' h
  cases label <;> cases label' <;>
    first
      | rfl
      | exact congrArg read (marks_read_injective (List.cons.inj h).2)
      | (rename_i i; cases i <;> simp [marks, Op.marks] at h)
      | simp [marks] at h

theorem head_marks : ∀ m ∈ label.marks.head?, m.isPart = false := by
  cases label <;> simp [marks, Mark.isPart]

theorem holds_mapBound {f : Nat → Column → Column} : label.holds (op.mapBound f) = label.holds op := by
  cases label <;> cases op <;> rfl

theorem holds_eq_of_blank_eq (h : op.blank = op'.blank) : label.holds op = label.holds op' := by
  simpa only [Op.blank, holds_mapBound] using congrArg label.holds h

theorem plain_of_holds (h : label.holds op = true) (hop : op.isBoundary = false) : label = .plain := by
  cases label <;> cases op <;> simp_all [holds, Op.isBoundary]

theorem eq_opening_of_holds (h : label.holds .opening = true) : label = .opening := by
  cases label <;> simp_all [holds, Op.isBoundary]

theorem eq_closing_of_holds {storage : Storage} (h : label.holds (.closing storage) = true) : label = .closing := by
  cases label <;> simp_all [holds, Op.isBoundary]

theorem stage_of_holds_store (h : label.holds .store = true) : label.stage = 4 := by
  cases label <;> simp_all [holds, stage, Op.isBoundary]

theorem store_of_holds (h : staged.holds op = true) : op = .store := by
  cases op <;> simp_all [holds]

theorem isClosing_of_holds (h : closing.holds op = true) : IsClosing op := by
  cases op <;> simp_all [holds, IsClosing]

end Label

namespace Plan

variable {a p q : Plan} {lab : NodeId → NodeId × Label} {k u parent : NodeId} {n m : Node} {cs : NodeSet} {op : Op}
  {label : Label}

/-- Every node has its name and its operator from its label. -/
structure Labelled (a : Plan) (lab : NodeId → NodeId × Label) (p : Plan) : Prop where
  old : ∀ k < a.nextId, lab k = (k, .plain)
  new : ∀ k n, p.nodes.get? k = some n → a.nextId ≤ k → (lab k).2 ≠ .plain
  next : a.nextId ≤ p.nextId
  named : ∀ k n, p.nodes.get? k = some n → ∃ b, a.nameAt (lab k).1 = some b ∧ n.rel.name = marked b (lab k).2.marks
  holds : ∀ k n, p.nodes.get? k = some n → (lab k).2.holds n.op = true
  unique : ∀ k l n m, p.nodes.get? k = some n → p.nodes.get? l = some m → lab k = lab l →
    k = l ∨ (lab k).2 = .closing ∨ (lab k).2 = .staged
  staged : ∀ k n, p.nodes.get? k = some n → (lab k).2 = .staged → p.Feeds (lab k).1 k
  closing : ∀ k n, p.nodes.get? k = some n → (lab k).2 = .closing →
    p.Feeds (lab k).1 k ∨ ∃ s, lab s = ((lab k).1, .staged) ∧ p.Feeds s k

theorem Coherent.labelled (ha : a.Coherent) (hplain : a.Plain) : Labelled a (fun k => (k, .plain)) a where
  old _ _ := rfl
  new k n hn hk := absurd (ha.below hn) (Nat.not_lt.mpr hk)
  next := le_rfl
  named k n hn := ⟨_, nameAt_of_get? hn, rfl⟩
  holds k n hn := by simp [Label.holds, hplain k n hn]
  unique k l n m _ _ h := .inl (Prod.mk.inj h).1
  staged k n _ h := nomatch h
  closing k n _ h := nomatch h

namespace Labelled

theorem of_outline_eq (h : Labelled a lab p) (heq : q.outline = p.outline) : Labelled a lab q where
  old := h.old
  new k n hn := by
    obtain ⟨m, hm, -⟩ := get?_of_outline_eq heq hn
    exact h.new k m hm
  next := (nextId_eq_of_outline_eq heq).symm ▸ h.next
  named k n hn := by
    obtain ⟨m, hm, hs⟩ := get?_of_outline_eq heq hn
    obtain ⟨b, hb, hname⟩ := h.named k m hm
    exact ⟨b, hb, (congrArg (fun n : Node => n.rel.name) hs :).trans hname⟩
  holds k n hn := by
    obtain ⟨m, hm, hs⟩ := get?_of_outline_eq heq hn
    rw [Label.holds_eq_of_blank_eq (Node.blank_eq_of_outline_eq hs)]
    exact h.holds k m hm
  unique k l n m hn hm := by
    obtain ⟨n', hn', -⟩ := get?_of_outline_eq heq hn
    obtain ⟨m', hm', -⟩ := get?_of_outline_eq heq hm
    exact h.unique k l n' m' hn' hm'
  staged k n hn := by
    obtain ⟨m, hm, -⟩ := get?_of_outline_eq heq hn
    simpa only [(SameGraph.of_outline_eq heq).feeds] using h.staged k m hm
  closing k n hn := by
    obtain ⟨m, hm, -⟩ := get?_of_outline_eq heq hn
    simpa only [(SameGraph.of_outline_eq heq).feeds] using h.closing k m hm

/-- The node that a name is taken from is plain. -/
theorem root (h : Labelled a lab p) (ha : a.Coherent) (hn : p.nodes.get? k = some n) :
    lab (lab k).1 = ((lab k).1, .plain) := by
  obtain ⟨b, hb, -⟩ := h.named k n hn
  exact h.old _ (ha.below_of_nameAt hb)

theorem eq_of_plain (h : Labelled a lab p) (hn : p.nodes.get? k = some n) (hk : (lab k).2 = .plain) :
    lab k = (k, .plain) := by
  by_cases hlt : k < a.nextId
  · exact h.old k hlt
  · exact absurd hk (h.new k n hn (Nat.not_lt.mp hlt))

/-- What feeds a node that shares or stages is not in the clear. -/
theorem feeder (h : Labelled a lab p) (hp : p.Coherent) (ha : a.Coherent) (hn : p.nodes.get? k = some n)
    (hk : (lab k).2 = .closing ∨ (lab k).2 = .staged) (hu : p.Feeds u k) :
    (lab u).2 = .plain ∨ ((lab k).2 = .closing ∧ lab u = ((lab k).1, .staged)) := by
  have hroot : p.Feeds (lab k).1 k ∨ ((lab k).2 = .closing ∧ ∃ s, lab s = ((lab k).1, .staged) ∧ p.Feeds s k) := by
    rcases hk with hk | hk
    · exact (h.closing k n hn hk).imp_right fun hs => ⟨hk, hs⟩
    · exact .inl (h.staged k n hn hk)
  have hunary : n.op.arity = .unary := by
    have hholds := h.holds k n hn
    rcases hk with hk | hk <;> rw [hk] at hholds
    · obtain ⟨st, hop⟩ := Label.isClosing_of_holds hholds
      rw [hop]
      rfl
    · rw [Label.store_of_holds hholds]
      rfl
  obtain ⟨v, honly⟩ := hp.exists_feeder hn hunary
  have hone {w : NodeId} (hw : p.Feeds w k) : u = w := ((honly u).mp hu).trans ((honly w).mp hw).symm
  rcases hroot with hfeeds | ⟨hclosing, s, hs, hfeeds⟩
  · rw [hone hfeeds, h.root ha hn]
    exact .inl rfl
  · exact .inr ⟨hclosing, hone hfeeds ▸ hs⟩

section Insert

variable (h : Labelled a lab p) (hp : p.Coherent) (hinserted : p.Inserted parent cs op q)
  (hclosing : ∀ c n, p.nodes.get? c = some n → c ∈ cs → (lab c).2 = .closing → label = .staged)
  (hparent : label = .closing ∨ label = .staged → lab parent = (parent, .plain))

include h hp hinserted hclosing hparent

/-- What is shared is shared behind its source, or behind a store of it. -/
theorem feeds_of_closing (hn : p.nodes.get? k = some n) (hk : (lab k).2 = .closing) :
    q.Feeds (lab k).1 k ∨ ∃ s, Function.update lab p.nextId ((lab parent).1, label) s = ((lab k).1, .staged) ∧ q.Feeds s k := by
  have hnew := hp.ne_nextId hn
  by_cases hmem : k ∈ cs
  · -- the new node is such a store
    have hlabel := hclosing k n hn hmem hk
    have hplain := hparent (.inr hlabel)
    have hfed := hinserted.feeds_of_mem hp hmem
    obtain ⟨v, honly⟩ := hp.exists_feeder hn (by
      obtain ⟨st, hop⟩ := Label.isClosing_of_holds (hk ▸ h.holds k n hn)
      rw [hop]
      rfl)
    have hone {w : NodeId} (hw : p.Feeds w k) : w = parent := ((honly w).mp hw).trans ((honly parent).mp hfed).symm
    have hroot : (lab k).1 = parent := by
      rcases h.closing k n hn hk with hfeeds | ⟨s, hs, hfeeds⟩
      · exact hone hfeeds
      · rw [hone hfeeds, hplain] at hs
        cases (Prod.mk.inj hs).2
    refine .inr ⟨p.nextId, ?_, (hinserted.feeds_new hp).mpr hmem⟩
    rw [Function.update_self, hplain, hroot, hlabel]
  · have hkeeps {w : NodeId} (hw : p.Feeds w k) : q.Feeds w k := by rwa [hinserted.feeds, if_neg hnew, if_neg hmem]
    refine (h.closing k n hn hk).imp hkeeps fun ⟨s, hs, hfeeds⟩ => ⟨s, ?_, hkeeps hfeeds⟩
    obtain ⟨o, ho⟩ := hp.closed hfeeds
    rw [Function.update_of_ne (hp.ne_nextId ho), hs]

/-- A node is put in behind another one and named after it. -/
theorem insert {ending : List Mark} (hstaged : ∀ c n, p.nodes.get? c = some n → c ∈ cs → (lab c).2 ≠ .staged)
    (hname : ∃ n m, p.nodes.get? parent = some n ∧ q.nodes.get? p.nextId = some m ∧
      m.rel.name = marked n.rel.name ending) (hmarks : label.marks = (lab parent).2.marks ++ ending)
    (hholds : label.holds op = true) (hplain : label ≠ .plain)
    (hfresh : (label = .closing ∨ label = .staged) ∨
      ∀ k n, p.nodes.get? k = some n → lab k ≠ ((lab parent).1, label)) :
    Labelled a (Function.update lab p.nextId ((lab parent).1, label)) q := by
  have hnew : Function.update lab p.nextId ((lab parent).1, label) p.nextId = ((lab parent).1, label) :=
    Function.update_self ..
  have hsame {k : NodeId} (hk : k ≠ p.nextId) : Function.update lab p.nextId ((lab parent).1, label) k = lab k :=
    Function.update_of_ne hk ..
  have hold {k : NodeId} {n : Node} (hn : q.nodes.get? k = some n) (hk : k ≠ p.nextId) :
      ∃ m, p.nodes.get? k = some m ∧ n.op.blank = m.op.blank ∧ n.rel.name = m.rel.name := by
    obtain ⟨hnext, -⟩ | ⟨-, m, hm, hop⟩ := hinserted.op_of hn
    · exact absurd hnext hk
    obtain ⟨rel, spliced⟩ := hinserted.spliced
    have hnames := spliced.nameAt (hp.below hm)
    rw [nameAt_of_get? hn, nameAt_of_get? hm] at hnames
    exact ⟨m, hm, hop, Option.some.inj hnames⟩
  constructor
  case old =>
    intro k hk
    rw [hsame (hk.trans_le h.next).ne]
    exact h.old k hk
  case new =>
    intro k n hn hk
    by_cases hkn : k = p.nextId
    · rw [hkn, hnew]
      exact hplain
    · obtain ⟨m, hm, -⟩ := hold hn hkn
      rw [hsame hkn]
      exact h.new k m hm hk
  case next => exact h.next.trans (hinserted.nextId_eq ▸ Nat.le_succ _)
  case named =>
    intro k n hn
    by_cases hkn : k = p.nextId
    · obtain ⟨o, o', ho, ho', hnames⟩ := hname
      obtain ⟨b, hb, hbase⟩ := h.named parent o ho
      subst hkn
      cases hn.symm.trans ho'
      rw [hnew]
      exact ⟨b, hb, by rw [hnames, hbase, hmarks, marked_append]⟩
    · obtain ⟨m, hm, -, hnames⟩ := hold hn hkn
      rw [hsame hkn, hnames]
      exact h.named k m hm
  case holds =>
    intro k n hn
    by_cases hkn : k = p.nextId
    · subst hkn
      obtain ⟨-, hop⟩ | ⟨hne, -⟩ := hinserted.op_of hn
      · rw [hnew, Label.holds_eq_of_blank_eq hop]
        exact hholds
      · exact absurd rfl hne
    · obtain ⟨m, hm, hop, -⟩ := hold hn hkn
      rw [hsame hkn, Label.holds_eq_of_blank_eq hop]
      exact h.holds k m hm
  case unique =>
    intro k l n m hn hm heq
    have hother {k : NodeId} {n : Node} (hn : q.nodes.get? k = some n) (hk : k ≠ p.nextId)
        (heq : lab k = ((lab parent).1, label)) : label = .closing ∨ label = .staged := by
      obtain ⟨m, hm, -⟩ := hold hn hk
      exact hfresh.resolve_right fun hnone => hnone k m hm heq
    by_cases hkn : k = p.nextId <;> by_cases hln : l = p.nextId
    · exact .inl (hkn.trans hln.symm)
    · rw [hkn, hnew, hsame hln] at heq
      rw [hkn, hnew]
      exact .inr (hother hm hln heq.symm)
    · rw [hln, hnew, hsame hkn] at heq
      rw [hsame hkn, heq]
      exact .inr (hother hn hkn heq)
    · obtain ⟨n', hn', -⟩ := hold hn hkn
      obtain ⟨m', hm', -⟩ := hold hm hln
      rw [hsame hkn, hsame hln] at heq
      rw [hsame hkn]
      exact h.unique k l n' m' hn' hm' heq
  case staged =>
    intro k n hn hk
    by_cases hkn : k = p.nextId
    · rw [hkn, hnew] at hk ⊢
      rw [hparent (.inr hk), hinserted.feeds, if_pos rfl]
    · obtain ⟨m, hm, -⟩ := hold hn hkn
      rw [hsame hkn] at hk ⊢
      rw [hinserted.feeds, if_neg hkn, if_neg fun hmem => hstaged k m hm hmem hk]
      exact h.staged k m hm hk
  case closing =>
    intro k n hn hk
    by_cases hkn : k = p.nextId
    · rw [hkn, hnew] at hk ⊢
      rw [hparent (.inl hk), hinserted.feeds, if_pos rfl]
      exact .inl rfl
    · obtain ⟨m, hm, -⟩ := hold hn hkn
      rw [hsame hkn] at hk ⊢
      exact h.feeds_of_closing hp hinserted hclosing hparent hm hk

end Insert

end Labelled

/-- The passes that put in what there is. -/
def Upto (i : Nat) (lab : NodeId → NodeId × Label) (p : Plan) : Prop :=
  ∀ k n, p.nodes.get? k = some n → (lab k).2.stage ≤ i

theorem Upto.of_outline_eq {i : Nat} (h : Upto i lab p) (heq : q.outline = p.outline) : Upto i lab q := by
  intro k n hn
  obtain ⟨m, hm, -⟩ := get?_of_outline_eq heq hn
  exact h k m hm

theorem Upto.insert {i : Nat} (h : Upto i lab p) (hinserted : p.Inserted parent cs op q) (hlabel : label.stage ≤ i) :
    Upto i (Function.update lab p.nextId (u, label)) q := by
  intro k n hn
  rcases hinserted.op_of hn with ⟨rfl, -⟩ | ⟨hk, m, hm, -⟩
  · rwa [Function.update_self]
  · rw [Function.update_of_ne hk]
    exact h k m hm

end Plan

namespace Boundary

open Plan Edit

variable {a p q r : Plan} {lab : NodeId → NodeId × Label} {id k parent : NodeId} {n : Node} {rest : List NodeId} {u : Unit}
  {shared : Storage}

-- ---------------------------------------------------------------------------
-- Sharing
-- ---------------------------------------------------------------------------

/-- What is shared feeds nodes that have been visited. -/
structure LabelledClose (a : Plan) (rest : List NodeId) (lab : NodeId → NodeId × Label) (p : Plan) : Prop
    extends Labelled a lab p where
  upto : Upto 1 lab p
  visited : ∀ k c, (lab k).2 = .closing → p.Feeds k c → c ∉ rest

theorem LabelledClose.of_outline_eq (h : LabelledClose a rest lab p) (heq : q.outline = p.outline) :
    LabelledClose a rest lab q where
  toLabelled := h.toLabelled.of_outline_eq heq
  upto := h.upto.of_outline_eq heq
  visited k c hk hkc := h.visited k c hk ((SameGraph.of_outline_eq heq).feeds.mp hkc)

theorem LabelledClose.mono {rest' : List NodeId} (h : LabelledClose a rest lab p) (hrest : ∀ k ∈ rest', k ∈ rest) :
    LabelledClose a rest' lab p :=
  { h with visited := fun k c hk hkc hc => h.visited k c hk hkc (hrest c hc) }

theorem LabelledClose.insert (h : LabelledClose a rest lab p) (hp : p.Coherent) (hid : id ∉ rest)
    (hparent : parent < a.nextId) (hreader : id < a.nextId)
    (hinserted : p.Inserted parent (.singleton id) (.closing shared) q) :
    LabelledClose a rest (Function.update lab p.nextId (parent, .closing)) q := by
  have hplain := h.old parent hparent
  have hmem {c : NodeId} (hc : c ∈ IdSet.singleton id) : c = id := IdSet.mem_singleton.mp hc
  have hcs {c : NodeId} (hc : c ∈ IdSet.singleton id) : (lab c).2 = .plain := by rw [hmem hc, h.old id hreader]
  obtain ⟨o, o', position, ho, ho', hname⟩ := hinserted.named
  have hlabelled := h.toLabelled.insert hp hinserted (fun c m _ hc hk => Label.noConfusion ((hcs hc).symm.trans hk))
    (fun _ => hplain) (fun c m _ hc hk => Label.noConfusion ((hcs hc).symm.trans hk)) ⟨o, o', ho, ho', hname⟩
    (show Label.closing.marks = _ by rw [hplain]; rfl) rfl (by simp) (.inl (.inl rfl))
  rw [hplain] at hlabelled
  refine ⟨hlabelled, h.upto.insert hinserted (by decide), fun k c hk hkc => ?_⟩
  by_cases hkn : k = p.nextId
  · rw [hkn, hinserted.feeds_new hp] at hkc
    exact hmem hkc ▸ hid
  · rw [Function.update_of_ne hkn] at hk
    have hkp : k ≠ parent := by
      rintro rfl
      rw [hplain] at hk
      cases hk
    exact h.visited k c hk ((hinserted.feeds_old hp hkp hkn).mp hkc)

theorem labelledClose_of_closeInputs (hp : p.Coherent) (h : LabelledClose a (id :: rest) lab p) (hid : id < a.nextId)
    (hrest : id ∉ rest) (run : closeInputs id p = .ok u q) : ∃ lab, LabelledClose a rest lab q := by
  have hmono {r : Plan} (h : LabelledClose a (id :: rest) lab r) : LabelledClose a rest lab r :=
    h.mono fun k hk => List.mem_cons_of_mem _ hk
  obtain ⟨r, hstorage, hrun⟩ := run_closeInputs.mp run
  have houtline := (Renews.refreshStorage hstorage).outline
  have hr := hp.of_outline_eq houtline
  have hbr := h.of_outline_eq houtline
  obtain ⟨-, rfl⟩ | ⟨-, m, hm, hloop⟩ := hrun
  · exact ⟨lab, hmono hbr⟩
  -- nothing has been shared for the node yet, so all inputs have been there from the start
  have hinputs : ∀ v ∈ firsts m.inputs.ids, v < a.nextId := by
    intro v hv
    have hfeeds : r.Feeds v id := ⟨m, hm, mem_firsts.mp hv⟩
    obtain ⟨o, ho⟩ := hr.closed hfeeds
    by_contra hnew
    have hplain := hbr.new v o ho (Nat.not_lt.mp hnew)
    have hstage := hbr.upto v o ho
    refine hbr.visited v id ?_ hfeeds List.mem_cons_self
    cases hlab : (lab v).2 <;> simp_all [Label.stage]
  have hloop : q.Coherent ∧ (∀ v ∈ ([] : List NodeId), v < a.nextId) ∧ ∃ lab, LabelledClose a rest lab q := by
    refine forM_loop
      (motive := fun left s => s.Coherent ∧ (∀ v ∈ left, v < a.nextId) ∧ ∃ lab, LabelledClose a rest lab s) ?_ ⟨hr, hinputs, lab, hmono hbr⟩ hloop
    rintro v left s t ⟨hs, hleft, lab, hbs⟩ hstep
    have hleft' : ∀ v ∈ left, v < a.nextId := fun v hv => hleft v (List.mem_cons_of_mem _ hv)
    obtain ⟨rfl, -⟩ | inserted := run_closeInput hs hstep
    · exact ⟨hs, hleft', lab, hbs⟩
    · exact ⟨inserted.coherent hs, hleft', _, hbs.insert hs hrest (hleft v List.mem_cons_self) hid inserted⟩
  exact hloop.2.2

theorem labelledClose_of_visitClose (hp : p.Coherent) (hn : p.nodes.get? id = some n) (h : LabelledClose a (id :: rest) lab p)
    (hrest : id ∉ rest) (run : visitClose id n.op p = .ok u q) : ∃ lab, LabelledClose a rest lab q := by
  have hleft := h.mono fun k hk => List.mem_cons_of_mem id hk
  -- the boundary operators that have been put in are unary
  have hid (harity : n.op.arity ≠ .unary) : id < a.nextId := by
    by_contra hnew
    have hplain := h.new id n hn (Nat.not_lt.mp hnew)
    have hholds := h.holds id n hn
    refine harity (arity_of_isBoundary ?_)
    by_contra hop
    exact hplain (Label.plain_of_holds hholds (Bool.eq_false_iff.mpr hop))
  rw [visitClose] at run
  cases harity : n.op.arity <;> simp only [harity] at run
  case nullary =>
    obtain ⟨-, rfl⟩ := run_pure.mp run
    exact ⟨lab, hleft⟩
  case unary => exact ⟨lab, hleft.of_outline_eq (Renews.refreshStorage run).outline⟩
  all_goals exact labelledClose_of_closeInputs hp h (hid (by simp [harity])) hrest run

-- ---------------------------------------------------------------------------
-- Revealing
-- ---------------------------------------------------------------------------

/-- What is opened has been visited. -/
structure LabelledOpen (a : Plan) (rest : List NodeId) (lab : NodeId → NodeId × Label) (p : Plan) : Prop
    extends Labelled a lab p where
  upto : Upto 2 lab p
  visited : ∀ k n, p.nodes.get? k = some n → (lab k).2 = .opening → (lab k).1 ∉ rest

theorem LabelledOpen.mono {rest' : List NodeId} (h : LabelledOpen a rest lab p) (hrest : ∀ k ∈ rest', k ∈ rest) :
    LabelledOpen a rest' lab p :=
  { h with visited := fun k n hn hk hmem => h.visited k n hn hk (hrest _ hmem) }

theorem LabelledOpen.insert (h : LabelledOpen a (id :: rest) lab p) (hp : p.Coherent) (hid : id ∉ rest)
    (hn : p.nodes.get? id = some n) (hop : n.op.isBoundary = false) (hlower : p.isLowerBoundary id = .ok true)
    (hinserted : p.Inserted id n.children .opening q) :
    LabelledOpen a rest (Function.update lab p.nextId (id, .opening)) q := by
  have hplain := h.eq_of_plain hn (Label.plain_of_holds (h.holds id n hn) hop)
  obtain ⟨o, o', position, ho, ho', hname⟩ := hinserted.named
  have hlabelled := h.toLabelled.insert hp hinserted
    (fun c m hm hc hk => by
      -- what has been shared is a joint step
      obtain ⟨st, hclosing⟩ := Label.isClosing_of_holds (hk ▸ h.holds c m hm)
      have hlocal := ((isLowerBoundary_eq_true hn).mp hlower).2 c hc
      rw [hp.toLinked.requiresMpc_closing hm hclosing] at hlocal
      cases hlocal)
    (by simp)
    (fun c m hm _ hk => by
      have hstage := h.upto c m hm
      rw [hk] at hstage
      exact absurd hstage (by decide))
    ⟨o, o', ho, ho', hname⟩ (show Label.opening.marks = _ by rw [hplain]; rfl) rfl (by simp)
    (.inr fun k m hm hk => by
      rw [hplain] at hk
      have hnot := h.visited k m hm (by rw [hk])
      rw [hk] at hnot
      exact hnot List.mem_cons_self)
  rw [hplain] at hlabelled
  refine ⟨hlabelled, h.upto.insert hinserted (by decide), fun k m hm hk => ?_⟩
  rcases hinserted.op_of hm with ⟨rfl, -⟩ | ⟨hkn, m', hm', -⟩
  · rwa [Function.update_self]
  · rw [Function.update_of_ne hkn] at hk ⊢
    exact fun hmem => h.visited k m' hm' hk (List.mem_cons_of_mem _ hmem)

-- ---------------------------------------------------------------------------
-- Handoffs
-- ---------------------------------------------------------------------------

/-- What an opening feeds neither shares nor stages. -/
theorem not_shares_of_opening (h : Labelled a lab p) (hp : p.Coherent) (ha : a.Coherent) (hid : (lab id).2 = .opening)
    (hn : p.nodes.get? k = some n) (hk : p.Feeds id k) : (lab k).2 ≠ .closing ∧ (lab k).2 ≠ .staged := by
  have hnot : ¬ ((lab k).2 = .closing ∨ (lab k).2 = .staged) := by
    intro hlabel
    rcases h.feeder hp ha hn hlabel hk with hplain | ⟨-, hstaged⟩
    · rw [hid] at hplain
      cases hplain
    · rw [hstaged] at hid
      cases hid
  exact not_or.mp hnot

/-- What has the label of an opening that has been visited. -/
def Opened (rest : List NodeId) (lab : NodeId → NodeId × Label) (p : Plan) (v : NodeId) : Prop :=
  ∃ o m, p.nodes.get? o = some m ∧ lab o = (v, .opening) ∧ o ∉ rest

theorem Opened.mono {rest' : List NodeId} {v : NodeId} (h : Opened rest lab p v) (hrest : ∀ k ∈ rest', k ∈ rest) :
    Opened rest' lab p v :=
  have ⟨o, m, hm, ho, hmem⟩ := h
  ⟨o, m, hm, ho, fun hmem' => hmem (hrest o hmem')⟩

theorem Opened.insert {v : NodeId} {cs : NodeSet} {op : Op} {t : NodeId × Label} (h : Opened rest lab p v) (hp : p.Coherent)
    (hinserted : p.Inserted parent cs op q) : Opened rest (Function.update lab p.nextId t) q v := by
  obtain ⟨o, m, hm, ho, hmem⟩ := h
  obtain ⟨rel, spliced⟩ := hinserted.spliced
  obtain ⟨m', hm', -⟩ := nameAt_eq_some.mp ((spliced.nameAt (hp.below hm)).trans (nameAt_of_get? hm))
  exact ⟨o, m', hm', by rwa [Function.update_of_ne (hp.ne_nextId hm)], hmem⟩

/-- There is one opening behind a node, so it has been visited once. -/
theorem not_opened_of_head {v : NodeId} (h : Labelled a lab p) (hn : p.nodes.get? id = some n)
    (hid : lab id = (v, .opening)) : ¬ Opened (id :: rest) lab p v := by
  rintro ⟨o, m, hm, ho, hmem⟩
  rcases h.unique o id m n hm hn (ho.trans hid.symm) with rfl | hlabel
  · exact hmem List.mem_cons_self
  · rw [ho] at hlabel
    simp at hlabel

structure LabelledRead (a : Plan) (rest : List NodeId) (lab : NodeId → NodeId × Label) (p : Plan) : Prop
    extends Labelled a lab p where
  upto : Upto 3 lab p
  visited : ∀ k n v i, p.nodes.get? k = some n → lab k = (v, .read i) → Opened rest lab p v

theorem LabelledRead.mono {rest' : List NodeId} (h : LabelledRead a rest lab p) (hrest : ∀ k ∈ rest', k ∈ rest) :
    LabelledRead a rest' lab p :=
  { h with visited := fun k n v i hn hk => (h.visited k n v i hn hk).mono hrest }

theorem LabelledRead.insert {v child : NodeId} {position : Nat} (h : LabelledRead a rest lab p) (hp : p.Coherent)
    (ha : a.Coherent) (hn : p.nodes.get? id = some n) (hid : lab id = (v, .opening)) (hrest : id ∉ rest)
    (hfresh : ∀ k n, p.nodes.get? k = some n → lab k ≠ (v, .read position))
    (run : insertRead id child position p = .ok u q) :
    LabelledRead a rest (Function.update lab p.nextId (v, .read position)) q := by
  have hinserted := inserted_of_insertRead hp run
  obtain ⟨o, o', ho, ho', hname⟩ := name_of_between hp rfl run
  have hcs {c : NodeId} {m : Node} (hm : p.nodes.get? c = some m) (hc : c ∈ IdSet.singleton child) :
      (lab c).2 ≠ .closing ∧ (lab c).2 ≠ .staged :=
    not_shares_of_opening h.toLabelled hp ha (by rw [hid]) hm (hinserted.feeds_of_mem hp hc)
  have hlabelled := h.toLabelled.insert hp hinserted (fun c m hm hc hk => absurd hk (hcs hm hc).1) (by simp)
    (fun c m hm hc => (hcs hm hc).2) ⟨o, o', ho, ho', hname.trans (readEnding_eq rfl)⟩
    (show (Label.read position).marks = _ by rw [hid]; rfl) rfl (by simp) (.inr fun k m hm => by rw [hid]; exact hfresh k m hm)
  rw [hid] at hlabelled
  refine ⟨hlabelled, h.upto.insert hinserted le_rfl, fun k m w i hm hk => ?_⟩
  rcases hinserted.op_of hm with ⟨rfl, -⟩ | ⟨hkn, m', hm', -⟩
  · rw [Function.update_self] at hk
    cases hk
    exact Opened.insert ⟨id, n, hn, hid, hrest⟩ hp hinserted
  · rw [Function.update_of_ne hkn] at hk
    exact (h.visited k m' w i hm' hk).insert hp hinserted

theorem labelledRead_of_readAfterOpening (hp : p.Coherent) (ha : a.Coherent) (hn : p.nodes.get? id = some n)
    (h : LabelledRead a (id :: rest) lab p) (hop : n.op = .opening) (hrest : id ∉ rest)
    (run : readAfterOpening id p = .ok u q) : ∃ lab, LabelledRead a rest lab q := by
  rw [readAfterOpening_eq] at run
  obtain ⟨children, r, asked, run⟩ := run_bind.mp run
  obtain ⟨-, rfl⟩ := run_ask.mp asked
  obtain ⟨v, hid⟩ : ∃ v, lab id = (v, .opening) :=
    ⟨(lab id).1, Prod.ext rfl (Label.eq_opening_of_holds (hop ▸ h.holds id n hn))⟩
  have hpositions : (children.zipIdx.map Prod.snd).Nodup := by
    rw [List.zipIdx_map_snd]
    exact List.nodup_range'
  -- no position is used twice
  have hloop : q.Coherent ∧ ((([] : List (NodeId × Nat)).map Prod.snd).Nodup) ∧ ∃ lab n, LabelledRead a rest lab q ∧
      q.nodes.get? id = some n ∧ lab id = (v, .opening) ∧
      ∀ k n, q.nodes.get? k = some n → ∀ i ∈ ([] : List (NodeId × Nat)).map Prod.snd, lab k ≠ (v, .read i) := by
    refine forM_loop
      (motive := fun left s => s.Coherent ∧ (left.map Prod.snd).Nodup ∧ ∃ lab n, LabelledRead a rest lab s ∧
        s.nodes.get? id = some n ∧ lab id = (v, .opening) ∧
        ∀ k n, s.nodes.get? k = some n → ∀ i ∈ left.map Prod.snd, lab k ≠ (v, .read i)) ?_ ⟨hp, hpositions, lab, n, ?_, hn, hid, ?_⟩ run
    · rintro ⟨child, position⟩ left s t ⟨hs, hnodup, lab, n, hbs, hn, hid, hfresh⟩ hstep
      obtain ⟨hposition, hnodup'⟩ := List.nodup_cons.mp hnodup
      obtain ⟨m, hm, hstep⟩ := run_readBehind.mp hstep
      obtain ⟨-, rfl⟩ | ⟨hstore, -⟩ | ⟨-, -, hinsert⟩ := hstep
      · exact ⟨hs, hnodup', lab, n, hbs, hn, hid, fun k m hm i hi => hfresh k m hm i (List.mem_cons_of_mem _ hi)⟩
      · have hstage := hbs.upto child m hm
        rw [Label.stage_of_holds_store (hstore ▸ hbs.holds child m hm)] at hstage
        exact absurd hstage (by decide)
      · have inserted := inserted_of_insertRead hs hinsert
        have hlabelled := hbs.insert hs ha hn hid hrest (fun k m hm => hfresh k m hm position List.mem_cons_self) hinsert
        obtain ⟨rel, spliced⟩ := inserted.spliced
        obtain ⟨n', hn', -⟩ := nameAt_eq_some.mp ((spliced.nameAt (hs.below hn)).trans (nameAt_of_get? hn))
        refine ⟨inserted.coherent hs, hnodup', _, n', hlabelled, hn', ?_, fun k m hm i hi => ?_⟩
        · rwa [Function.update_of_ne (hs.ne_nextId hn)]
        · rcases inserted.op_of hm with ⟨rfl, -⟩ | ⟨hkn, m', hm', -⟩
          · rw [Function.update_self]
            intro heq
            cases heq
            exact hposition hi
          · rw [Function.update_of_ne hkn]
            exact hfresh k m' hm' i (List.mem_cons_of_mem _ hi)
    · exact h.mono fun k hk => List.mem_cons_of_mem _ hk
    · exact fun k m hm i _ hk => not_opened_of_head h.toLabelled hn hid (h.visited k m v i hm hk)
  obtain ⟨-, -, lab, -, hq, -⟩ := hloop
  exact ⟨lab, hq⟩

structure LabelledStore (a : Plan) (rest : List NodeId) (lab : NodeId → NodeId × Label) (p : Plan) : Prop
    extends Labelled a lab p where
  visited : ∀ k n v, p.nodes.get? k = some n → lab k = (v, .kept) → Opened rest lab p v

theorem LabelledStore.mono {rest' : List NodeId} (h : LabelledStore a rest lab p) (hrest : ∀ k ∈ rest', k ∈ rest) :
    LabelledStore a rest' lab p :=
  { h with visited := fun k n v hn hk => (h.visited k n v hn hk).mono hrest }

theorem labelledStore_of_storeAfterOpening (hp : p.Coherent) (ha : a.Coherent) (hn : p.nodes.get? id = some n)
    (h : LabelledStore a (id :: rest) lab p) (hop : n.op = .opening) (hrest : id ∉ rest)
    (run : storeAfterOpening id p = .ok u q) : ∃ lab, LabelledStore a rest lab q := by
  have hmono := h.mono fun k hk => List.mem_cons_of_mem id hk
  obtain ⟨v, hid⟩ : ∃ v, lab id = (v, .opening) :=
    ⟨(lab id).1, Prod.ext rfl (Label.eq_opening_of_holds (hop ▸ h.holds id n hn))⟩
  obtain ⟨rfl, -⟩ | hinserted := run_storeAfterOpening hp hn run
  · exact ⟨lab, hmono⟩
  obtain ⟨o, o', position, ho, ho', hname⟩ := hinserted.named
  have hcs {c : NodeId} {m : Node} (hm : p.nodes.get? c = some m) (hc : c ∈ n.children) :
      (lab c).2 ≠ .closing ∧ (lab c).2 ≠ .staged :=
    not_shares_of_opening h.toLabelled hp ha (by rw [hid]) hm (hinserted.feeds_of_mem hp hc)
  have hlabelled := h.toLabelled.insert hp hinserted (fun c m hm hc hk => absurd hk (hcs hm hc).1) (by simp)
    (fun c m hm hc => (hcs hm hc).2) ⟨o, o', ho, ho', hname⟩ (show Label.kept.marks = _ by rw [hid]; rfl) rfl (by simp)
    (.inr fun k m hm hk => by
      rw [hid] at hk
      exact not_opened_of_head h.toLabelled hn hid (h.visited k m v hm hk))
  rw [hid] at hlabelled
  refine ⟨_, hlabelled, fun k m w hm hk => ?_⟩
  rcases hinserted.op_of hm with ⟨rfl, -⟩ | ⟨hkn, m', hm', -⟩
  · rw [Function.update_self] at hk
    cases hk
    exact Opened.insert ⟨id, n, hn, hid, hrest⟩ hp hinserted
  · rw [Function.update_of_ne hkn] at hk
    exact (hmono.visited k m' w hm' hk).insert hp hinserted

theorem labelledStore_of_storeBeforeClosing (hp : p.Coherent) (ha : a.Coherent) (hn : p.nodes.get? id = some n)
    (h : LabelledStore a (id :: rest) lab p) (hop : IsClosing n.op) (run : storeBeforeClosing id p = .ok u q) : ∃ lab, LabelledStore a rest lab q := by
  have hmono := h.mono fun k hk => List.mem_cons_of_mem id hk
  obtain ⟨n', parent, m, hn', hin, hm, ⟨-, rfl⟩ | ⟨hstore, hinserted⟩⟩ := run_storeBeforeClosing hp run
  · exact ⟨lab, hmono⟩
  cases hn.symm.trans hn'
  obtain ⟨st, hop⟩ := hop
  have hid : (lab id).2 = .closing := Label.eq_closing_of_holds (hop ▸ h.holds id n hn)
  have hparent : lab parent = (parent, .plain) := by
    have hfeeds : p.Feeds parent id := ⟨n, hn, by simp [hin]⟩
    rcases h.feeder hp ha hn (.inl hid) hfeeds with hplain | ⟨-, hstaged⟩
    · exact h.eq_of_plain hm hplain
    · have hholds := h.holds parent m hm
      rw [hstaged] at hholds
      exact absurd (Label.store_of_holds hholds) hstore
  have hmem {c : NodeId} (hc : c ∈ IdSet.singleton id) : c = id := IdSet.mem_singleton.mp hc
  obtain ⟨o, o', position, ho, ho', hname⟩ := hinserted.named
  have hlabelled := h.toLabelled.insert hp hinserted (fun _ _ _ _ _ => rfl) (fun _ => hparent)
    (fun c _ _ hc hk => by
      rw [hmem hc, hid] at hk
      cases hk)
    ⟨o, o', ho, ho', hname⟩ (show Label.staged.marks = _ by rw [hparent]; rfl) rfl (by simp) (.inl (.inr rfl))
  rw [hparent] at hlabelled
  refine ⟨_, hlabelled, fun k m' w hm' hk => ?_⟩
  rcases hinserted.op_of hm' with ⟨rfl, -⟩ | ⟨hkn, m₀, hm₀, -⟩
  · rw [Function.update_self] at hk
    cases hk
  · rw [Function.update_of_ne hkn] at hk
    exact (hmono.visited k m₀ w hm₀ hk).insert hp hinserted

theorem labelledStore_of_visitStore (hp : p.Coherent) (ha : a.Coherent) (hn : p.nodes.get? id = some n)
    (h : LabelledStore a (id :: rest) lab p) (hrest : id ∉ rest) (run : Pass.insertStore.visit id n.op p = .ok u q) : ∃ lab, LabelledStore a rest lab q := by
  by_cases hopening : n.op = .opening
  · rw [hopening] at run
    exact labelledStore_of_storeAfterOpening hp ha hn h hopening hrest run
  by_cases hclosing : ∃ storage, n.op = .closing storage
  · obtain ⟨storage, hop⟩ := hclosing
    rw [hop] at run
    exact labelledStore_of_storeBeforeClosing hp ha hn h ⟨storage, hop⟩ run
  rw [Pass.insertStore_visit_of_ne hopening hclosing] at run
  obtain ⟨-, rfl⟩ := run_pure.mp run
  exact ⟨lab, h.mono fun k hk => List.mem_cons_of_mem id hk⟩

end Boundary

-- ---------------------------------------------------------------------------
-- Whole passes
-- ---------------------------------------------------------------------------

namespace Pass

open Plan Edit Boundary

variable {a p q : Plan} {lab : NodeId → NodeId × Label} {u : Unit}

theorem labelled_of_insertClose (hp : p.Orderly) (hplain : p.Plain) (run : insertClose.run p = .ok u q) : ∃ lab, Labelled p lab q ∧ Upto 1 lab q := by
  have hstart (order : List NodeId) (horder : p.topSort = .ok order) :
      order.Nodup ∧ ∃ lab, LabelledClose p order lab p :=
    ⟨(ordered_of_topSortFrom horder).nodup, _, hp.coherent.labelled hplain, fun _ _ _ => Nat.zero_le _,
      fun _ _ hk => nomatch hk⟩
  obtain ⟨r, ⟨-, lab, h⟩, -, hfinish⟩ := exists_of_run
    (motive := fun rest r => rest.Nodup ∧ ∃ lab, LabelledClose p rest lab r) hp (fun _ _ => insertClose_visit_reworks) hstart
    (fun ⟨hnodup, lab, h⟩ hr hn hvisit =>
      have ⟨hid, hrest⟩ := List.nodup_cons.mp hnodup
      ⟨hrest, labelledClose_of_visitClose hr.coherent hn h hid hvisit⟩) run
  have houtline := (Renews.propagateStorage hfinish).outline
  exact ⟨lab, h.toLabelled.of_outline_eq houtline, h.upto.of_outline_eq houtline⟩

theorem labelled_of_insertOpen (hp : p.Orderly) (h : Labelled a lab p) (hupto : Upto 1 lab p)
    (run : insertOpen.run p = .ok u q) : ∃ lab, Labelled a lab q ∧ Upto 2 lab q := by
  have hstart (order : List NodeId) (horder : p.topSort = .ok order) :
      order.Nodup ∧ ∃ lab, LabelledOpen a order lab p := by
    refine ⟨(ordered_of_topSortFrom horder).nodup, lab, h, fun k n hn => (hupto k n hn).trans (by decide), fun k n hn hk => ?_⟩
    have hstage := hupto k n hn
    rw [hk] at hstage
    exact absurd hstage (by decide)
  obtain ⟨r, ⟨-, lab, h⟩, -, hfinish⟩ := exists_of_run
    (motive := fun rest r => rest.Nodup ∧ ∃ lab, LabelledOpen a rest lab r) hp (fun _ _ => insertOpen_visit_reworks) hstart
    (fun {id rest n r s} ⟨hnodup, lab, h⟩ hr hn hvisit => by
      obtain ⟨hid, hrest⟩ := List.nodup_cons.mp hnodup
      have hmono := h.mono fun k hk => List.mem_cons_of_mem id hk
      refine ⟨hrest, ?_⟩
      simp only [insertOpen] at hvisit
      split at hvisit
      · obtain ⟨-, rfl⟩ := run_pure.mp hvisit
        exact ⟨lab, hmono⟩
      rename_i hop
      obtain ⟨rfl, -⟩ | ⟨hlower, inserted⟩ := run_openOutput hr.coherent hn hvisit
      · exact ⟨lab, hmono⟩
      · exact ⟨_, h.insert hr.coherent hid hn (Bool.eq_false_iff.mpr hop) hlower inserted⟩) run
  obtain ⟨-, rfl⟩ := run_pure.mp hfinish
  exact ⟨lab, h.toLabelled, h.upto⟩

theorem labelled_of_insertRead (hp : p.Orderly) (ha : a.Coherent) (h : Labelled a lab p) (hupto : Upto 2 lab p)
    (run : insertRead.run p = .ok u q) : ∃ lab, Labelled a lab q ∧ Upto 3 lab q := by
  have hstart (order : List NodeId) (horder : p.topSort = .ok order) :
      order.Nodup ∧ ∃ lab, LabelledRead a order lab p := by
    refine ⟨(ordered_of_topSortFrom horder).nodup, lab, h, fun k n hn => (hupto k n hn).trans (by decide),
      fun k n v i hn hk => ?_⟩
    have hstage := hupto k n hn
    rw [hk] at hstage
    exact absurd hstage (Nat.lt_irrefl 2)
  obtain ⟨r, ⟨-, lab, h⟩, -, hfinish⟩ := exists_of_run
    (motive := fun rest r => rest.Nodup ∧ ∃ lab, LabelledRead a rest lab r) hp (fun _ _ => insertRead_visit_reworks) hstart
    (fun {id rest n r s} ⟨hnodup, lab, h⟩ hr hn hvisit => by
      obtain ⟨hid, hrest⟩ := List.nodup_cons.mp hnodup
      refine ⟨hrest, ?_⟩
      by_cases hop : n.op = .opening
      · rw [hop] at hvisit
        exact labelledRead_of_readAfterOpening hr.coherent ha hn h hop hid hvisit
      rw [insertRead_visit_of_ne hop] at hvisit
      obtain ⟨-, rfl⟩ := run_pure.mp hvisit
      exact ⟨lab, h.mono fun k hk => List.mem_cons_of_mem id hk⟩) run
  obtain ⟨-, rfl⟩ := run_pure.mp hfinish
  exact ⟨lab, h.toLabelled, h.upto⟩

theorem labelled_of_insertStore (hp : p.Orderly) (ha : a.Coherent) (h : Labelled a lab p) (hupto : Upto 3 lab p)
    (run : insertStore.run p = .ok u q) : ∃ lab, Labelled a lab q := by
  have hstart (order : List NodeId) (horder : p.topSort = .ok order) :
      order.Nodup ∧ ∃ lab, LabelledStore a order lab p := by
    refine ⟨(ordered_of_topSortFrom horder).nodup, lab, h, fun k n v hn hk => ?_⟩
    have hstage := hupto k n hn
    rw [hk] at hstage
    exact absurd hstage (Nat.lt_irrefl 3)
  obtain ⟨r, ⟨-, lab, h⟩, -, hfinish⟩ := exists_of_run
    (motive := fun rest r => rest.Nodup ∧ ∃ lab, LabelledStore a rest lab r) hp (fun _ _ => insertStore_visit_reworks) hstart
    (fun ⟨hnodup, lab, h⟩ hr hn hvisit =>
      have ⟨hid, hrest⟩ := List.nodup_cons.mp hnodup
      ⟨hrest, labelledStore_of_visitStore hr.coherent ha hn h hid hvisit⟩) run
  obtain ⟨-, rfl⟩ := run_pure.mp hfinish
  exact ⟨lab, h.toLabelled⟩

end Pass

namespace Plan

variable {a p q : Plan} {lab : NodeId → NodeId × Label} {u k l : NodeId} {n m : Node}

theorem Built.distinct (hp : p.Built) : p.Distinct := by
  obtain ⟨calls, w, run⟩ := hp
  obtain ⟨hw, rfl⟩ := Workflow.regular_of_write run
  intro k l s hk hl
  obtain ⟨n, hn, hname⟩ := nameAt_eq_some.mp hk
  obtain ⟨m, hm, hname'⟩ := nameAt_eq_some.mp hl
  exact Option.some.inj (((hw.listed s k).mpr ⟨n, hn, hname⟩).symm.trans ((hw.listed s l).mpr ⟨m, hm, hname'⟩))

theorem unmarked_of_underscore (h : ∀ k s, p.nameAt k = some s → '_' ∉ s.toList) : p.Unmarked := by
  rintro k l s t hk hl marks rfl
  by_contra hmarks
  exact h k _ hk (underscore_mem_marked hmarks)

/-- The node keeps the output of `u`, which is no border operator, so that it can be shared. -/
def Stages (p : Plan) (u k : NodeId) : Prop :=
  (∃ op, p.opAt u = some op ∧ op.isBoundary = false) ∧ p.Edge u k ∧ p.opAt k = some .store

/-- The node shares what has been kept of the output of `u`. -/
def Shares (p : Plan) (u k : NodeId) : Prop :=
  ∃ s storage, p.Stages u s ∧ p.Edge s k ∧ p.opAt k = some (.closing storage)

namespace Labelled

theorem stages (h : Labelled a lab q) (hq : q.Coherent) (ha : a.Coherent) (hn : q.nodes.get? k = some n)
    (hk : (lab k).2 = .staged) : q.Stages (lab k).1 k := by
  have hfeeds := h.staged k n hn hk
  obtain ⟨m, hm⟩ := hq.closed hfeeds
  have hholds := h.holds _ m hm
  rw [h.root ha hn] at hholds
  refine ⟨⟨m.op, opAt_eq_some.mpr ⟨m, hm, rfl⟩, ?_⟩, hq.edge_iff.mpr hfeeds, opAt_eq_some.mpr ⟨n, hn, ?_⟩⟩
  · simpa [Label.holds] using hholds
  · exact Label.store_of_holds (hk ▸ h.holds k n hn)

/-- Where handoffs are complete, there is a store between a source and what shares it. -/
theorem shares (h : Labelled a lab q) (hq : q.Coherent) (ha : a.Coherent) (hands : q.HandsOver)
    (hn : q.nodes.get? k = some n) (hk : (lab k).2 = .closing) : q.Shares (lab k).1 k := by
  obtain ⟨storage, hop⟩ := Label.isClosing_of_holds (hk ▸ h.holds k n hn)
  have hclosing := opAt_eq_some.mpr ⟨n, hn, hop⟩
  obtain ⟨⟨s, hstore, honly⟩, -⟩ := hands.closing k storage hclosing
  have hsk := hq.edge_iff.mp ((honly s).mpr rfl)
  obtain ⟨m, hm, hop'⟩ := opAt_eq_some.mp hstore
  have hholds := h.holds s m hm
  rw [hop'] at hholds
  rcases h.feeder hq ha hn (.inl hk) hsk with hplain | ⟨-, hs⟩
  · rw [hplain] at hholds
    cases hholds
  · have hstages := h.stages hq ha hm (by rw [hs])
    rw [hs] at hstages
    exact ⟨s, storage, hstages, hq.edge_iff.mpr hsk, hclosing⟩

/-- Nodes whose relations have the same name are the same one, or both hand over the same output. -/
theorem eq_or_hands (h : Labelled a lab q) (hq : q.Coherent) (ha : a.Coherent) (hands : q.HandsOver)
    (hsprouting : Sprouting p [] a) (hu : p.Unmarked) (hd : p.Distinct) (hn : q.nodes.get? k = some n)
    (hm : q.nodes.get? l = some m) (hname : n.rel.name = m.rel.name) :
    k = l ∨ ∃ u, (q.Stages u k ∧ q.Stages u l) ∨ (q.Shares u k ∧ q.Shares u l) := by
  obtain ⟨b, hb, hk⟩ := h.named k n hn
  obtain ⟨c, hc, hl⟩ := h.named l m hm
  rw [hk, hl] at hname
  obtain ⟨hroot, hmarks⟩ := hsprouting.inj hu hd hb hc Label.head_marks Label.head_marks hname
  have hsame : lab k = lab l := Prod.ext hroot (Label.marks_injective hmarks)
  rcases h.unique k l n m hn hm hsame with heq | hclosing | hstaged
  · exact .inl heq
  · have hclosing' := hsame ▸ hclosing
    exact .inr ⟨_, .inr ⟨h.shares hq ha hands hn hclosing, hsame ▸ h.shares hq ha hands hm hclosing'⟩⟩
  · have hstaged' := hsame ▸ hstaged
    exact .inr ⟨_, .inl ⟨h.stages hq ha hn hstaged, hsame ▸ h.stages hq ha hm hstaged'⟩⟩

end Labelled

end Plan

namespace Workflow

/-- Two relations are put together twice. -/
def concatTwice : List Call :=
  [.create "a" [.fresh "x" .integer] (.among 1 []),
   .create "b" [.fresh "x" .integer] (.among 2 []),
   .concat [0, 1] "c", .concat [0, 1] "d", .concat [2, 3] "e", .collect 4 "f" (.singleton 1)]

/-- What two relations are put together to is limited twice. One of the limits has the name that
a copy of the concatenation gets. -/
def limitTwice : List Call :=
  [.create "a" [.fresh "x" .integer] (.among 1 []),
   .create "b" [.fresh "x" .integer] (.among 2 []),
   .concat [0, 1] "c", .limit 2 "c_1" 1, .limit 2 "d" 1, .concat [3, 4] "e", .collect 5 "f" (.singleton 1)]

end Workflow

namespace Edit

open Plan

variable {p q : Plan} {optimize : Bool} {u : Unit}

theorem labelled_of_insertBoundaries (hp : p.Orderly) (hplain : p.Plain) (run : insertBoundaries p = .ok u q) : ∃ lab, Labelled p lab q := by
  obtain ⟨a, b, c, ha, hb, hc, hq⟩ := run_insertBoundaries.mp run
  have hpa := hp.reworked (Pass.insertClose_reworks hp.coherent ha)
  have hab := hpa.reworked (Pass.insertOpen_reworks hpa.coherent hb)
  have hbc := hab.reworked (Pass.insertRead_reworks hab.coherent hc)
  obtain ⟨_, hlabelled, hupto⟩ := Pass.labelled_of_insertClose hp hplain ha
  obtain ⟨_, hlabelled, hupto⟩ := Pass.labelled_of_insertOpen hpa hlabelled hupto hb
  obtain ⟨_, hlabelled, hupto⟩ := Pass.labelled_of_insertRead hab hp.coherent hlabelled hupto hc
  exact Pass.labelled_of_insertStore hbc hp.coherent hlabelled hupto hq

/-- The names that a plan has before the boundary operators come in, and the labels of all
nodes at the end. -/
theorem labelled_of_compile (hp : p.Orderly) (hplain : p.Plain) (run : compile optimize p = .ok u q) : ∃ a lab, a.Coherent ∧ Sprouting p [] a ∧ Labelled a lab q := by
  obtain ⟨a, b, c, ha, hb, hc, hq⟩ := exists_of_compile run
  have hsprouting := sprouting_of_prepare hp ha
  obtain ⟨ha, -, hplaced⟩ := prepare_serves hp ha
  obtain ⟨lab, hlabelled⟩ := labelled_of_insertBoundaries ha (hplaced _ plain_placement hplain) hb
  have horderly := ha.reworked (insertBoundaries_reworks ha.coherent hb)
  have hrefreshed := Renews.refreshAll hc
  have hwidened := (widen_reworks (horderly.coherent.of_outline_eq hrefreshed.outline) hq).renewed
  exact ⟨a, lab, ha.coherent, hsprouting, hlabelled.of_outline_eq (hwidened.outline.trans hrefreshed.outline)⟩

/-- Relations keep their names. If no name of a plan that has been built is another one with endings, two
nodes of the compiled plan have relations of the same name only if both keep, or both share, the output of one node. -/
theorem compile_names (optimize : Bool) (hp : p.Built) (hfree : ¬ Exhausts (compile optimize) p) :
    ∃ q, compile optimize p = .ok () q ∧
      (∀ k s t, p.nameAt k = some s → q.nameAt k = some t → t = s) ∧
      (p.Unmarked → ∀ k l s, q.nameAt k = some s → q.nameAt l = some s →
        k = l ∨ ∃ u, (q.Stages u k ∧ q.Stages u l) ∨ (q.Shares u k ∧ q.Shares u l)) := by
  have hsimple := hp.simple
  obtain ⟨_, _, _, -, -, -, hcarries⟩ := hp.exists_carries
  obtain ⟨_, q, run, -⟩ := (wp_compile optimize hcarries).exists_of_not_exhausts hfree
  obtain ⟨hq, hands⟩ := handsOver_of_compile hsimple.toOrderly hsimple.plain run
  obtain ⟨a, lab, ha, hsprouting, hlabelled⟩ := labelled_of_compile hsimple.toOrderly hsimple.plain run
  refine ⟨q, run, fun k s t hs ht => ?_, fun hu k l s hk hl => ?_⟩
  · have hk := hsimple.coherent.below_of_nameAt hs
    obtain ⟨n, hn, rfl⟩ := nameAt_eq_some.mp ht
    obtain ⟨b, hb, hname⟩ := hlabelled.named k n hn
    rw [hlabelled.old k (hk.trans_le hsprouting.next)] at hb hname
    rw [hsprouting.old k b hk hb] at hs
    exact hname.trans (Option.some.inj hs)
  · obtain ⟨n, hn, hname⟩ := nameAt_eq_some.mp hk
    obtain ⟨m, hm, hname'⟩ := nameAt_eq_some.mp hl
    exact hlabelled.eq_or_hands hq ha hands hsprouting hu hp.distinct hn hm (hname.trans hname'.symm)

/-- Names without underscores: the two stores and the two closings of a relation are all that coincides. -/
theorem compile_names_concatTwice : ∃ p q, p.Built ∧ ¬ Exhausts (compile true) p ∧ p.Unmarked ∧
    compile true p = .ok () q ∧ (∀ k s t, p.nameAt k = some s → q.nameAt k = some t → t = s) ∧
    (∀ k l s, q.nameAt k = some s → q.nameAt l = some s →
      k = l ∨ ∃ u, (q.Stages u k ∧ q.Stages u l) ∨ (q.Shares u k ∧ q.Shares u l)) := by
  have hwrites : Workflow.writesTo Workflow.concatTwice (fun p => runsTo (compile true) p fun _ =>
      ∀ k ∈ p.nodes.keys, ∀ s ∈ p.nameAt k, '_' ∉ s.toList) = true := by cbv
  obtain ⟨p, w, hwrite, hruns⟩ := Workflow.exists_of_writesTo hwrites
  obtain ⟨_, run, htest⟩ := exists_of_runsTo hruns
  have hnames := of_decide_eq_true htest
  have hfree := not_exhausts_of_ok run
  have hunmarked : p.Unmarked := unmarked_of_underscore fun k s hs => by
    obtain ⟨n, hn, -⟩ := nameAt_eq_some.mp hs
    exact hnames k (IdMap.mem_keys_of_get? hn) s hs
  obtain ⟨q, run, hkeep, hq⟩ := compile_names true ⟨_, w, hwrite⟩ hfree
  exact ⟨p, q, ⟨_, w, hwrite⟩, hfree, hunmarked, run, hkeep, hq hunmarked⟩

/-- A relation that two joint computations read is shared twice under one name, and the copy of a node may get
a name that has been taken. -/
theorem compile_names_clash :
    (∃ p, p.Built ∧ ∀ optimize, ∃ q, compile optimize p = .ok () q ∧ q.nameAt 6 = some "a_close" ∧
      q.nameAt 8 = some "a_close") ∧
    ∃ p q, p.Built ∧ compile true p = .ok () q ∧ q.nameAt 3 = some "c_1" ∧ q.nameAt 7 = some "c_1" := by
  constructor
  · have hcompiles (optimize : Bool) : Workflow.compilesTo optimize Workflow.concatTwice
        (fun q => q.nameAt 6 = some "a_close" ∧ q.nameAt 8 = some "a_close") = true := by cases optimize <;> cbv
    obtain ⟨p, w, hwrite, hboth⟩ := Workflow.exists_of_compilesTo_both hcompiles
    refine ⟨p, ⟨_, w, hwrite⟩, fun optimize => ?_⟩
    obtain ⟨q, run, htest⟩ := hboth optimize
    exact ⟨q, run, of_decide_eq_true htest⟩
  · have hcompiles : Workflow.compilesTo true Workflow.limitTwice
        (fun q => q.nameAt 3 = some "c_1" ∧ q.nameAt 7 = some "c_1") = true := by cbv
    obtain ⟨p, q, hp, run, htest⟩ := Workflow.exists_of_compilesTo hcompiles
    exact ⟨p, q, hp, run, of_decide_eq_true htest⟩

end Edit

end JointPlan
