import JointPlan.Proofs.Reworking
import JointPlan.Proofs.Traversal

/-!
# What the boundary passes do

One lemma for each function of the passes: what is put in when it finishes, and under
which condition. It follows that each pass reworks the plan with operators of its own
kind.
-/

namespace JointPlan

namespace Boundary

open Plan Edit

variable {p q : Plan} {id source parent child : NodeId} {n : Node} {op : Op} {ending : String} {u : Unit}

-- ---------------------------------------------------------------------------
-- Insertions
-- ---------------------------------------------------------------------------

theorem run_orphanAfter {new : NodeId} : orphanAfter source op ending p = .ok new q ↔
    ∃ n, p.nodes.get? source = some n ∧
      addOrphan op (n.rel.rename s!"{n.rel.name}_{ending}") p = .ok new q := by
  simp only [orphanAfter, run_bind, run_node]
  constructor
  · rintro ⟨n, _, ⟨hn, rfl⟩, run⟩
    exact ⟨n, hn, run⟩
  · rintro ⟨n, hn, run⟩
    exact ⟨n, p, ⟨hn, rfl⟩, run⟩

/-- A new node is named after its parent. -/
theorem name_of_between (hp : p.Coherent) (hop : op.isBoundary = true)
    (run : (orphanAfter parent op ending >>= fun new => insertBetween parent child new) p = .ok u q) :
    ∃ n m, p.nodes.get? parent = some n ∧ q.nodes.get? p.nextId = some m ∧ m.rel.name = s!"{n.rel.name}_{ending}" := by
  obtain ⟨new, r, add, run⟩ := run_bind.mp run
  obtain ⟨n, hn, add⟩ := run_orphanAfter.mp add
  obtain ⟨m, hm, hname⟩ := (spliced_of_insertBetween hp.toLinked add (n.rel.numbered_rename _) (fun ds hds => by
    rw [hds] at hop
    cases hop) run).name_new
  exact ⟨n, m, hn, hm, hname⟩

theorem inserted_between (hp : p.Coherent) (hop : op.isBoundary = true) (position : Nat)
    (hending : ∀ s : String, s!"{s}_{ending}" = marked s (op.marks position))
    (run : (orphanAfter parent op ending >>= fun new => insertBetween parent child new) p = .ok u q) : p.Inserted parent (.singleton child) op q := by
  obtain ⟨o, o', ho, ho', hname⟩ := name_of_between hp hop run
  obtain ⟨new, r, add, run⟩ := run_bind.mp run
  obtain ⟨n, -, add⟩ := run_orphanAfter.mp add
  have hnumbered := n.rel.numbered_rename s!"{n.rel.name}_{ending}"
  obtain ⟨-, -, ⟨m, hm, -⟩, hrun⟩ := run_insertBetween hp.toLinked add run
  obtain ⟨_, r', hrefresh, hstorage⟩ := run_bind.mp hrun
  obtain ⟨rel, rfl, hemits⟩ := exists_of_refresh_splice hm (hp.ne_nextId hm) hop hrefresh
  refine ⟨hop, ⟨child, by simp⟩, ⟨_, spliced_of_insertBetween hp.toLinked add hnumbered (fun ds hds => ?_) run⟩,
    ⟨m, rel, hm, hemits, run_forM_cons.mpr ⟨q, hstorage, rfl⟩⟩, o, o', position, ho, ho', hname.trans (hending _)⟩
  rw [hds] at hop
  cases hop

theorem inserted_afterAll (hp : p.Coherent) (hop : op.isBoundary = true) (position : Nat)
    (hending : ∀ s : String, s!"{s}_{ending}" = marked s (op.marks position))
    (hn : p.nodes.get? parent = some n) (hleaf : n.isLeaf = false)
    (run : (orphanAfter parent op ending >>= fun new => insertAfterAll parent new) p = .ok u q) : p.Inserted parent n.children op q := by
  obtain ⟨new, r, add, run⟩ := run_bind.mp run
  obtain ⟨m, hm, add⟩ := run_orphanAfter.mp add
  cases hn.symm.trans hm
  have hnumbered := n.rel.numbered_rename s!"{n.rel.name}_{ending}"
  obtain ⟨-, -, hrun⟩ := run_insertAfterAll hp.toLinked add hn run
  obtain ⟨_, r', hrefresh, hstorage⟩ := run_bind.mp hrun
  obtain ⟨rel, rfl, hemits⟩ := exists_of_refresh_splice hn (hp.ne_nextId hn) hop hrefresh
  have spliced := spliced_of_insertAfterAll hp.toLinked add hnumbered (fun ds hds => by
    rw [hds] at hop
    cases hop) hn run
  obtain ⟨o, ho, hname⟩ := spliced.name_new
  exact ⟨hop, IdSet.isEmpty_eq_false_iff.mp hleaf, ⟨_, spliced⟩, ⟨n, rel, hn, hemits, hstorage⟩, n, o, position, hn, ho,
    hname.trans (hending _)⟩

-- ---------------------------------------------------------------------------
-- Entering MPC
-- ---------------------------------------------------------------------------

theorem mem_firsts {ids : List NodeId} : id ∈ firsts ids ↔ id ∈ ids := by
  suffices h : ∀ acc, id ∈ ids.foldl (fun acc id => if id ∈ acc then acc else acc ++ [id]) acc ↔
      id ∈ acc ∨ id ∈ ids by simpa [firsts] using h []
  induction ids with
  | nil => simp
  | cons a ids ih =>
    intro acc
    rw [List.foldl_cons, ih]
    split <;> grind

theorem nodup_firsts {ids : List NodeId} : (firsts ids).Nodup := by
  suffices h : ∀ acc : List NodeId, acc.Nodup →
      (ids.foldl (fun acc id => if id ∈ acc then acc else acc ++ [id]) acc).Nodup from h [] List.nodup_nil
  induction ids with
  | nil => exact fun _ h => h
  | cons a ids ih =>
    intro acc hacc
    refine ih _ ?_
    dsimp only
    split
    · exact hacc
    · rename_i ha
      exact hacc.append (List.nodup_singleton a) (by simpa using ha)

/-- The output of `parent` can go as it is into a node that computes on a sharing. -/
def Arrives (p : Plan) (shared : Storage) (parent : NodeId) : Prop :=
  ∃ m, p.nodes.get? parent = some m ∧
    (m.op = .closing shared ∨ m.rel.storage = shared ∧ p.requiresMpc parent = .ok true)

theorem arrivesShared_eq {shared : Storage} : arrivesShared shared parent = (do
    let m ← node parent
    if m.op = .closing shared then return true
    else if m.rel.storage = shared then ask fun p => p.requiresMpc parent
    else return false) := by
  refine congrArg (node parent >>= ·) (funext fun m => ?_)
  cases m.op <;> simp

theorem run_arrivesShared {shared : Storage} {arrives : Bool}
    (run : arrivesShared shared parent p = .ok arrives q) :
    q = p ∧ (arrives = true ↔ Arrives p shared parent) := by
  rw [arrivesShared_eq] at run
  simp only [run_bind, run_node] at run
  obtain ⟨m, _, ⟨hm, rfl⟩, run⟩ := run
  have harrives : Arrives p shared parent ↔
      m.op = .closing shared ∨ m.rel.storage = shared ∧ p.requiresMpc parent = .ok true := by
    simp [Arrives, hm]
  rw [harrives]
  split at run
  case isTrue hop =>
    obtain ⟨rfl, rfl⟩ := run_pure.mp run
    simp [hop]
  case isFalse hop =>
    split at run
    case isTrue hstorage =>
      obtain ⟨hflag, rfl⟩ := run_ask.mp run
      simp [hop, hstorage, hflag]
    case isFalse hstorage =>
      obtain ⟨rfl, rfl⟩ := run_pure.mp run
      simp [hop, hstorage]

theorem arrivesShared_of_arrives {shared : Storage} (h : Arrives p shared parent) :
    arrivesShared shared parent p = .ok true p := by
  obtain ⟨m, hm, h⟩ := h
  rw [arrivesShared_eq]
  refine run_bind.mpr ⟨m, p, run_node.mpr ⟨hm, rfl⟩, ?_⟩
  split
  · exact run_pure.mpr ⟨rfl, rfl⟩
  · obtain ⟨hstorage, hflag⟩ := h.resolve_left ‹_›
    rw [if_pos hstorage]
    exact run_ask.mpr ⟨hflag, rfl⟩

/-- What is done for one input. -/
def closeInput (id : NodeId) (shared : Storage) (parent : NodeId) : Edit Unit := do
  if !(← arrivesShared shared parent) then
    let closing ← orphanAfter parent (.closing shared) "close"
    insertBetween parent id closing

theorem run_closeInput {shared : Storage} (hp : p.Coherent)
    (run : closeInput id shared parent p = .ok u q) :
    (q = p ∧ Arrives p shared parent) ∨ p.Inserted parent (.singleton id) (.closing shared) q := by
  obtain ⟨arrives, r, asked, run⟩ := run_bind.mp run
  obtain ⟨hr, harrives⟩ := run_arrivesShared asked
  subst r
  cases arrives with
  | true => exact .inl ⟨(run_pure.mp run).2.symm, harrives.mp rfl⟩
  | false => exact .inr (inserted_between hp rfl 0 (fun _ => rfl) run)

theorem run_closeInputs : closeInputs id p = .ok u q ↔ ∃ r, refreshStorage id p = .ok () r ∧
    ((r.requiresMpc id = .ok false ∧ r = q) ∨ (r.requiresMpc id = .ok true ∧ ∃ n,
      r.nodes.get? id = some n ∧
        (firsts n.inputs.ids).forM (closeInput id n.rel.storage.shared) r = .ok () q)) := by
  simp only [closeInputs, run_bind, run_ask]
  constructor
  · rintro ⟨_, r, hstorage, flag, _, ⟨hflag, rfl⟩, run⟩
    refine ⟨r, hstorage, ?_⟩
    cases flag with
    | false => exact .inl ⟨hflag, (run_pure.mp run).2⟩
    | true =>
      obtain ⟨n, _, asked, run⟩ := run_bind.mp run
      obtain ⟨hn, rfl⟩ := run_node.mp asked
      exact .inr ⟨hflag, n, hn, run⟩
  · rintro ⟨r, hstorage, ⟨hflag, rfl⟩ | ⟨hflag, n, hn, run⟩⟩
    · exact ⟨(), r, hstorage, false, r, ⟨hflag, rfl⟩, run_pure.mpr ⟨rfl, rfl⟩⟩
    · exact ⟨(), r, hstorage, true, r, ⟨hflag, rfl⟩,
        run_bind.mpr ⟨n, r, run_node.mpr ⟨hn, rfl⟩, run⟩⟩

-- ---------------------------------------------------------------------------
-- Leaving MPC
-- ---------------------------------------------------------------------------

theorem run_openOutput (hp : p.Coherent) (hn : p.nodes.get? id = some n)
    (run : openOutput id p = .ok u q) :
    (q = p ∧ (n.isLeaf = true ∨ p.isLowerBoundary id = .ok false)) ∨
      (p.isLowerBoundary id = .ok true ∧ p.Inserted id n.children .opening q) := by
  obtain ⟨leaf, r, asked, run⟩ := run_bind.mp run
  obtain ⟨hleaf, rfl⟩ := run_ask.mp asked
  obtain ⟨n', hn', rfl⟩ := map_eq_ok.mp hleaf
  cases hn.symm.trans (node_eq_ok.mp hn')
  cases hleaf : n.isLeaf with
  | true =>
    rw [hleaf] at run
    exact .inl ⟨(run_pure.mp run).2.symm, .inl rfl⟩
  | false =>
    rw [hleaf] at run
    obtain ⟨lower, r, asked, run⟩ := run_bind.mp run
    obtain ⟨hlower, rfl⟩ := run_ask.mp asked
    cases lower with
    | false => exact .inl ⟨(run_pure.mp run).2.symm, .inr hlower⟩
    | true => exact .inr ⟨hlower, inserted_afterAll hp rfl 0 (fun _ => rfl) hn hleaf run⟩

-- ---------------------------------------------------------------------------
-- Handoffs
-- ---------------------------------------------------------------------------

theorem readEnding_eq {position : Nat} {s ending : String} (h : ending = if position = 0 then "read" else s!"read_{position}") :
    s!"{s}_{ending}" = marked s (Op.read.marks position) := by
  subst h
  cases position with
  | zero => rfl
  | succ i =>
    show s ++ "_" ++ ("read_" ++ toString (i + 1)) = s ++ "_" ++ "read" ++ "_" ++ toString (i + 1)
    rw [show "read_" = "read" ++ "_" from rfl]
    simp only [String.append_assoc]

theorem inserted_of_insertRead {position : Nat} (hp : p.Coherent)
    (run : insertRead parent child position p = .ok u q) :
    p.Inserted parent (.singleton child) .read q :=
  inserted_between hp rfl position (fun _ => readEnding_eq rfl) run

/-- What is done for one child of a store. -/
def readOne (parent : NodeId) (child : NodeId × Nat) : Edit Unit := do
  if (← node child.1).op ≠ .read then insertRead parent child.1 child.2

theorem readChildren_eq : readChildren parent = (do
    let children ← ask fun p => p.sortedChildren parent
    children.zipIdx.forM (readOne parent)) := rfl

/-- What is done for one child of an opening. -/
def readBehind (id : NodeId) (child : NodeId × Nat) : Edit Unit := do
  match (← node child.1).op with
  | .read => return
  | .store => readChildren child.1
  | _ => insertRead id child.1 child.2

theorem readAfterOpening_eq : readAfterOpening id = (do
    let children ← ask fun p => p.sortedChildren id
    children.zipIdx.forM (readBehind id)) := rfl

theorem run_readOne {child : NodeId × Nat} : readOne parent child p = .ok u q ↔
    ∃ n, p.nodes.get? child.1 = some n ∧ ((n.op = .read ∧ p = q) ∨
      (n.op ≠ .read ∧ insertRead parent child.1 child.2 p = .ok () q)) := by
  simp only [readOne, run_bind, run_node]
  constructor
  · rintro ⟨n, _, ⟨hn, rfl⟩, run⟩
    refine ⟨n, hn, ?_⟩
    split at run
    case isTrue hop => exact .inr ⟨hop, run⟩
    case isFalse hop => exact .inl ⟨not_not.mp hop, (run_pure.mp run).2⟩
  · rintro ⟨n, hn, ⟨hop, rfl⟩ | ⟨hop, run⟩⟩
    · exact ⟨n, p, ⟨hn, rfl⟩, by simp [hop]⟩
    · exact ⟨n, p, ⟨hn, rfl⟩, by simpa [hop] using run⟩

theorem run_readBehind {child : NodeId × Nat} : readBehind id child p = .ok u q ↔
    ∃ n, p.nodes.get? child.1 = some n ∧ ((n.op = .read ∧ p = q) ∨
      (n.op = .store ∧ readChildren child.1 p = .ok () q) ∨
      (n.op ≠ .read ∧ n.op ≠ .store ∧ insertRead id child.1 child.2 p = .ok () q)) := by
  simp only [readBehind, run_bind, run_node]
  constructor
  · rintro ⟨n, _, ⟨hn, rfl⟩, run⟩
    refine ⟨n, hn, ?_⟩
    cases hop : n.op <;> simp only [hop] at run
    case read => exact .inl ⟨rfl, (run_pure.mp run).2⟩
    case store => exact .inr (.inl ⟨rfl, run⟩)
    all_goals exact .inr (.inr ⟨by simp, by simp, run⟩)
  · rintro ⟨n, hn, ⟨hop, rfl⟩ | ⟨hop, run⟩ | ⟨hread, hstore, run⟩⟩
    · exact ⟨n, p, ⟨hn, rfl⟩, by simp [hop]⟩
    · exact ⟨n, p, ⟨hn, rfl⟩, by simpa [hop] using run⟩
    · refine ⟨n, p, ⟨hn, rfl⟩, ?_⟩
      cases hop : n.op <;> first | exact run | contradiction

theorem run_feedsOneStore {one : Bool} (hp : p.Coherent) (hn : p.nodes.get? id = some n)
    (run : feedsOneStore id p = .ok one q) : q = p ∧
      (one = true ↔ ∃ c m, n.children = .singleton c ∧ p.nodes.get? c = some m ∧ m.op = .store) := by
  simp only [feedsOneStore, run_bind, run_node] at run
  obtain ⟨n', _, ⟨hn', rfl⟩, run⟩ := run
  cases hn.symm.trans hn'
  split at run
  case isTrue hsize =>
    obtain ⟨rfl, rfl⟩ := run_pure.mp run
    refine ⟨rfl, by simp, ?_⟩
    rintro ⟨c, m, hc, -⟩
    rw [hc] at hsize
    exact absurd rfl hsize
  case isFalse hsize =>
    obtain ⟨children, _, asked, run⟩ := run_bind.mp run
    obtain ⟨hsorted, rfl⟩ := run_ask.mp asked
    have hperm := sortedChildren_perm hp.toLinked hn hsorted
    obtain ⟨c, hc⟩ : ∃ c, n.children.toList = [c] := List.length_eq_one_iff.mp (not_not.mp hsize)
    have hchildren : n.children = .singleton c := IdSet.ext fun a => by
      rw [← IdSet.mem_toList, hc]
      simp
    rw [hc, List.perm_singleton] at hperm
    subst hperm
    simp only [run_bind, run_node, run_pure] at run
    obtain ⟨m, _, ⟨hm, rfl⟩, rfl, rfl⟩ := run
    refine ⟨rfl, ?_⟩
    rw [decide_eq_true_iff]
    constructor
    · exact fun hop => ⟨c, m, hchildren, hm, hop⟩
    · rintro ⟨c', m', hc', hm', hop⟩
      have : c = c' := by simpa using congrArg (c ∈ ·) (hchildren.symm.trans hc')
      subst this
      cases hm.symm.trans hm'
      exact hop

theorem run_storeAfterOpening (hp : p.Coherent) (hn : p.nodes.get? id = some n)
    (run : storeAfterOpening id p = .ok u q) :
    (q = p ∧ (n.isLeaf = true ∨
      ∃ c m, n.children = .singleton c ∧ p.nodes.get? c = some m ∧ m.op = .store)) ∨
      p.Inserted id n.children .store q := by
  simp only [storeAfterOpening, run_bind, run_node] at run
  obtain ⟨n', _, ⟨hn', rfl⟩, run⟩ := run
  cases hn.symm.trans hn'
  cases hleaf : n.isLeaf with
  | true =>
    rw [hleaf] at run
    exact .inl ⟨(run_pure.mp run).2.symm, .inl rfl⟩
  | false =>
    rw [hleaf] at run
    obtain ⟨one, r, asked, run⟩ := run_bind.mp run
    obtain ⟨hr, hone⟩ := run_feedsOneStore hp hn asked
    subst r
    cases one with
    | true => exact .inl ⟨(run_pure.mp run).2.symm, .inr (hone.mp rfl)⟩
    | false => exact .inr (inserted_afterAll hp rfl 0 (fun _ => rfl) hn hleaf run)

theorem run_storeBeforeClosing (hp : p.Coherent)
    (run : storeBeforeClosing id p = .ok u q) :
    ∃ n parent m, p.nodes.get? id = some n ∧ n.inputs = .unary parent ∧
      p.nodes.get? parent = some m ∧ ((m.op = .store ∧ q = p) ∨
        (m.op ≠ .store ∧ p.Inserted parent (.singleton id) .store q)) := by
  simp only [storeBeforeClosing, run_bind, run_node] at run
  obtain ⟨n, _, ⟨hn, rfl⟩, run⟩ := run
  cases hin : n.inputs <;> simp only [hin, run_throw] at run
  case unary parent =>
    obtain ⟨m, _, asked, run⟩ := run_bind.mp run
    obtain ⟨hm, rfl⟩ := run_node.mp asked
    refine ⟨n, parent, m, hn, hin, hm, ?_⟩
    split at run
    case isTrue hop => exact .inr ⟨hop, inserted_between hp rfl 0 (fun _ => rfl) run⟩
    case isFalse hop => exact .inl ⟨not_not.mp hop, (run_pure.mp run).2.symm⟩

-- ---------------------------------------------------------------------------
-- Whole passes
-- ---------------------------------------------------------------------------

/-- The kind of operator that the first pass puts in. -/
def IsClosing (op : Op) : Prop := ∃ storage, op = .closing storage

theorem closeInputs_reworks : Reworks IsClosing (closeInputs id) := by
  have hclose {shared : Storage} {parent : NodeId} : Reworks IsClosing (closeInput id shared parent) :=
    .of_inserted fun _ _ _ hp run =>
      (run_closeInput hp run).imp And.left fun inserted => ⟨_, _, _, ⟨_, rfl⟩, inserted⟩
  exact Reworks.refreshStorage.bind fun _ => Reworks.ask.bind fun _ =>
    .ite (Reworks.node.bind fun _ => .forM fun _ _ => hclose) .pure

theorem openOutput_reworks : Reworks (· = .opening) (openOutput id) := by
  refine .of_inserted fun p _ _ hp run => ?_
  obtain ⟨leaf, _, asked, -⟩ := run_bind.mp run
  obtain ⟨n, hn, -⟩ := map_eq_ok.mp (run_ask.mp asked).1
  exact (run_openOutput hp (node_eq_ok.mp hn) run).imp And.left
    fun inserted => ⟨_, _, _, rfl, inserted.2⟩

theorem insertRead_reworks {position : Nat} : Reworks (· = .read) (insertRead parent child position) :=
  .of_inserted fun _ _ _ hp run =>
    .inr ⟨_, _, _, rfl, inserted_of_insertRead hp run⟩

theorem readOne_reworks {child : NodeId × Nat} : Reworks (· = .read) (readOne parent child) :=
  Reworks.node.bind fun _ => .ite insertRead_reworks .pure

theorem readBehind_reworks {child : NodeId × Nat} : Reworks (· = .read) (readBehind id child) :=
  Reworks.node.bind fun n => by
    cases n.op with
    | read => exact .pure
    | store => exact Reworks.ask.bind fun _ => .forM fun _ _ => readOne_reworks
    | _ => exact insertRead_reworks

theorem readAfterOpening_reworks : Reworks (· = .read) (readAfterOpening id) :=
  Reworks.ask.bind fun _ => .forM fun _ _ => readBehind_reworks

theorem storeAfterOpening_reworks : Reworks (· = .store) (storeAfterOpening id) := by
  refine .of_inserted fun p _ _ hp run => ?_
  obtain ⟨n, _, asked, -⟩ := run_bind.mp run
  exact (run_storeAfterOpening hp (run_node.mp asked).1 run).imp And.left
    fun inserted => ⟨_, _, _, rfl, inserted⟩

theorem storeBeforeClosing_reworks : Reworks (· = .store) (storeBeforeClosing id) := by
  refine .of_inserted fun p _ _ hp run => ?_
  obtain ⟨n, parent, m, -, -, -, ⟨-, rfl⟩ | ⟨-, inserted⟩⟩ := run_storeBeforeClosing hp run
  · exact .inl rfl
  · exact .inr ⟨_, _, _, rfl, inserted⟩

end Boundary

namespace Pass

open Edit Boundary

variable {id : NodeId} {op : Op}

theorem insertClose_visit_reworks : Reworks IsClosing (insertClose.visit id op) := by
  show Reworks IsClosing (visitClose id op)
  unfold visitClose
  cases op.arity with
  | nullary => exact .pure
  | unary => exact Reworks.refreshStorage
  | binary | nary => exact closeInputs_reworks

theorem insertOpen_visit_reworks : Reworks (· = .opening) (insertOpen.visit id op) :=
  .ite .pure openOutput_reworks

theorem insertRead_visit_reworks : Reworks (· = .read) (insertRead.visit id op) := by
  cases op
  case opening => exact readAfterOpening_reworks
  all_goals exact .pure

theorem insertStore_visit_reworks : Reworks (· = .store) (insertStore.visit id op) := by
  cases op
  case opening => exact storeAfterOpening_reworks
  case closing => exact storeBeforeClosing_reworks
  all_goals exact .pure

section Sweep

variable {pass : Pass} {K : Op → Prop} {motive : List NodeId → Plan → Prop} {p q : Plan} {u : Unit}

/-- What holds at the start of a sweep and is kept from visit to visit holds when all nodes
have been visited. -/
theorem exists_of_visits (hp : p.Coherent) (hvisit : ∀ id op, Reworks K (pass.visit id op))
    (start : ∀ order, p.topSort = .ok order → motive (pass.direction.arrange order) p)
    (visit : ∀ {id rest n r s}, motive (id :: rest) r → r.Coherent → r.nodes.get? id = some n →
      pass.visit id n.op r = .ok () s → motive rest s)
    (run : pass.run p = .ok u q) :
    ∃ r, motive [] r ∧ r.Coherent ∧ pass.finish r = .ok () q := by
  obtain ⟨order, r, horder, hsteps, hfinished⟩ := run_run.mp run
  have hstart : ∀ k ∈ pass.direction.arrange order, p.contains k = true := by
    intro k hk
    refine (hp.mem_topSort horder).mp ?_
    cases hd : pass.direction <;> simpa [hd, Direction.arrange] using hk
  have hreworks (id : NodeId) : Reworks K (pass.step id) := step_reworks (hvisit id)
  have hloop : r.Coherent ∧ (∀ k ∈ ([] : List NodeId), r.contains k = true) ∧ motive [] r := by
    refine forM_loop
      (motive := fun rest s => s.Coherent ∧ (∀ k ∈ rest, s.contains k = true) ∧ motive rest s) ?_
      ⟨hp, hstart, start order horder⟩ hsteps
    rintro id rest s t ⟨hs, hcontains, h⟩ hstep
    have hst := hreworks id hs hstep
    have hleft : ∀ k ∈ rest, t.contains k = true := fun k hk =>
      hst.contains (hcontains k (List.mem_cons_of_mem _ hk))
    obtain ⟨n, hn⟩ := Option.isSome_iff_exists.mp (hcontains id List.mem_cons_self)
    obtain ⟨hnone, -⟩ | ⟨n', hn', hvisited⟩ := run_step.mp hstep
    · rw [hn] at hnone
      cases hnone
    · exact ⟨hst.coherent hs, hleft, visit h hs hn' hvisited⟩
  exact ⟨r, hloop.2.2, hloop.1, hfinished⟩

theorem exists_of_run (hp : p.Orderly) (hvisit : ∀ id op, Reworks K (pass.visit id op))
    (start : ∀ order, p.topSort = .ok order → motive (pass.direction.arrange order) p)
    (visit : ∀ {id rest n r s}, motive (id :: rest) r → r.Orderly → r.nodes.get? id = some n →
      pass.visit id n.op r = .ok () s → motive rest s)
    (run : pass.run p = .ok u q) :
    ∃ r, motive [] r ∧ r.Orderly ∧ pass.finish r = .ok () q := by
  obtain ⟨r, ⟨hsound, h⟩, hr, hfinished⟩ := exists_of_visits
    (motive := fun rest r => r.Sound ∧ motive rest r) hp.coherent hvisit
    (fun order horder => ⟨hp.sound, start order horder⟩) (fun ⟨hsound, h⟩ hr hn hvisited =>
      ⟨(hvisit _ _ hr hvisited).sound hsound, visit h ⟨hr, hsound⟩ hn hvisited⟩) run
  exact ⟨r, h, ⟨hr, hsound⟩, hfinished⟩

end Sweep

theorem insertClose_reworks : Reworks IsClosing insertClose.run :=
  reworks (fun _ _ => insertClose_visit_reworks) Reworks.propagateStorage

theorem insertOpen_reworks : Reworks (· = .opening) insertOpen.run :=
  reworks (fun _ _ => insertOpen_visit_reworks) .pure

theorem insertRead_reworks : Reworks (· = .read) insertRead.run :=
  reworks (fun _ _ => insertRead_visit_reworks) .pure

theorem insertStore_reworks : Reworks (· = .store) insertStore.run :=
  reworks (fun _ _ => insertStore_visit_reworks) .pure

end Pass

namespace Edit

open Plan Boundary

variable {p q : Plan} {u : Unit}

theorem run_insertBoundaries : insertBoundaries p = .ok u q ↔ ∃ a b c, Pass.insertClose.run p = .ok () a ∧
    Pass.insertOpen.run a = .ok () b ∧ Pass.insertRead.run b = .ok () c ∧ Pass.insertStore.run c = .ok () q := by
  simp only [insertBoundaries, Pass.boundaries, run_forM_cons, run_forM_nil]
  constructor
  · rintro ⟨a, ha, b, hb, c, hc, _, hq, rfl⟩
    exact ⟨a, b, c, ha, hb, hc, hq⟩
  · rintro ⟨a, b, c, ha, hb, hc, hq⟩
    exact ⟨a, ha, b, hb, c, hc, q, hq, rfl⟩

theorem insertBoundaries_reworks : Reworks (fun _ => True) insertBoundaries := by
  refine .forM fun pass hpass => ?_
  simp only [Pass.boundaries, List.mem_cons, List.not_mem_nil, or_false] at hpass
  rcases hpass with rfl | rfl | rfl | rfl
  · exact Pass.insertClose_reworks.mono fun _ _ => trivial
  · exact Pass.insertOpen_reworks.mono fun _ _ => trivial
  · exact Pass.insertRead_reworks.mono fun _ _ => trivial
  · exact Pass.insertStore_reworks.mono fun _ _ => trivial

end Edit

end JointPlan
