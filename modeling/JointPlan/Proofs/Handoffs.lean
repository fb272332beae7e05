import JointPlan.Proofs.Delivering

/-!
# Handoffs

In a plan that has been compiled every relation that leaves MPC is opened, stored and then
read, and every relation that enters MPC is stored and then closed for the one node that
computes on it. The passes bring this about one after the other. What they have in common is
which kinds of nodes may feed each other, so this is what is followed through them: every
node gets a station, and an insertion is in order when it fits between the stations on both
sides.
-/

namespace JointPlan

-- ---------------------------------------------------------------------------
-- Stations
-- ---------------------------------------------------------------------------

/-- The place of a node in the traffic across the border. A store is `kept` behind an opening
and `staged` in front of a closing. -/
inductive Station where
  | step
  | meet
  | opening
  | closing
  | read
  | kept
  | staged
deriving DecidableEq

namespace Station

/-- Whether the operator can be at the station. -/
def holds : Station → Op → Bool
  | .opening, op => op = .opening
  | .closing, .closing _ => true
  | .closing, _ => false
  | .read, op => op = .read
  | .kept, op | .staged, op => op = .store
  | .meet, op => op.arity = .binary || op.arity = .nary
  | .step, op => !op.isBoundary && (op.arity = .nullary || op.arity = .unary)

/-- Whether a node at the first station may feed one at the second. -/
def mayFeed : Station → Station → Bool
  | .step, v | .meet, v => v ∈ [step, meet, opening, closing, staged]
  | .opening, v => v ∈ [step, meet, read, kept]
  | .kept, v => v = .read
  | .read, v => v ∈ [step, meet]
  | .staged, v => v = .closing
  | .closing, v => v = .meet

/-- There is one reader. -/
def isSingle (s : Station) : Prop := s = .closing ∨ s = .staged

variable {s : Station} {op op' : Op}

theorem holds_mapBound {f : Nat → Column → Column} : s.holds (op.mapBound f) = s.holds op := by
  cases s <;> cases op <;> rfl

theorem holds_eq_of_blank_eq (h : op.blank = op'.blank) : s.holds op = s.holds op' := by
  simpa only [Op.blank, holds_mapBound] using congrArg s.holds h

theorem plain_of_holds (h : s.holds op = true) (hop : op.isBoundary = false) : s = .step ∨ s = .meet := by
  cases s with
  | step => exact .inl rfl
  | meet => exact .inr rfl
  | opening | read | kept | staged =>
    rw [of_decide_eq_true h] at hop
    cases hop
  | closing => cases op <;> first | (cases h; done) | cases hop

theorem meet_of_holds (h : s.holds op = true) (hop : op.arity = .binary ∨ op.arity = .nary) : s = .meet := by
  cases s with
  | meet => rfl
  | opening | closing | read | kept | staged | step =>
    rcases hop with hop | hop <;> cases op <;> first | (cases h; done) | cases hop

theorem of_holds_opening (h : s.holds .opening = true) : s = .opening := by
  cases s <;> first | rfl | cases h

theorem of_holds_closing {storage : Storage} (h : s.holds (.closing storage) = true) : s = .closing := by
  cases s <;> first | rfl | cases h

theorem of_holds_read (h : s.holds .read = true) : s = .read := by
  cases s <;> first | rfl | cases h

theorem of_holds_store (h : s.holds .store = true) : s = .kept ∨ s = .staged := by
  cases s <;> first | exact .inl rfl | exact .inr rfl | cases h

theorem eq_opening_of_holds (h : opening.holds op = true) : op = .opening := of_decide_eq_true h

theorem eq_closing_of_holds (h : closing.holds op = true) : ∃ storage, op = .closing storage := by
  cases op <;> first | exact ⟨_, rfl⟩ | cases h

end Station

namespace Plan

variable {p q : Plan} {k u v parent : NodeId} {cs : NodeSet} {op : Op} {n : Node} {post : NodeId → Station}

def opAt (p : Plan) (k : NodeId) : Option Op := (p.nodes.get? k).map Node.op

theorem opAt_eq_some : p.opAt k = some op ↔ ∃ n, p.nodes.get? k = some n ∧ n.op = op := Option.map_eq_some_iff

/-- Every node stands at its station, and feeds nodes that it may feed. -/
structure Bordered (p : Plan) (post : NodeId → Station) : Prop where
  holds : ∀ k n, p.nodes.get? k = some n → (post k).holds n.op = true
  edge : ∀ u v, p.Feeds u v → (post u).mayFeed (post v) = true
  single : ∀ k n, p.nodes.get? k = some n → (post k).isSingle → ∃ c, ∀ v, p.Feeds k v ↔ v = c
  opening : ∀ k n, p.nodes.get? k = some n → post k = .opening → ∃ v, p.Feeds k v

namespace Bordered

theorem of_outline_eq (hb : p.Bordered post) (h : q.outline = p.outline) : q.Bordered post where
  holds k n hn := by
    obtain ⟨m, hm, hs⟩ := get?_of_outline_eq h hn
    rw [Station.holds_eq_of_blank_eq (Node.blank_eq_of_outline_eq hs)]
    exact hb.holds k m hm
  edge u v huv := hb.edge u v ((SameGraph.of_outline_eq h).feeds.mp huv)
  single k n hn hk := by
    obtain ⟨m, hm, -⟩ := get?_of_outline_eq h hn
    simpa only [(SameGraph.of_outline_eq h).feeds] using hb.single k m hm hk
  opening k n hn hk := by
    obtain ⟨m, hm, -⟩ := get?_of_outline_eq h hn
    simpa only [(SameGraph.of_outline_eq h).feeds] using hb.opening k m hm hk

theorem requiresMpc (hb : p.Bordered post) (hp : p.Linked) (hn : p.nodes.get? k = some n)
    (hk : post k = .opening ∨ post k = .closing) : p.requiresMpc k = .ok true := by
  have hholds := hb.holds k n hn
  rcases hk with hk | hk <;> rw [hk] at hholds
  · exact hp.requiresMpc_opening hn (of_decide_eq_true hholds)
  · obtain ⟨storage, hop⟩ := Station.eq_closing_of_holds hholds
    exact hp.requiresMpc_closing hn hop

/-- An operator may be put in where its station fits. -/
theorem insert (station : Station) (hb : p.Bordered post) (hp : p.Coherent) (h : p.Inserted parent cs op q)
    (hop : station.holds op = true) (hin : (post parent).mayFeed station = true)
    (hout : ∀ c ∈ cs, station.mayFeed (post c) = true) (hone : station.isSingle → ∃ c, cs = .singleton c) :
    q.Bordered (Function.update post p.nextId station) := by
  obtain ⟨c, hc⟩ := h.readers
  have hold {k : NodeId} {n : Node} (hn : q.nodes.get? k = some n) (hk : k ≠ p.nextId) :
      ∃ m, p.nodes.get? k = some m := by
    obtain ⟨hnew, -⟩ | ⟨-, m, hm, -⟩ := h.op_of hn
    · exact absurd hnew hk
    · exact ⟨m, hm⟩
  constructor
  case holds =>
    intro k n hn
    obtain ⟨rfl, hblank⟩ | ⟨hk, m, hm, hblank⟩ := h.op_of hn
    · rwa [Function.update_self, Station.holds_eq_of_blank_eq hblank]
    · rw [Function.update_of_ne hk, Station.holds_eq_of_blank_eq hblank]
      exact hb.holds k m hm
  case edge =>
    intro u v huv
    by_cases hu : u = p.nextId
    · subst hu
      have hv := (h.feeds_new hp).mp huv
      have hne : v ≠ p.nextId := fun hv' => hp.not_feeds_nextId (hv' ▸ h.feeds_of_mem hp hv)
      rw [Function.update_self, Function.update_of_ne hne]
      exact hout v hv
    · rw [Function.update_of_ne hu]
      by_cases hv : v = p.nextId
      · subst hv
        obtain rfl : u = parent := by simpa using h.feeds.mp huv
        rwa [Function.update_self]
      · rw [Function.update_of_ne hv]
        refine hb.edge u v ?_
        by_cases hparent : u = parent
        · subst hparent
          exact (((h.feeds_parent hp).mp huv).resolve_left hv).2
        · exact (h.feeds_old hp hparent hu).mp huv
  case single =>
    intro k n hn hk
    by_cases hnew : k = p.nextId
    · subst hnew
      rw [Function.update_self] at hk
      obtain ⟨c, rfl⟩ := hone hk
      exact ⟨c, fun v => by rw [h.feeds_new hp, IdSet.mem_singleton]⟩
    rw [Function.update_of_ne hnew] at hk
    obtain ⟨m, hm⟩ := hold hn hnew
    obtain ⟨d, hd⟩ := hb.single k m hm hk
    by_cases hparent : k = parent
    · subst hparent
      -- the one reader is what the new node has been put in front of
      refine ⟨p.nextId, fun v => ?_⟩
      rw [h.feeds_parent hp, hd]
      have hcd : c = d := (hd c).mp (h.feeds_of_mem hp hc)
      exact or_iff_left fun hv => hv.1 (by rwa [hv.2, ← hcd])
    · exact ⟨d, fun v => by rw [h.feeds_old hp hparent hnew, hd]⟩
  case opening =>
    intro k n hn hk
    by_cases hnew : k = p.nextId
    · exact ⟨c, hnew ▸ (h.feeds_new hp).mpr hc⟩
    rw [Function.update_of_ne hnew] at hk
    by_cases hparent : k = parent
    · exact ⟨p.nextId, hparent ▸ (h.feeds_parent hp).mpr (.inl rfl)⟩
    · obtain ⟨m, hm⟩ := hold hn hnew
      obtain ⟨v, hv⟩ := hb.opening k m hm hk
      exact ⟨v, (h.feeds_old hp hparent hnew).mpr hv⟩

theorem opAt {station : Station} (hb : p.Bordered post) (hn : p.nodes.get? k = some n) (hk : post k = station)
    (h : ∀ op', station.holds op' = true → op' = op) : p.opAt k = some op :=
  opAt_eq_some.mpr ⟨n, hn, h n.op (hk ▸ hb.holds k n hn)⟩

end Bordered

/-- All nodes stand at some of the stations. -/
def Only (p : Plan) (post : NodeId → Station) (stations : List Station) : Prop :=
  ∀ k n, p.nodes.get? k = some n → post k ∈ stations

theorem Only.of_outline_eq {stations : List Station} (hs : p.Only post stations) (h : q.outline = p.outline) :
    q.Only post stations := by
  intro k n hn
  obtain ⟨m, hm, -⟩ := get?_of_outline_eq h hn
  exact hs k m hm

theorem Only.mono {stations stations' : List Station} (hs : p.Only post stations)
    (h : ∀ s ∈ stations, s ∈ stations') : p.Only post stations' :=
  fun k n hn => h _ (hs k n hn)

theorem Only.insert {stations : List Station} {station : Station} (hs : p.Only post stations)
    (h : p.Inserted parent cs op q) (hstation : station ∈ stations) :
    q.Only (Function.update post p.nextId station) stations := by
  intro k n hn
  obtain ⟨rfl, -⟩ | ⟨hk, m, hm, -⟩ := h.op_of hn
  · rwa [Function.update_self]
  · rw [Function.update_of_ne hk]
    exact hs k m hm

theorem Plain.exists_bordered (hp : p.Plain) : ∃ post, p.Bordered post ∧ p.Only post [.step, .meet] := by
  let post (k : NodeId) : Station :=
    if (p.nodes.get? k).any fun n => n.op.arity = .binary ∨ n.op.arity = .nary then .meet else .step
  have hpost (k : NodeId) : post k = .step ∨ post k = .meet := by
    simp only [post]
    split <;> simp
  refine ⟨post, ⟨fun k n hn => ?_, fun u v _ => ?_, fun k _ _ hk => ?_, fun k _ _ hk => ?_⟩, fun k _ _ => ?_⟩
  · have hop := hp k n hn
    simp only [post, hn, Option.any_some]
    split
    case isTrue h => simpa [Station.holds] using h
    case isFalse h =>
      cases harity : n.op.arity <;> simp_all [Station.holds]
  · rcases hpost u with hu | hu <;> rcases hpost v with hv | hv <;> rw [hu, hv] <;> rfl
  · rcases hpost k with h | h <;> simp [h, Station.isSingle] at hk
  · rcases hpost k with h | h <;> simp [h] at hk
  · rcases hpost k with h | h <;> simp [h]

end Plan

-- ---------------------------------------------------------------------------
-- Complete handoffs
-- ---------------------------------------------------------------------------

namespace Plan

variable {p q : Plan} {k u v : NodeId} {op : Op} {n : Node}

/-- What leaves MPC is opened, stored and read, and what enters it is stored and closed for
one node with several inputs. There are no other border operators. -/
structure HandsOver (p : Plan) : Prop where
  opening : ∀ k, p.opAt k = some .opening → ∃ s, p.opAt s = some .store ∧ (∀ c, p.Edge k c ↔ c = s) ∧
    ∀ c, p.Edge s c → p.opAt c = some .read
  read : ∀ k, p.opAt k = some .read → ∃ s o, p.opAt s = some .store ∧ p.opAt o = some .opening ∧ p.Edge o s ∧
    ∀ u, p.Edge u k ↔ u = s
  closing : ∀ k storage, p.opAt k = some (.closing storage) →
    (∃ s, p.opAt s = some .store ∧ ∀ u, p.Edge u k ↔ u = s) ∧
    ∃ c op, p.opAt c = some op ∧ (op.arity = .binary ∨ op.arity = .nary) ∧ ∀ v, p.Edge k v ↔ v = c
  store : ∀ k, p.opAt k = some .store →
    (∃ o, p.opAt o = some .opening ∧ p.Edge o k ∧ ∀ c, p.Edge k c → p.opAt c = some .read) ∨
    ∃ c storage, p.opAt c = some (.closing storage) ∧ ∀ v, p.Edge k v ↔ v = c

end Plan

-- ---------------------------------------------------------------------------
-- Entering MPC
-- ---------------------------------------------------------------------------

namespace Boundary

open Plan Edit

variable {p q : Plan} {id parent : NodeId} {n : Node} {rest : List NodeId} {shared : Storage} {u : Unit}
  {post : NodeId → Station}

/-- While the nodes in `rest` have not been visited, nothing has been closed for them. -/
structure Closing (rest : List NodeId) (p : Plan) (post : NodeId → Station) : Prop extends p.Bordered post where
  only : p.Only post [.step, .meet, .closing]
  unclosed : ∀ k c, post k = .closing → p.Feeds k c → c ∉ rest

theorem Closing.of_outline_eq (hp : Closing rest p post) (h : q.outline = p.outline) : Closing rest q post where
  toBordered := hp.toBordered.of_outline_eq h
  only := hp.only.of_outline_eq h
  unclosed k c hk hkc := hp.unclosed k c hk ((SameGraph.of_outline_eq h).feeds.mp hkc)

theorem Closing.mono {rest' : List NodeId} (hp : Closing rest p post) (h : ∀ k ∈ rest', k ∈ rest) :
    Closing rest' p post where
  toBordered := hp.toBordered
  only := hp.only
  unclosed k c hk hkc hc := hp.unclosed k c hk hkc (h c hc)

theorem Closing.insert (hb : Closing rest p post) (hp : p.Coherent)
    (h : p.Inserted parent (.singleton id) (.closing shared) q) (hparent : post parent = .step ∨ post parent = .meet)
    (hid : post id = .meet) (hrest : id ∉ rest) :
    Closing rest q (Function.update post p.nextId .closing) where
  toBordered := by
    refine hb.toBordered.insert _ hp h rfl ?_ (fun c hc => ?_) fun _ => ⟨id, rfl⟩
    · rcases hparent with hparent | hparent <;> rw [hparent] <;> rfl
    · rw [IdSet.mem_singleton.mp hc, hid]
      rfl
  only := hb.only.insert h (by simp)
  unclosed k c hk hkc := by
    by_cases hnew : k = p.nextId
    · subst hnew
      rw [h.feeds_new hp, IdSet.mem_singleton] at hkc
      rwa [hkc]
    · rw [Function.update_of_ne hnew] at hk
      have hne : k ≠ parent := by
        rintro rfl
        simp [hk] at hparent
      exact hb.unclosed k c hk ((h.feeds_old hp hne hnew).mp hkc)

theorem closing_of_closeInputs (hp : p.Coherent) (hb : Closing (id :: rest) p post) (hid : post id = .meet)
    (hrest : id ∉ rest) (run : closeInputs id p = .ok u q) : ∃ post, Closing rest q post := by
  have hmono {r : Plan} (h : Closing (id :: rest) r post) : Closing rest r post :=
    h.mono fun k hk => List.mem_cons_of_mem _ hk
  obtain ⟨r, hstorage, hrun⟩ := run_closeInputs.mp run
  have houtline := (Renews.refreshStorage hstorage).outline
  have hr := hp.of_outline_eq houtline
  have hbr := hb.of_outline_eq houtline
  obtain ⟨-, rfl⟩ | ⟨-, m, hm, hloop⟩ := hrun
  · exact ⟨post, hmono hbr⟩
  have hinputs : ∀ a ∈ firsts m.inputs.ids, a < r.nextId ∧ (post a = .step ∨ post a = .meet) := by
    intro a ha
    have hfeeds : r.Feeds a id := ⟨m, hm, mem_firsts.mp ha⟩
    obtain ⟨o, ho⟩ := hr.closed hfeeds
    have honly := hbr.only a o ho
    have hunclosed := hbr.unclosed a id
    exact ⟨hr.below ho, by simp_all⟩
  -- the inputs that are still to be looked at are as they were before
  have hloop : q.Coherent ∧ id < q.nextId ∧ ∃ post, Closing rest q post ∧ post id = .meet ∧
      ∀ a ∈ ([] : List NodeId), a < q.nextId ∧ (post a = .step ∨ post a = .meet) := by
    refine forM_loop
      (motive := fun left s => s.Coherent ∧ id < s.nextId ∧ ∃ post, Closing rest s post ∧ post id = .meet ∧
        ∀ a ∈ left, a < s.nextId ∧ (post a = .step ∨ post a = .meet)) ?_ ⟨hr, hr.below hm, post, hmono hbr, hid, hinputs⟩ hloop
    rintro a left s t ⟨hs, hbelow, post, hbs, hid, hleft⟩ hstep
    have hleft' : ∀ b ∈ left, b < s.nextId ∧ (post b = .step ∨ post b = .meet) :=
      fun b hb => hleft b (List.mem_cons_of_mem _ hb)
    obtain ⟨rfl, -⟩ | inserted := run_closeInput hs hstep
    · exact ⟨hs, hbelow, post, hbs, hid, hleft'⟩
    · have hnext := inserted.nextId_eq
      have hlt {b : NodeId} (hb : b < s.nextId) : b < t.nextId := hnext ▸ Nat.lt_succ_of_lt hb
      refine ⟨inserted.coherent hs, hlt hbelow, _, hbs.insert hs inserted (hleft a List.mem_cons_self).2 hid hrest,
        ?_, fun b hb => ⟨hlt (hleft' b hb).1, ?_⟩⟩
      · rwa [Function.update_of_ne hbelow.ne]
      · rw [Function.update_of_ne (hleft' b hb).1.ne]
        exact (hleft' b hb).2
  obtain ⟨-, -, post, hq, -⟩ := hloop
  exact ⟨post, hq⟩

theorem closing_of_visitClose (hp : p.Coherent) (hn : p.nodes.get? id = some n) (hb : Closing (id :: rest) p post)
    (hrest : id ∉ rest) (run : visitClose id n.op p = .ok u q) : ∃ post, Closing rest q post := by
  have hleft := hb.mono fun k hk => List.mem_cons_of_mem id hk
  have hmeet := Station.meet_of_holds (hb.holds id n hn)
  rw [visitClose] at run
  cases harity : n.op.arity with
  | nullary =>
    rw [harity] at run
    obtain ⟨-, rfl⟩ := run_pure.mp run
    exact ⟨post, hleft⟩
  | unary =>
    rw [harity] at run
    exact ⟨post, hleft.of_outline_eq (Renews.refreshStorage run).outline⟩
  | binary =>
    rw [harity] at run
    exact closing_of_closeInputs hp hb (hmeet (.inl harity)) hrest run
  | nary =>
    rw [harity] at run
    exact closing_of_closeInputs hp hb (hmeet (.inr harity)) hrest run

-- ---------------------------------------------------------------------------
-- Reading what has been opened
-- ---------------------------------------------------------------------------

/-- What has been opened and visited feeds nodes that read. -/
structure Reading (rest : List NodeId) (p : Plan) (post : NodeId → Station) : Prop extends p.Bordered post where
  only : p.Only post [.step, .meet, .closing, .opening, .read]
  reads : ∀ k v, post k = .opening → k ∉ rest → p.Feeds k v → post v = .read

theorem Reading.skip (hb : Reading (id :: rest) p post) (hid : post id ≠ .opening) : Reading rest p post where
  toBordered := hb.toBordered
  only := hb.only
  reads k v hk hrest := hb.reads k v hk (by simp [show k ≠ id from fun h => hid (h ▸ hk), hrest])

theorem Reading.insert (hb : Reading rest p post) (hp : p.Coherent) {child : NodeId}
    (h : p.Inserted id (.singleton child) .read q) (hid : post id = .opening) (hrest : id ∈ rest)
    (hchild : post child ≠ .read) : Reading rest q (Function.update post p.nextId .read) where
  toBordered := by
    have hfeeds := h.feeds_of_mem hp (IdSet.mem_singleton.mpr rfl)
    have ⟨m, hm, _⟩ := hfeeds
    have hedge := hb.edge id child hfeeds
    have hstation := hb.only child m hm
    refine hb.toBordered.insert _ hp h rfl (by rw [hid]; rfl) (fun c hc => ?_) (by simp [Station.isSingle])
    rw [IdSet.mem_singleton.mp hc]
    cases hc : post child <;> simp_all [Station.mayFeed]
  only := hb.only.insert h (by simp)
  reads k v hk hrest' hkv := by
    by_cases hv : v = p.nextId
    · rw [hv, Function.update_self]
    have hnew : k ≠ p.nextId := by
      rintro rfl
      rw [Function.update_self] at hk
      cases hk
    rw [Function.update_of_ne hnew] at hk
    rw [Function.update_of_ne hv]
    have hne : k ≠ id := fun h => hrest' (h ▸ hrest)
    exact hb.reads k v hk hrest' ((h.feeds_old hp hne hnew).mp hkv)

theorem reading_of_readAfterOpening (hp : p.Coherent) (hn : p.nodes.get? id = some n) (hb : Reading (id :: rest) p post)
    (hid : post id = .opening) (run : readAfterOpening id p = .ok u q) :
    ∃ post, Reading rest q post := by
  rw [readAfterOpening_eq] at run
  obtain ⟨children, r, asked, run⟩ := run_bind.mp run
  obtain ⟨hsorted, rfl⟩ := run_ask.mp asked
  have hchildren : ∀ v, p.Feeds id v → v ∈ children.zipIdx.map Prod.fst := by
    intro v hv
    rw [List.zipIdx_map_fst, (sortedChildren_perm hp.toLinked hn hsorted).mem_iff, IdSet.mem_toList]
    exact (hp.children hn).mpr hv
  have hloop : q.Coherent ∧ id < q.nextId ∧ ∃ post, Reading (id :: rest) q post ∧ post id = .opening ∧
      ∀ v, q.Feeds id v → post v = .read ∨ v ∈ ([] : List (NodeId × Nat)).map Prod.fst := by
    refine forM_loop
      (motive := fun left s => s.Coherent ∧ id < s.nextId ∧ ∃ post, Reading (id :: rest) s post ∧ post id = .opening ∧
        ∀ v, s.Feeds id v → post v = .read ∨ v ∈ left.map Prod.fst) ?_
      ⟨hp, hp.below hn, post, hb, hid, fun v hv => .inr (hchildren v hv)⟩ run
    rintro ⟨child, position⟩ left s t ⟨hs, hbelow, post, hbs, hid, hleft⟩ hstep
    obtain ⟨m, hm, hstep⟩ := run_readBehind.mp hstep
    have hholds := hbs.holds child m hm
    have hstation := hbs.only child m hm
    obtain ⟨hop, rfl⟩ | ⟨hop, -⟩ | ⟨hop, -, hinsert⟩ := hstep
    · have hread := Station.of_holds_read (hop ▸ hholds)
      refine ⟨hs, hbelow, post, hbs, hid, fun v hv => ?_⟩
      rcases hleft v hv with hv | hv
      · exact .inl hv
      rcases List.mem_cons.mp hv with rfl | hv
      · exact .inl hread
      · exact .inr hv
    · rcases Station.of_holds_store (hop ▸ hholds) with hstore | hstore <;> rw [hstore] at hstation <;>
        exact absurd hstation (by decide)
    · have inserted := inserted_of_insertRead hs hinsert
      have hne : post child ≠ .read := by
        intro hread
        rw [hread] at hholds
        exact hop (of_decide_eq_true hholds)
      refine ⟨inserted.coherent hs, inserted.nextId_eq ▸ Nat.lt_succ_of_lt hbelow, _,
        hbs.insert hs inserted hid List.mem_cons_self hne, ?_, fun v hv => ?_⟩
      · rwa [Function.update_of_ne hbelow.ne]
      · obtain rfl | ⟨hv, hfeeds⟩ := (inserted.feeds_parent hs).mp hv
        · exact .inl (Function.update_self ..)
        have hlt : v ≠ s.nextId := fun h => hs.not_feeds_nextId (h ▸ hfeeds)
        rw [Function.update_of_ne hlt]
        refine (hleft v hfeeds).imp_right fun h => (List.mem_cons.mp h).resolve_left ?_
        rintro rfl
        exact hv (IdSet.mem_singleton.mpr rfl)
  obtain ⟨-, -, post, hq, -, hreads⟩ := hloop
  refine ⟨post, hq.toBordered, hq.only, fun k v hk hrest hkv => ?_⟩
  by_cases hkid : k = id
  · exact (hreads v (hkid ▸ hkv)).resolve_right List.not_mem_nil
  · exact hq.reads k v hk (by simp [hkid, hrest]) hkv

-- ---------------------------------------------------------------------------
-- Storing what is handed over
-- ---------------------------------------------------------------------------

/-- What has been opened and visited is stored; what is closed has been stored before. -/
structure Storing (rest : List NodeId) (p : Plan) (post : NodeId → Station) : Prop extends p.Bordered post where
  reads : ∀ k v, post k = .opening → k ∈ rest → p.Feeds k v → post v = .read
  keeps : ∀ k n, p.nodes.get? k = some n → post k = .opening → k ∉ rest →
    ∃ s, post s = .kept ∧ ∀ v, p.Feeds k v ↔ v = s
  stages : ∀ u k, post k = .closing → k ∉ rest → p.Feeds u k → post u = .staged

theorem Storing.of_outline_eq (hb : Storing rest p post) (h : q.outline = p.outline) : Storing rest q post := by
  have hfeeds (u v : NodeId) : q.Feeds u v ↔ p.Feeds u v := (SameGraph.of_outline_eq h).feeds
  refine ⟨hb.toBordered.of_outline_eq h, ?_, fun k n hn => ?_, ?_⟩
  · simpa only [hfeeds] using hb.reads
  · obtain ⟨m, hm, -⟩ := get?_of_outline_eq h hn
    simpa only [hfeeds] using hb.keeps k m hm
  · simpa only [hfeeds] using hb.stages

theorem Storing.skip (hb : Storing (id :: rest) p post) (hopening : post id ≠ .opening)
    (hclosing : post id = .closing → ∀ u, p.Feeds u id → post u = .staged) : Storing rest p post where
  toBordered := hb.toBordered
  reads k v hk hrest := hb.reads k v hk (List.mem_cons_of_mem _ hrest)
  keeps k n hn hk hrest := hb.keeps k n hn hk (by simp [show k ≠ id from fun h => hopening (h ▸ hk), hrest])
  stages u k hk hrest huk := by
    by_cases hkid : k = id
    · exact hclosing (hkid ▸ hk) u (hkid ▸ huk)
    · exact hb.stages u k hk (by simp [hkid, hrest]) huk

/-- A store that has come in for the visited node is of no concern to the others. -/
theorem Storing.insert {cs : NodeSet} {op : Op} {station : Station} (hb : Storing (id :: rest) p post) (hp : p.Coherent)
    (h : p.Inserted parent cs op q) (hstation : station = .kept ∨ station = .staged) (hrest : id ∉ rest)
    (hborder : q.Bordered (Function.update post p.nextId station)) (hparent : post parent = .opening → parent = id)
    (hcs : ∀ c ∈ cs, post c = .closing → c = id)
    (hkeeps : post id = .opening → station = .kept ∧ ∀ v, q.Feeds id v ↔ v = p.nextId)
    (hstages : post id = .closing → station = .staged ∧ ∀ u, q.Feeds u id ↔ u = p.nextId) :
    Storing rest q (Function.update post p.nextId station) := by
  have hold {k : NodeId} {s : Station} (hk : Function.update post p.nextId station k = s) (hs : s = .opening ∨ s = .closing) :
      k ≠ p.nextId ∧ post k = s := by
    by_cases hnew : k = p.nextId
    · rw [hnew, Function.update_self] at hk
      subst hk
      rcases hstation with rfl | rfl <;> simp at hs
    · exact ⟨hnew, by rwa [Function.update_of_ne hnew] at hk⟩
  have hne {k v : NodeId} (hkv : p.Feeds k v) : k ≠ p.nextId ∧ v ≠ p.nextId :=
    ⟨fun h => hp.not_nextId_feeds (h ▸ hkv), fun h => hp.not_feeds_nextId (h ▸ hkv)⟩
  refine ⟨hborder, fun k v hk hkrest hkv => ?_, fun k n hn hk hkrest => ?_, fun u k hk hkrest huk => ?_⟩
  · obtain ⟨hnew, hk⟩ := hold hk (.inl rfl)
    have hkp : k ≠ parent := fun h => hrest (hparent (h ▸ hk) ▸ h ▸ hkrest)
    rw [h.feeds_old hp hkp hnew] at hkv
    rw [Function.update_of_ne (hne hkv).2]
    exact hb.reads k v hk (List.mem_cons_of_mem _ hkrest) hkv
  · obtain ⟨hnew, hk⟩ := hold hk (.inl rfl)
    by_cases hkid : k = id
    · subst hkid
      obtain ⟨rfl, hfeeds⟩ := hkeeps hk
      exact ⟨p.nextId, Function.update_self .., hfeeds⟩
    have hkp : k ≠ parent := fun h => hkid (h.trans (hparent (h ▸ hk)))
    obtain ⟨hk', -⟩ | ⟨-, m, hm, -⟩ := h.op_of hn
    · exact absurd hk' hnew
    obtain ⟨s, hs, hfeeds⟩ := hb.keeps k m hm hk (by simp [hkid, hkrest])
    refine ⟨s, ?_, fun v => by rw [h.feeds_old hp hkp hnew, hfeeds]⟩
    rwa [Function.update_of_ne (hne ((hfeeds s).mpr rfl)).2]
  · obtain ⟨hnew, hk⟩ := hold hk (.inr rfl)
    by_cases hkid : k = id
    · subst hkid
      obtain ⟨rfl, hfeeds⟩ := hstages hk
      rw [(hfeeds u).mp huk, Function.update_self]
    rw [h.feeds, if_neg hnew, if_neg fun hkcs => hkid (hcs k hkcs hk)] at huk
    rw [Function.update_of_ne (hne huk).1]
    exact hb.stages u k hk (by simp [hkid, hkrest]) huk

section Complete

variable (hb : Storing [] p post)

include hb

/-- Between what is opened and what is read there is one store. -/
theorem Storing.of_opening (hn : p.nodes.get? id = some n) (hid : post id = .opening) :
    ∃ s, post s = .kept ∧ p.opAt s = some .store ∧ ∀ c, p.Feeds id c ↔ c = s := by
  obtain ⟨s, hs, hfeeds⟩ := hb.keeps id n hn hid List.not_mem_nil
  obtain ⟨m, hm, -⟩ := (hfeeds s).mpr rfl
  exact ⟨s, hs, hb.opAt hm hs fun _ => of_decide_eq_true, hfeeds⟩

theorem Storing.reads_of_kept (hid : post id = .kept) {c : NodeId} (hc : p.Feeds id c) : p.opAt c = some .read := by
  have ⟨m, hm, _⟩ := hc
  have hedge := hb.edge id c hc
  rw [hid] at hedge
  exact hb.opAt hm (of_decide_eq_true hedge) fun _ => of_decide_eq_true

variable (hp : p.Coherent)

include hp

theorem Storing.opening_of_kept (hn : p.nodes.get? id = some n) (hid : post id = .kept) :
    ∃ o, p.opAt o = some .opening ∧ p.Feeds o id := by
  have hop : n.op = .store := of_decide_eq_true (hid ▸ hb.holds id n hn :)
  obtain ⟨o, ho⟩ := hp.exists_feeder hn (by rw [hop]; rfl)
  have hfeeds := (ho o).mpr rfl
  obtain ⟨m, hm⟩ := hp.closed hfeeds
  have hedge := hb.edge o id hfeeds
  have ho : post o = .opening := by
    rw [hid] at hedge
    cases ho : post o <;> simp_all [Station.mayFeed]
  exact ⟨o, hb.opAt hm ho fun _ => of_decide_eq_true, hfeeds⟩

/-- When all nodes have been visited, every handoff is complete. -/
theorem Storing.handsOver : p.HandsOver := by
  constructor <;> simp only [hp.edge_iff]
  case opening =>
    intro k hk
    obtain ⟨n, hn, hop⟩ := opAt_eq_some.mp hk
    obtain ⟨s, hs, hstore, hfeeds⟩ := hb.of_opening hn (Station.of_holds_opening (hop ▸ hb.holds k n hn))
    exact ⟨s, hstore, hfeeds, fun c => hb.reads_of_kept hs⟩
  case read =>
    intro k hk
    obtain ⟨n, hn, hop⟩ := opAt_eq_some.mp hk
    have hread := Station.of_holds_read (hop ▸ hb.holds k n hn)
    obtain ⟨s, hfeeds⟩ := hp.exists_feeder hn (by rw [hop]; rfl)
    have hsk := (hfeeds s).mpr rfl
    obtain ⟨m, hm⟩ := hp.closed hsk
    have hkept : post s = .kept := by
      have hedge := hb.edge s k hsk
      rw [hread] at hedge
      cases hs : post s <;> rw [hs] at hedge <;> try contradiction
      obtain ⟨t, ht, -, hst⟩ := hb.of_opening hm hs
      rw [← (hst k).mp hsk, hread] at ht
      cases ht
    obtain ⟨o, ho, hos⟩ := hb.opening_of_kept hp hm hkept
    exact ⟨s, o, hb.opAt hm hkept fun _ => of_decide_eq_true, ho, hos, hfeeds⟩
  case closing =>
    intro k storage hk
    obtain ⟨n, hn, hop⟩ := opAt_eq_some.mp hk
    have hclosing := Station.of_holds_closing (hop ▸ hb.holds k n hn)
    obtain ⟨s, hfeeds⟩ := hp.exists_feeder hn (by rw [hop]; rfl)
    have hsk := (hfeeds s).mpr rfl
    obtain ⟨m, hm⟩ := hp.closed hsk
    have hstaged := hb.stages s k hclosing List.not_mem_nil hsk
    refine ⟨⟨s, hb.opAt hm hstaged fun _ => of_decide_eq_true, hfeeds⟩, ?_⟩
    obtain ⟨c, hc⟩ := hb.single k n hn (.inl hclosing)
    have ⟨l, hl, _⟩ := (hc c).mpr rfl
    have hedge := hb.edge k c ((hc c).mpr rfl)
    rw [hclosing] at hedge
    have hmeet : Station.meet.holds l.op = true := of_decide_eq_true hedge ▸ hb.holds c l hl
    exact ⟨c, l.op, opAt_eq_some.mpr ⟨l, hl, rfl⟩, by simpa [Station.holds] using hmeet, hc⟩
  case store =>
    intro k hk
    obtain ⟨n, hn, hop⟩ := opAt_eq_some.mp hk
    rcases Station.of_holds_store (hop ▸ hb.holds k n hn) with hkept | hstaged
    · obtain ⟨o, ho, hok⟩ := hb.opening_of_kept hp hn hkept
      exact .inl ⟨o, ho, hok, fun c => hb.reads_of_kept hkept⟩
    · obtain ⟨c, hc⟩ := hb.single k n hn (.inr hstaged)
      have ⟨m, hm, _⟩ := (hc c).mpr rfl
      have hedge := hb.edge k c ((hc c).mpr rfl)
      rw [hstaged] at hedge
      have hclosing := hb.holds c m hm
      rw [of_decide_eq_true hedge] at hclosing
      obtain ⟨storage, hstorage⟩ := Station.eq_closing_of_holds hclosing
      exact .inr ⟨c, storage, opAt_eq_some.mpr ⟨m, hm, hstorage⟩, hc⟩

end Complete

section Store

variable (hp : p.Coherent) (hn : p.nodes.get? id = some n) (hb : Storing (id :: rest) p post) (hrest : id ∉ rest)

include hp hn hb hrest

theorem storing_of_storeAfterOpening (hid : post id = .opening) (run : storeAfterOpening id p = .ok u q) : ∃ post, Storing rest q post := by
  have hreads (c : NodeId) (hc : c ∈ n.children) : post c = .read :=
    hb.reads id c hid List.mem_cons_self ((hp.children hn).mp hc)
  obtain ⟨rfl, hdone⟩ | inserted := run_storeAfterOpening hp hn run
  · exfalso
    rcases hdone with hleaf | ⟨c, m, hchildren, hm, hop⟩
    · obtain ⟨v, hv⟩ := hb.opening id n hn hid
      exact IdSet.not_mem_empty v (IdSet.isEmpty_iff.mp hleaf ▸ (hp.children hn).mpr hv)
    · have hholds := hb.holds c m hm
      rw [hreads c (hchildren ▸ IdSet.mem_singleton.mpr rfl), hop] at hholds
      cases hholds
  have hborder := hb.toBordered.insert .kept hp inserted rfl (by rw [hid]; rfl)
    (fun c hc => by rw [hreads c hc]; rfl) (by simp [Station.isSingle])
  refine ⟨_, hb.insert hp inserted (.inl rfl) hrest hborder (fun _ => rfl) (fun c hc h => ?_) (fun _ => ⟨rfl, fun v => ?_⟩)
    (fun h => ?_)⟩
  · rw [hreads c hc] at h
    cases h
  · rw [inserted.feeds_parent hp]
    exact or_iff_left fun hv => hv.1 ((hp.children hn).mpr hv.2)
  · rw [hid] at h
    cases h

theorem storing_of_storeBeforeClosing (hid : post id = .closing) (run : storeBeforeClosing id p = .ok u q) : ∃ post, Storing rest q post := by
  obtain ⟨n', parent, m, hn', hin, hm, hdone⟩ := run_storeBeforeClosing hp run
  cases hn.symm.trans hn'
  have hfeeds (u : NodeId) : p.Feeds u id ↔ u = parent := feeds_unary_iff hn hin
  have hedge := hb.edge parent id ((hfeeds parent).mpr rfl)
  have hholds := hb.holds parent m hm
  rw [hid] at hedge
  obtain ⟨hop, rfl⟩ | ⟨hop, inserted⟩ := hdone
  · have hstaged : post parent = .staged := by
      rcases Station.of_holds_store (hop ▸ hholds) with h | h
      · rw [h] at hedge
        cases hedge
      · exact h
    exact ⟨post, hb.skip (by simp [hid]) fun _ u hu => by rwa [(hfeeds u).mp hu]⟩
  · have hplain : post parent = .step ∨ post parent = .meet := by
      cases hparent : post parent <;> simp_all [Station.mayFeed, Station.holds]
    have hborder := hb.toBordered.insert .staged hp inserted rfl
      (by rcases hplain with h | h <;> rw [h] <;> rfl)
      (fun c hc => by rw [IdSet.mem_singleton.mp hc, hid]; rfl) (fun _ => ⟨id, rfl⟩)
    refine ⟨_, hb.insert hp inserted (.inr rfl) hrest hborder (fun h => ?_) (fun c hc _ => IdSet.mem_singleton.mp hc)
      (fun h => ?_) (fun _ => ⟨rfl, fun u => ?_⟩)⟩
    · simp [h] at hplain
    · rw [hid] at h
      cases h
    · rw [inserted.feeds, if_neg (hp.below hn).ne, if_pos (IdSet.mem_singleton.mpr rfl)]
      simp [hfeeds]

end Store

end Boundary

namespace Pass

open Plan Edit Boundary

variable {p q : Plan} {u : Unit}

-- ---------------------------------------------------------------------------
-- Whole passes
-- ---------------------------------------------------------------------------

theorem bordered_of_insertClose (hp : p.Orderly) (hplain : p.Plain) (run : insertClose.run p = .ok u q) : ∃ post, q.Bordered post ∧ q.Only post [.step, .meet, .closing] := by
  have hstart (order : List NodeId) (horder : p.topSort = .ok order) :
      order.Nodup ∧ ∃ post, Closing order p post := by
    obtain ⟨post, hb, honly⟩ := hplain.exists_bordered
    refine ⟨(ordered_of_topSortFrom horder).nodup, post, hb, honly.mono (by simp), fun k c hk hkc => ?_⟩
    obtain ⟨n, hn⟩ := hp.coherent.closed hkc
    have := honly k n hn
    simp_all
  obtain ⟨r, ⟨-, post, hr⟩, -, hfinish⟩ := exists_of_run
    (motive := fun rest r => rest.Nodup ∧ ∃ post, Closing rest r post) hp (fun _ _ => insertClose_visit_reworks) hstart
    (fun ⟨hnodup, post, hb⟩ hr hn hvisit =>
      have ⟨hid, hrest⟩ := List.nodup_cons.mp hnodup
      ⟨hrest, closing_of_visitClose hr.coherent hn hb hid hvisit⟩) run
  have houtline := (Renews.propagateStorage hfinish).outline
  exact ⟨post, hr.toBordered.of_outline_eq houtline, hr.only.of_outline_eq houtline⟩

/-- What a node feeds that is about to be opened does not need MPC, so it is not at the border. -/
theorem bordered_of_insertOpen (hp : p.Orderly) {post : NodeId → Station} (hb : p.Bordered post)
    (honly : p.Only post [.step, .meet, .closing]) (run : insertOpen.run p = .ok u q) :
    ∃ post, q.Bordered post ∧ q.Only post [.step, .meet, .closing, .opening] := by
  obtain ⟨r, h, -, hfinish⟩ := exists_of_run
    (motive := fun _ r => ∃ post, r.Bordered post ∧ r.Only post [.step, .meet, .closing, .opening]) hp
    (fun _ _ => insertOpen_visit_reworks) (fun _ _ => ⟨post, hb, honly.mono (by simp)⟩)
    (fun {id rest n r s} ⟨post, hb, honly⟩ hr hn hvisit => by
      simp only [insertOpen] at hvisit
      split at hvisit
      · obtain ⟨-, rfl⟩ := run_pure.mp hvisit
        exact ⟨post, hb, honly⟩
      rename_i hop
      obtain ⟨rfl, -⟩ | ⟨hlower, inserted⟩ := run_openOutput hr.coherent hn hvisit
      · exact ⟨post, hb, honly⟩
      have hid := Station.plain_of_holds (hb.holds id n hn) (Bool.eq_false_iff.mpr hop)
      refine ⟨_, hb.insert .opening hr.coherent inserted rfl ?_ (fun c hc => ?_) (by simp [Station.isSingle]),
        honly.insert inserted (by simp)⟩
      · rcases hid with hid | hid <;> rw [hid] <;> rfl
      have ⟨m, hm, _⟩ := inserted.feeds_of_mem hr.coherent hc
      have hlocal := ((isLowerBoundary_eq_true hn).mp hlower).2 c hc
      have hborder := hb.requiresMpc hr.coherent.toLinked hm
      have hstation := honly c m hm
      rw [hlocal] at hborder
      cases hc : post c <;> simp_all [Station.mayFeed]) run
  obtain ⟨-, rfl⟩ := run_pure.mp hfinish
  exact h

theorem insertRead_visit_of_ne {id : NodeId} {op : Op} (hop : op ≠ .opening) : insertRead.visit id op = pure () := by
  cases op <;> first | rfl | contradiction

theorem insertStore_visit_of_ne {id : NodeId} {op : Op} (hopening : op ≠ .opening)
    (hclosing : ¬ ∃ storage, op = .closing storage) : insertStore.visit id op = pure () := by
  cases op
  case opening => contradiction
  case closing storage => exact absurd ⟨storage, rfl⟩ hclosing
  all_goals rfl

theorem reading_of_insertRead (hp : p.Orderly) {post : NodeId → Station} (hb : p.Bordered post)
    (honly : p.Only post [.step, .meet, .closing, .opening]) (run : insertRead.run p = .ok u q) :
    ∃ post, Reading [] q post := by
  have hstart (order : List NodeId) (horder : p.topSort = .ok order) : ∃ post, Reading order p post := by
    refine ⟨post, hb, honly.mono (by simp), fun k v _ hk hkv => absurd ?_ hk⟩
    obtain ⟨n, hn⟩ := hp.coherent.closed hkv
    exact (hp.coherent.mem_topSort horder).mpr (contains_of_get? hn)
  obtain ⟨r, h, -, hfinish⟩ := exists_of_run (motive := fun rest r => ∃ post, Reading rest r post) hp
    (fun _ _ => insertRead_visit_reworks) hstart
    (fun {id rest n r s} h hr hn hvisit => by
      obtain ⟨post, hb⟩ := h
      have hholds := hb.holds id n hn
      by_cases hop : n.op = .opening
      · rw [hop] at hvisit hholds
        exact reading_of_readAfterOpening hr.coherent hn hb (Station.of_holds_opening hholds) hvisit
      rw [insertRead_visit_of_ne hop] at hvisit
      obtain ⟨-, rfl⟩ := run_pure.mp hvisit
      exact ⟨post, hb.skip fun h => hop (Station.eq_opening_of_holds (h ▸ hholds))⟩) run
  obtain ⟨-, rfl⟩ := run_pure.mp hfinish
  exact h

theorem storing_of_visitStore {id : NodeId} {rest : List NodeId} {n : Node} {post : NodeId → Station} (hp : p.Coherent)
    (hn : p.nodes.get? id = some n) (hb : Storing (id :: rest) p post) (hid : id ∉ rest)
    (run : insertStore.visit id n.op p = .ok u q) : ∃ post, Storing rest q post := by
  have hholds := hb.holds id n hn
  by_cases hopening : n.op = .opening
  · rw [hopening] at run hholds
    exact storing_of_storeAfterOpening hp hn hb hid (Station.of_holds_opening hholds) run
  by_cases hclosing : ∃ storage, n.op = .closing storage
  · obtain ⟨storage, hop⟩ := hclosing
    rw [hop] at run hholds
    exact storing_of_storeBeforeClosing hp hn hb hid (Station.of_holds_closing hholds) run
  rw [insertStore_visit_of_ne hopening hclosing] at run
  obtain ⟨-, rfl⟩ := run_pure.mp run
  exact ⟨post, hb.skip (fun h => hopening (Station.eq_opening_of_holds (h ▸ hholds)))
    fun h => absurd (Station.eq_closing_of_holds (h ▸ hholds)) hclosing⟩

/-- What every visit preserves in a plan with its stations holds when all nodes have been visited. -/
theorem exists_of_insertStore {motive : Plan → Prop} (hp : p.Orderly) {post : NodeId → Station} (hb : Reading [] p post)
    (start : motive p) (visit : ∀ {id rest n r s} {post : NodeId → Station}, Storing (id :: rest) r post → r.Orderly →
      r.nodes.get? id = some n → insertStore.visit id n.op r = .ok () s → motive r → motive s)
    (run : insertStore.run p = .ok u q) : motive q ∧ ∃ post, Storing [] q post := by
  have hstart (order : List NodeId) (horder : p.topSort = .ok order) :
      order.Nodup ∧ motive p ∧ ∃ post, Storing order p post := by
    have hmem {k : NodeId} {n : Node} (hn : p.nodes.get? k = some n) : k ∈ order :=
      (hp.coherent.mem_topSort horder).mpr (contains_of_get? hn)
    refine ⟨(ordered_of_topSortFrom horder).nodup, start, post, hb.toBordered,
      fun k v hk _ => hb.reads k v hk List.not_mem_nil, fun k n hn _ hk => absurd (hmem hn) hk, ?_⟩
    rintro u k - hk ⟨n, hn, -⟩
    exact absurd (hmem hn) hk
  obtain ⟨r, ⟨-, h⟩, -, hfinish⟩ := exists_of_run
    (motive := fun rest r => rest.Nodup ∧ motive r ∧ ∃ post, Storing rest r post) hp
    (fun _ _ => insertStore_visit_reworks) hstart
    (fun h hr hn hvisit => by
      obtain ⟨hnodup, h, post, hb⟩ := h
      obtain ⟨hid, hrest⟩ := List.nodup_cons.mp hnodup
      exact ⟨hrest, visit hb hr hn hvisit h, storing_of_visitStore hr.coherent hn hb hid hvisit⟩) run
  obtain ⟨-, rfl⟩ := run_pure.mp hfinish
  exact h

theorem storing_of_insertStore (hp : p.Orderly) {post : NodeId → Station} (hb : Reading [] p post)
    (run : insertStore.run p = .ok u q) : ∃ post, Storing [] q post :=
  (exists_of_insertStore (motive := fun _ => True) hp hb trivial (fun _ _ _ _ _ => trivial) run).2

end Pass

namespace Edit

open Plan Boundary

variable {p q : Plan} {optimize : Bool} {u : Unit}

theorem storing_of_insertBoundaries (hp : p.Orderly) (hplain : p.Plain) (run : insertBoundaries p = .ok u q) : ∃ post, Storing [] q post := by
  obtain ⟨a, b, c, ha, hb, hc, hq⟩ := run_insertBoundaries.mp run
  have hpa := hp.reworked (Pass.insertClose_reworks hp.coherent ha)
  have hab := hpa.reworked (Pass.insertOpen_reworks hpa.coherent hb)
  have hbc := hab.reworked (Pass.insertRead_reworks hab.coherent hc)
  obtain ⟨_, hborder, honly⟩ := Pass.bordered_of_insertClose hp hplain ha
  obtain ⟨_, hborder, honly⟩ := Pass.bordered_of_insertOpen hpa hborder honly hb
  obtain ⟨_, hreading⟩ := Pass.reading_of_insertRead hab hborder honly hc
  exact Pass.storing_of_insertStore hbc hreading hq

/-- What comes after the insertions changes neither the roles of nodes nor their edges. -/
theorem storing_of_compile (hp : p.Orderly) (hplain : p.Plain) (run : compile optimize p = .ok u q) :
    q.Coherent ∧ ∃ post, Storing [] q post := by
  obtain ⟨a, b, c, ha, hb, hc, hq⟩ := exists_of_compile run
  obtain ⟨ha, -, hplaced⟩ := prepare_serves hp ha
  obtain ⟨post, hstoring⟩ := storing_of_insertBoundaries ha (hplaced _ plain_placement hplain) hb
  have horderly := ha.reworked (insertBoundaries_reworks ha.coherent hb)
  have hrefreshed := Renews.refreshAll hc
  have hcoherent := horderly.coherent.of_outline_eq hrefreshed.outline
  have hwidened := (widen_reworks hcoherent hq).renewed
  have hcoherent' := hcoherent.of_outline_eq hwidened.outline
  exact ⟨hcoherent', post, hstoring.of_outline_eq (hwidened.outline.trans hrefreshed.outline)⟩

theorem handsOver_of_compile (hp : p.Orderly) (hplain : p.Plain) (run : compile optimize p = .ok u q) :
    q.Coherent ∧ q.HandsOver := by
  obtain ⟨hcoherent, post, hstoring⟩ := storing_of_compile hp hplain run
  exact ⟨hcoherent, hstoring.handsOver hcoherent⟩

/-- A plan that has been built is compiled into one in which every handoff is complete. -/
theorem compile_handsOver (optimize : Bool) (hp : p.Built) (hfree : ¬ Exhausts (compile optimize) p) :
    ∃ q, compile optimize p = .ok () q ∧ q.HandsOver := by
  have hsimple := hp.simple
  obtain ⟨s, recipients, n, -, -, -, hcarries⟩ := hp.exists_carries
  obtain ⟨_, q, run, -⟩ := (wp_compile optimize hcarries).exists_of_not_exhausts hfree
  exact ⟨q, run, (handsOver_of_compile hsimple.toOrderly hsimple.plain run).2⟩

/-- The two relations are stored and closed, and what they are put together to is opened. -/
theorem compile_handsOver_concatHeld : ∃ p q, p.Built ∧ ¬ Exhausts (compile true) p ∧
    compile true p = .ok () q ∧ q.HandsOver ∧ q.opAt 6 = some .opening ∧ q.opAt 8 = some .store := by
  have hcompiles : Workflow.compilesTo true Workflow.concatHeld
      (fun q => q.opAt 6 = some .opening ∧ q.opAt 8 = some .store) = true := by cbv
  obtain ⟨p, q, hp, run, htest⟩ := Workflow.exists_of_compilesTo hcompiles
  have hfree := not_exhausts_of_ok run
  obtain ⟨q', run', hq'⟩ := compile_handsOver true hp hfree
  cases run.symm.trans run'
  exact ⟨p, q, hp, hfree, run, hq', of_decide_eq_true htest⟩

end Edit

end JointPlan
