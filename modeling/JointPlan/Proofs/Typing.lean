import JointPlan.Proofs.Progress
import JointPlan.Proofs.Schemas
import JointPlan.Proofs.Transport

/-!
# Well-typed plans

A plan is well-typed when every node has the schema that its operator derives from the
schemas of its inputs. All nodes of such a plan can be derived anew, and none of them
gets another schema by it.

`Plan.Typed` keeps apart the schema of a node and the one its readers count on, so that it
can be followed through changes that are not yet complete. It obeys a rule as bags do and depends on
the skeleton alone. What the nodes have on record at a time is `Plan.schemaAt`, and
`Plan.Records` says that an edit has come to a plan of a known skeleton with known
schemas on record.
-/

namespace JointPlan

/-- Every node but a root has the schema that its operator derives. -/
def Rule.schemas : Rule Schema where
  allows n ins s := n.op ≠ .create → n.op.Derives ins s
  congr hop _ h hc :=
    (h fun hcreate => hc (Op.eq_of_bare_eq (hop.trans (congrArg _ hcreate)) rfl)).of_bare_eq hop.symm

theorem Rule.schemas_yields {ins : List Schema} {op : Op} {s : Schema} (h : op.Derives ins s) :
    schemas.Yields ins op s := by
  rintro n rfl -
  exact h

namespace Plan

variable {p q : Plan} {k u : NodeId} {n m : Node} {v r : NodeId → Schema} {s y : Schema}

/-- The schema that a node has on record. -/
def schemaAt (p : Plan) (k : NodeId) : Schema := ((p.nodes.get? k).map fun n => n.rel.schema).getD []

theorem schemaAt_of_get? (hn : p.nodes.get? k = some n) : p.schemaAt k = n.rel.schema := by
  rw [schemaAt, hn]
  rfl

theorem schemaAt_set : (p.set k m).schemaAt = Function.update p.schemaAt k m.rel.schema := by
  funext j
  rw [schemaAt, get?_set]
  by_cases hj : j = k
  · subst hj
    simp
  · rw [if_neg hj, Function.update_of_ne hj]
    rfl

/-- Every node has, in `v`, the schema that its operator derives from what it reads in `r`. -/
def Typed (p : Plan) (v r : NodeId → Schema) : Prop :=
  ∀ k n, p.nodes.get? k = some n → n.op ≠ .create → n.op.Derives (n.inputs.ids.map r) (v k)

/-- The schemas on record fit together. -/
def WellTyped (p : Plan) : Prop := p.Typed p.schemaAt p.schemaAt

/-- The schemas on record fit together, but the readers of `X` count on `y`. -/
def TypedBut (p : Plan) (X : NodeId) (y : Schema) : Prop :=
  p.Typed p.schemaAt (Function.update p.schemaAt X y)

theorem typedBut_self : p.TypedBut k (p.schemaAt k) ↔ p.WellTyped := by
  rw [TypedBut, Function.update_eq_self, WellTyped]

theorem TypedBut.wellTyped (h : p.TypedBut k y) (hk : p.schemaAt k = y) : p.WellTyped :=
  typedBut_self.mp (hk ▸ h)

theorem Typed.of_skeleton_eq (h : p.Typed v r) (hs : q.skeleton = p.skeleton) : q.Typed v r :=
  Obeys.of_skeleton_eq (R := .schemas) h hs

/-- Only the schemas of nodes matter. -/
theorem Typed.congr {v' r' : NodeId → Schema} (h : p.Typed v r) (hp : p.Linked)
    (hv : ∀ k n, p.nodes.get? k = some n → v' k = v k) (hr : ∀ k n, p.nodes.get? k = some n → r' k = r k) :
    p.Typed v' r' :=
  Obeys.congr (R := .schemas) h hp hv hr

theorem Coherent.fed_iff (hp : p.Coherent) (hn : p.nodes.get? k = some n) :
    n.inputs.ids ≠ [] ↔ n.op ≠ .create := by
  refine ⟨fun hids hop => hids ?_, hp.fed hn⟩
  have hfits := hp.fits hn
  rw [hop] at hfits
  cases hin : n.inputs <;> simp_all [Inputs.fits, Op.arity, Inputs.ids]

theorem Coherent.ne_create (hp : p.Coherent) (hn : p.nodes.get? k = some n) (hu : u ∈ n.inputs.ids) :
    n.op ≠ .create :=
  (hp.fed_iff hn).mp (List.ne_nil_of_mem hu)

-- ---------------------------------------------------------------------------
-- Deriving the nodes
-- ---------------------------------------------------------------------------

/-- What the nodes have on record is what is read of the inputs. -/
theorem map_inputRelations {α : Type} {ins : List Relation} {f : Relation → α} {a : NodeId → α}
    (ha : ∀ {k n}, p.nodes.get? k = some n → a k = f n.rel) (hn : p.nodes.get? k = some n)
    (hins : p.inputRelations k = .ok ins) : ins.map f = n.inputs.ids.map a := by
  obtain ⟨n', hn', hall⟩ := inputRelations_eq_ok.mp hins
  cases hn.symm.trans hn'
  clear hins
  generalize n.inputs.ids = ids at hall
  induction hall with
  | nil => rfl
  | cons h _ ih =>
    obtain ⟨m, hm, rfl⟩ := h
    rw [List.map_cons, List.map_cons, ih, ha hm]

theorem schemas_of_inputRelations {ins : List Relation} (hn : p.nodes.get? k = some n)
    (hins : p.inputRelations k = .ok ins) : ins.map Relation.schema = n.inputs.ids.map p.schemaAt :=
  map_inputRelations schemaAt_of_get? hn hins

/-- The plan has the skeleton of `p`, with the schemas of `v` on record. -/
structure Records (p : Plan) (v : NodeId → Schema) (q : Plan) : Prop where
  skeleton : q.skeleton = p.skeleton
  sound : q.Sound
  schemas : q.schemaAt = v

theorem Sound.records (hs : p.Sound) : p.Records p.schemaAt p := ⟨rfl, hs, rfl⟩

theorem Records.trans {w : NodeId → Schema} {q' : Plan} (h : p.Records v q) (h' : q.Records w q') :
    p.Records w q' :=
  ⟨h'.skeleton.trans h.skeleton, h'.sound, h'.schemas⟩

end Plan

namespace Edit

open Plan

variable {p q : Plan} {k : NodeId} {n : Node} {v r w : NodeId → Schema} {s : Schema}

section Single

variable (hs : p.Sound) (hn : p.nodes.get? k = some n) (hids : n.inputs.ids ≠ [])
  (hin : ∀ u ∈ n.inputs.ids, ∃ m, p.nodes.get? u = some m)

include hs hn hids hin

theorem exists_refresh (h : n.op.Derives (n.inputs.ids.map p.schemaAt) s) :
    ∃ q, refresh k p = .ok () q ∧ p.Records (Function.update p.schemaAt k s) q := by
  obtain ⟨ins, hins⟩ := exists_inputRelations hn hin
  have hschemas := schemas_of_inputRelations hn hins
  rw [← hschemas] at h
  obtain ⟨m, hm, rfl⟩ := Node.exists_refresh (hs.inputs hins) (by rintro rfl; simp_all) h
  have hrun : refresh k p = .ok () (p.set k m) :=
    run_bind.mpr ⟨ins, p, run_ask.mpr ⟨hins, rfl⟩, run_onNode.mpr ⟨n, m, hn, hm, rfl⟩⟩
  obtain ⟨htouched, hsound⟩ := touched_of_refresh hs hrun
  exact ⟨_, hrun, htouched.skeleton, hsound, schemaAt_set⟩

/-- The inputs may be wider than what is counted on. -/
theorem exists_refreshStorage (h : n.op.Derives (n.inputs.ids.map r) s)
    (hwide : ∀ u ∈ n.inputs.ids, (r u).length ≤ (p.schemaAt u).length) :
    ∃ q, refreshStorage k p = .ok () q ∧ p.Records p.schemaAt q := by
  obtain ⟨ins, hins⟩ := exists_inputRelations hn hin
  have hschemas := schemas_of_inputRelations hn hins
  have hwide' : List.Forall₂ (fun s r => s.length ≤ (r : Relation).columns.length)
      (n.inputs.ids.map r) ins := by
    have hlength : n.inputs.ids.length = ins.length := by simpa using (congrArg List.length hschemas).symm
    refine List.forall₂_iff_get.mpr ⟨by simpa using hlength, fun i hi hi' => ?_⟩
    have hi : i < n.inputs.ids.length := by simpa using hi
    have hget : ins[i].schema = p.schemaAt n.inputs.ids[i] := by
      simpa [hi, hi'] using congrArg (·[i]?) hschemas
    simpa [← hget] using hwide _ (List.getElem_mem hi)
  obtain ⟨m, hm, hschema⟩ := Node.exists_refreshStorage (by rintro rfl; simp_all) h hwide'
  have hrun : refreshStorage k p = .ok () (p.set k m) :=
    run_bind.mpr ⟨ins, p, run_ask.mpr ⟨hins, rfl⟩, run_onNode.mpr ⟨n, m, hn, hm, rfl⟩⟩
  obtain ⟨htouched, hsound⟩ := touched_of_refreshStorage hs hrun
  refine ⟨_, hrun, htouched.skeleton, hsound, ?_⟩
  rw [schemaAt_set, hschema, ← schemaAt_of_get? hn, Function.update_eq_self]

end Single

section Records

variable (h : p.Records v q) (hp : p.Coherent) (ht : p.Typed w r) (hn : p.nodes.get? k = some n)
  (hop : n.op ≠ .create)

include h hp ht hn hop

theorem refresh_records (hin : ∀ u ∈ n.inputs.ids, v u = r u) :
    ∃ q', refresh k q = .ok () q' ∧ p.Records (Function.update v k (w k)) q' := by
  obtain ⟨m, hm, hmn⟩ := get?_of_skeleton_eq h.skeleton.symm hn
  have hids := Node.inputs_eq_of_skeleton_eq hmn
  have hq := hp.of_skeleton_eq h.skeleton
  have hderives := (ht k n hn hop).of_bare_eq (Node.bare_eq_of_skeleton_eq hmn)
  rw [← List.map_congr_left hin, ← h.schemas, hids] at hderives
  obtain ⟨q', hrun, hrecords⟩ := exists_refresh h.sound hm (hids ▸ hp.fed hn hop) (hq.exists_input hm) hderives
  exact ⟨q', hrun, h.schemas ▸ h.trans hrecords⟩

theorem refreshStorage_records (hwide : ∀ u ∈ n.inputs.ids, (r u).length ≤ (v u).length) :
    ∃ q', refreshStorage k q = .ok () q' ∧ p.Records v q' := by
  obtain ⟨m, hm, hmn⟩ := get?_of_skeleton_eq h.skeleton.symm hn
  have hids := Node.inputs_eq_of_skeleton_eq hmn
  have hq := hp.of_skeleton_eq h.skeleton
  have hderives := (ht k n hn hop).of_bare_eq (Node.bare_eq_of_skeleton_eq hmn)
  rw [← h.schemas] at hwide
  rw [hids] at hwide hderives
  obtain ⟨q', hrun, hrecords⟩ :=
    exists_refreshStorage h.sound hm (hids ▸ hp.fed hn hop) (hq.exists_input hm) hderives hwide
  exact ⟨q', hrun, h.schemas ▸ h.trans hrecords⟩

end Records

theorem forEachDerived_records {step : NodeId → Edit Unit} (hp : p.Coherent) (hs : p.Sound)
    (hstep : ∀ k n q, p.nodes.get? k = some n → n.op ≠ .create → p.Records p.schemaAt q →
      ∃ q', step k q = .ok () q' ∧ p.Records p.schemaAt q') :
    ∃ q, forEachDerived step p = .ok () q ∧ p.Records p.schemaAt q := by
  obtain ⟨order, horder⟩ := hp.exists_topSort
  have hloop := exists_forM (p := p) (l := order) (motive := p.Records p.schemaAt)
    (g := fun id => do if (← node id).op ≠ .create then step id) (fun k hk q hq => ?_) hs.records
  · obtain ⟨q, hrun, hq⟩ := hloop
    exact ⟨q, run_bind.mpr ⟨order, p, run_ask.mpr ⟨horder, rfl⟩, hrun⟩, hq⟩
  · obtain ⟨n, hn⟩ : ∃ n, p.nodes.get? k = some n :=
      Option.isSome_iff_exists.mp ((hp.mem_topSort horder).mp hk)
    obtain ⟨m, hm, hmn⟩ := get?_of_skeleton_eq hq.skeleton.symm hn
    rw [bind_of_ok (run_node.mpr ⟨hm, rfl⟩)]
    by_cases hop : m.op = .create
    · exact ⟨q, by rw [if_neg (not_not.mpr hop)]; rfl, hq⟩
    · rw [if_pos hop]
      exact hstep k n q hn (fun h => hop (Node.op_eq_of_skeleton_eq hmn h rfl)) hq

/-- All nodes of a well-typed plan can be derived anew, and all keep their schemas. -/
theorem refreshAll_records (hp : p.Coherent) (hs : p.Sound) (ht : p.WellTyped) :
    ∃ q, refreshAll p = .ok () q ∧ p.Records p.schemaAt q := by
  refine forEachDerived_records hp hs fun k n q hn hop hq => ?_
  obtain ⟨q', hrun, hq'⟩ := refresh_records hq hp ht hn hop fun _ _ => rfl
  exact ⟨q', hrun, by rwa [Function.update_eq_self] at hq'⟩

theorem propagateStorage_records (hp : p.Coherent) (hs : p.Sound) (ht : p.WellTyped) :
    ∃ q, propagateStorage p = .ok () q ∧ p.Records p.schemaAt q :=
  forEachDerived_records hp hs fun _ _ _ hn hop hq =>
    refreshStorage_records hq hp ht hn hop fun _ _ => le_rfl

end Edit

namespace Plan

variable {p q : Plan} {k : NodeId} {n : Node} {v r : NodeId → Schema} {s y : Schema}

-- ---------------------------------------------------------------------------
-- Changes of shape
-- ---------------------------------------------------------------------------

section Splice

variable {parent : NodeId} {cs : NodeSet} {op : Op} {rel : Relation}

theorem schemaAt_splice :
    (p.splice parent cs op rel).schemaAt = Function.update p.schemaAt p.nextId rel.schema := by
  funext k
  rw [schemaAt, get?_splice]
  by_cases hk : k = p.nextId
  · simp [hk]
  · rw [if_neg hk, Function.update_of_ne hk, schemaAt]
    cases p.nodes.get? k <;> simp

theorem Typed.splice (h : p.Typed v r) (hp : p.Coherent) (hn : p.nodes.get? parent = some n)
    (hy : y = r parent ∨ cs = n.children) (hop : op.Derives [y] s) :
    (p.splice parent cs op rel).Typed (Function.update v p.nextId s)
      (Function.update (Function.update r parent y) p.nextId (r parent)) :=
  Obeys.splice (R := .schemas) h hp hn hy (Rule.schemas_yields hop)

end Splice

section Fork

variable {id child : NodeId} {rel : Relation}

theorem schemaAt_forked : (p.forked id child n rel).schemaAt =
    Function.update p.schemaAt p.nextId rel.schema := by
  funext k
  simp only [schemaAt, Plan.forked, IdMap.get?_insert, IdMap.get?_map]
  by_cases hk : k = p.nextId
  · simp [hk]
  · rw [if_neg hk, Function.update_of_ne hk, schemaAt]
    cases p.nodes.get? k <;> simp

theorem Typed.forked (h : p.Typed v r) (hp : p.Coherent) (hn : p.nodes.get? id = some n) :
    (p.forked id child n rel).Typed (Function.update v p.nextId (v id))
      (Function.update r p.nextId (r id)) :=
  Obeys.forked (R := .schemas) h hp hn fun _ hm hc => hm ▸ h id n hn (hm ▸ hc)

end Fork

theorem Typed.set_op {id input : NodeId} {op : Op} (h : p.Typed v r) (hin : n.inputs = .unary input)
    (hop : op.Derives [r input] s) : (p.set id { n with op }).Typed (Function.update v id s) r :=
  Obeys.set_op (R := .schemas) h hin (Rule.schemas_yields hop)

section Push

variable {top bottom : NodeId} {t b : Node} {rels : Nat → Relation}

theorem Typed.pushed {copies : List Schema} (h : p.Typed v v) (hp : p.Coherent)
    (ht : p.nodes.get? top = some t) (htop : t.op = .concat) (honly : ∀ c ∈ t.children, c = bottom)
    (heach : List.Forall₂ (fun u out => b.op.Derives [v u] out) t.inputs.ids copies)
    (hall : Op.concat.Derives copies (v bottom)) :
    (p.pushed top bottom t b rels).Typed (withCopies p.nextId copies (Function.update v top (v bottom)))
      (withCopies p.nextId copies (Function.update v top (v bottom))) :=
  Obeys.pushed (R := .schemas) h hp ht honly (heach.imp fun _ _ => Rule.schemas_yields) (htop ▸ Rule.schemas_yields hall)

end Push

end Plan

namespace Edit

open Plan

variable {p q : Plan} {n : Node} {s y : Schema}

-- ---------------------------------------------------------------------------
-- Edits of well-typed plans
-- ---------------------------------------------------------------------------

section Splice

variable {parent : NodeId} {cs : NodeSet} {op : Op} {rel : Relation} (hp : p.Coherent) (hs : p.Sound)
  (ht : p.TypedBut parent y) (hn : p.nodes.get? parent = some n) (hcs : ∀ c ∈ cs, c ∈ n.children)
  (hy : p.schemaAt parent = y ∨ cs = n.children) (harity : op.arity = .unary)
  (hop : op.Derives [p.schemaAt parent] s) (room : p.nextId + 1 < Word.limit)

include hp hn ht hy hop

theorem typed_splice : (p.splice parent cs op rel).Typed (Function.update p.schemaAt p.nextId s)
    (Function.update p.schemaAt p.nextId y) := by
  have h : (p.splice parent cs op rel).Typed _ _ := ht.splice hp hn (y := p.schemaAt parent) (by simpa using hy) hop
  rwa [Function.update_idem, Function.update_eq_self, Function.update_self] at h

include harity hcs room

/-- The node that has been spliced in is derived. -/
theorem refresh_splice (hs : (p.splice parent cs op rel).Sound) : ∃ q,
    refresh p.nextId (p.splice parent cs op rel) = .ok () q ∧
      (p.splice parent cs op rel).Records (Function.update p.schemaAt p.nextId s) q := by
  have hcoherent : (p.splice parent cs op rel).Coherent := hp.splice hn hcs harity room
  have hcreate : op ≠ .create := fun h => by rw [h] at harity; cases harity
  obtain ⟨q, hrun, hq⟩ := refresh_records hs.records hcoherent (typed_splice hp ht hn hy hop)
    (by rw [get?_splice, if_pos rfl]) hcreate (by simp [schemaAt_splice, hp.ne_nextId hn])
  rw [Function.update_self, schemaAt_splice, Function.update_idem] at hq
  exact ⟨q, hrun, hq⟩

/-- The readers that have been handed over take up their parameters. -/
theorem refreshStorage_splice {c : NodeId} (hc : c ∈ cs) (hwide : y.length ≤ s.length)
    (h : (p.splice parent cs op rel).Records (Function.update p.schemaAt p.nextId s) q) :
    ∃ q', refreshStorage c q = .ok () q' ∧
      (p.splice parent cs op rel).Records (Function.update p.schemaAt p.nextId s) q' := by
  have hcoherent : (p.splice parent cs op rel).Coherent := hp.splice hn hcs harity room
  have hfeeds := (hp.children hn).mp (hcs c hc)
  have hne : c ≠ p.nextId := fun h => hp.not_feeds_nextId (h ▸ hfeeds)
  obtain ⟨m, hm, hin⟩ : (p.splice parent cs op rel).Feeds p.nextId c := by
    rw [feeds_splice, if_neg hne, if_pos hc]
    exact .inl ⟨rfl, hfeeds⟩
  refine refreshStorage_records h hcoherent (typed_splice hp ht hn hy hop) hm (hcoherent.ne_create hm hin) ?_
  intro u _
  by_cases hu : u = p.nextId
  · simpa [hu] using hwide
  · simp [hu]

omit harity hcs room in
theorem typedBut_of_records (h : (p.splice parent cs op rel).Records (Function.update p.schemaAt p.nextId s) q) :
    q.TypedBut p.nextId y := by
  rw [TypedBut, h.schemas, Function.update_idem]
  exact (typed_splice hp ht hn hy hop).of_skeleton_eq h.skeleton

end Splice

section Insert

variable {parent child : NodeId} {op : Op} {rel : Relation} {x : Edit NodeId} (hp : p.Coherent) (hs : p.Sound)
  (hn : p.nodes.get? parent = some n) (add : x p = addOrphan op rel p) (harity : op.arity = .unary)
  (hnumbered : rel.Numbered) (hsized : ∀ ds, op = .distinct ds → rel.columns.length = ds.length)

include hp hs hn add harity hnumbered hsized

/-- Something that hands on what it reads is spliced into one edge. -/
theorem wp_insertBetween_typed (ht : p.WellTyped) (hop : op.Derives [p.schemaAt parent] (p.schemaAt parent))
    (hc : child ∈ n.children) : wp (x >>= fun new => insertBetween parent child new) (fun _ q =>
      q.WellTyped ∧ q.schemaAt = Function.update p.schemaAt p.nextId (p.schemaAt parent)) p := by
  refine wp_insertBetween hp hn harity add hc fun room => ?_
  have hcs : ∀ c ∈ IdSet.singleton child, c ∈ n.children := by simpa using hc
  have ht : p.TypedBut parent _ := typedBut_self.mpr ht
  obtain ⟨q₁, hrefresh, hq₁⟩ := refresh_splice hp ht hn hcs (.inl rfl) harity hop room
    (hs.splice hnumbered hsized)
  obtain ⟨q₂, hstorage, hq₂⟩ := refreshStorage_splice hp ht hn hcs (.inl rfl) harity hop room
    (IdSet.mem_singleton.mpr rfl) le_rfl hq₁
  have htyped := (typedBut_of_records hp ht hn (.inl rfl) hop hq₂).wellTyped (by simp [hq₂.schemas])
  exact .step hrefresh (.of_ok hstorage ⟨htyped, hq₂.schemas⟩)

/-- Something is spliced in front of all readers, which may count on less than it yields. -/
theorem wp_insertAfterAll_typed (ht : p.TypedBut parent y) (hop : op.Derives [p.schemaAt parent] s)
    (hwide : y.length ≤ s.length) : wp (x >>= fun new => insertAfterAll parent new) (fun _ q =>
      q.TypedBut p.nextId y ∧ q.schemaAt = Function.update p.schemaAt p.nextId s) p := by
  refine wp_insertAfterAll hp hn harity add fun room => ?_
  obtain ⟨q₁, hrefresh, hq₁⟩ := refresh_splice hp ht hn (fun _ h => h) (.inr rfl) harity hop room
    (hs.splice hnumbered hsized)
  obtain ⟨q₂, hstorage, hq₂⟩ := exists_forM (fun c hc q hq => refreshStorage_splice hp ht hn (fun _ h => h)
    (.inr rfl) harity hop room (IdSet.mem_toList.mp hc) hwide hq) hq₁
  exact .step hrefresh (.of_ok hstorage ⟨typedBut_of_records hp ht hn (.inr rfl) hop hq₂, hq₂.schemas⟩)

end Insert

/-- A node gets a copy for one of its readers. -/
theorem wp_forkFor_typed {id child : NodeId} {cs : NodeSet} {position : Nat} (hp : p.Coherent) (hs : p.Sound)
    (ht : p.WellTyped) (hn : p.nodes.get? id = some { n with children := cs }) (hc : child ∈ cs) :
    wp (forkFor id n position child) (fun _ q =>
      q.WellTyped ∧ q.schemaAt = Function.update p.schemaAt p.nextId (p.schemaAt id)) p := by
  refine wp_forkFor hp.toLinked hn hc fun room => ?_
  have hfeeds := (hp.children hn).mp hc
  have hne : child ≠ p.nextId := fun h => hp.not_feeds_nextId (h ▸ hfeeds)
  have hforked : (p.forked id child { n with children := cs } (n.rel.rename s!"{n.rel.name}_{position}")).Coherent :=
    hp.forked hn hc room
  have hstart : (p.forked id child { n with children := cs } (n.rel.rename s!"{n.rel.name}_{position}")).schemaAt =
      Function.update p.schemaAt p.nextId (p.schemaAt id) := by
    rw [schemaAt_forked, Relation.schema_rename, schemaAt_of_get? hn]
  have htyped : (p.forked id child { n with children := cs } (n.rel.rename s!"{n.rel.name}_{position}")).Typed _ _ :=
    ht.forked hp hn
  have hsound : (p.forked id child { n with children := cs } (n.rel.rename s!"{n.rel.name}_{position}")).Sound :=
    hs.forked hn (n.rel.numbered_rename _) (n.rel.length_rename _)
  obtain ⟨m, hm, hin⟩ : (p.forked id child { n with children := cs }
      (n.rel.rename s!"{n.rel.name}_{position}")).Feeds p.nextId child := by
    rw [feeds_forked, if_neg hne, if_pos rfl]
    exact .inl ⟨rfl, hfeeds⟩
  obtain ⟨q, hrun, hq⟩ := refreshStorage_records (hstart ▸ hsound.records) hforked htyped hm
    (hforked.ne_create hm hin) fun _ _ => le_rfl
  refine .of_ok hrun ⟨?_, hq.schemas⟩
  rw [WellTyped, hq.schemas]
  exact htyped.of_skeleton_eq hq.skeleton

/-- A node gets another operator; its readers still count on what it had before. -/
theorem exists_replaceOp {id input : NodeId} {op : Op} (hp : p.Coherent) (hs : p.Sound) (ht : p.WellTyped)
    (hn : p.nodes.get? id = some n) (hin : n.inputs = .unary input) (harity : op.arity = .unary)
    (hsized : ∀ ds, op ≠ .distinct ds) (hop : op.Derives [p.schemaAt input] s) :
    ∃ q, replaceOp id op p = .ok () q ∧ q.TypedBut id (p.schemaAt id) ∧
      q.schemaAt = Function.update p.schemaAt id s := by
  have hsame := hp.arity_of_inputs hn hin
  have hset := (SameGraph.set_op hn (harity.trans hsame.symm)).coherent hp
  have hstart : (p.set id { n with op }).schemaAt = p.schemaAt := by
    rw [schemaAt_set, ← schemaAt_of_get? hn, Function.update_eq_self]
  have htyped : (p.set id { n with op }).Typed _ _ := ht.set_op hin hop
  have hsound : (p.set id { n with op }).Sound :=
    hs.set ⟨(hs id n hn).numbered, fun ds h => absurd h (hsized ds)⟩
  have hcreate : op ≠ .create := fun h => by rw [h] at harity; cases harity
  obtain ⟨q, hrun, hq⟩ := refresh_records (hstart ▸ hsound.records) hset htyped
    (by rw [get?_set, if_pos rfl]) hcreate fun _ _ => rfl
  rw [Function.update_self] at hq
  refine ⟨q, (replaceOp_eq hn (hsame.trans harity.symm)).trans hrun, ?_, hq.schemas⟩
  rw [TypedBut, hq.schemas, Function.update_idem, Function.update_eq_self]
  exact htyped.of_skeleton_eq hq.skeleton

section Push

variable {top bottom : NodeId} {t b : Node} {r : Plan}

theorem schemaAt_lifted {position : Nat} {input : NodeId} :
    (p.lifted top b position input).schemaAt = Function.update p.schemaAt p.nextId b.rel.schema := by
  funext k
  simp only [schemaAt, Plan.lifted, IdMap.get?_insert, IdMap.get?_map]
  by_cases hk : k = p.nextId
  · simp [hk]
  · rw [if_neg hk, Function.update_of_ne hk, schemaAt]
    cases p.nodes.get? k with
    | none => rfl
    | some n =>
      simp only [Option.map_some, Option.getD_some, liftedNode]
      split_ifs <;> rfl

/-- One more copy is put in place and derived. -/
theorem wp_pushCopy {done : List NodeId} {copies : List Schema} {input : NodeId} {i : Node} (hb : b.Sound)
    (hbelow : ∀ {k n}, p.nodes.get? k = some n → k < p.nextId) (ht : p.nodes.get? top = some t)
    (hdone : ∀ x ∈ done, x < p.nextId ∧ x ≠ top) (hlength : copies.length = done.length)
    (hposition : done.length < t.inputs.ids.length) (hi : p.nodes.get? input = some i) (hne : input ≠ top)
    (hop : b.op.Derives [p.schemaAt input] s)
    (h : (p.liftedAll top b done).Records (withCopies p.nextId copies p.schemaAt) r) :
    wp (pushCopy top b done.length input) (fun _ q =>
      (p.liftedAll top b (done ++ [input])).Records (withCopies p.nextId (copies ++ [s]) p.schemaAt) q ∧
        q.nextId < Word.limit) r := by
  have houtline := outline_eq_of_skeleton_eq h.skeleton
  have hnext : r.nextId = p.nextId + copies.length :=
    hlength ▸ (nextId_eq_of_skeleton_eq h.skeleton).trans nextId_liftedAll
  have hle : p.nextId ≤ r.nextId := hnext ▸ Nat.le_add_right _ _
  obtain ⟨t', ht', htlength⟩ := exists_get?_of_liftedAll hbelow (hbelow ht) hdone houtline ht
  obtain ⟨i', hi', -⟩ := exists_get?_of_liftedAll hbelow (hbelow ht) hdone houtline hi
  have hinput : input ≠ r.nextId := ((hbelow hi).trans_le hle).ne
  refine .of_room pushCopy_eq_error fun room =>
    .congr (pushCopy_eq ht' hi' ((hbelow ht).trans_le hle).ne hinput hne (htlength ▸ hposition) room) ?_
  have hschema : (r.lifted top b done.length input).schemaAt input = p.schemaAt input := by
    rw [schemaAt_lifted, Function.update_of_ne hinput, h.schemas, withCopies_old (hbelow hi)]
  have hlifted : (r.lifted top b done.length input).Sound := h.sound.lifted hb
  obtain ⟨q, hrun, hq⟩ := exists_refresh hlifted (k := r.nextId) (IdMap.get?_insert_self ..) (List.cons_ne_nil _ _)
    (by
      intro u hu
      obtain rfl := List.mem_singleton.mp hu
      exact ⟨liftedNode top r.nextId done.length u u i', by
        simp [Plan.lifted, IdMap.get?_insert, hinput, hi']⟩)
    (by simpa [hschema] using hop)
  have hlifted : Touched Set.univ (p.liftedAll top b done) r := ⟨h.skeleton, fun _ hk => absurd trivial hk⟩
  refine .step hrun (.pure ⟨⟨?_, hq.sound, ?_⟩, ?_⟩)
  · rw [hq.skeleton, liftedAll_concat]
    exact hlifted.lifted.skeleton
  · rw [hq.schemas, schemaAt_lifted, Function.update_idem, h.schemas, hnext, update_withCopies]
  · rw [nextId_eq_of_skeleton_eq hq.skeleton]
    exact room

theorem wp_pushCopies {outs : List Schema} (hs : p.Sound) (hb : b.Sound) (hp : p.nextId < Word.limit)
    (hbelow : ∀ {k n}, p.nodes.get? k = some n → k < p.nextId) (ht : p.nodes.get? top = some t)
    (hinputs : ∀ x ∈ t.inputs.ids, (∃ n, p.nodes.get? x = some n) ∧ x ≠ top)
    (heach : List.Forall₂ (fun u out => b.op.Derives [p.schemaAt u] out) t.inputs.ids outs) :
    wp (t.inputs.ids.zipIdx.mapM fun (input, position) => pushCopy top b position input) (fun _ q =>
      (p.liftedAll top b t.inputs.ids).Records (withCopies p.nextId outs p.schemaAt) q ∧
        q.nextId < Word.limit) p := by
  refine .mono (.mapM (motive := fun l r => ∃ done rest, t.inputs.ids = done ++ rest ∧
      l = rest.zipIdx done.length ∧
      (p.liftedAll top b done).Records (withCopies p.nextId (outs.take done.length) p.schemaAt) r ∧
      r.nextId < Word.limit) ?step ?start) ?done
  case start =>
    refine ⟨[], t.inputs.ids, rfl, rfl, ⟨rfl, hs, funext fun k : Nat => ?_⟩, hp⟩
    rw [withCopies]
    split
    · rename_i hk
      cases hn : p.nodes.get? k with
      | none => simp [schemaAt, hn, default]
      | some n => exact absurd (hbelow hn) (Nat.not_lt.mpr hk)
    · rfl
  case step =>
    rintro a l r ⟨done, rest, hids, hl, hr, -⟩
    cases rest with
    | nil => cases hl
    | cons input rest =>
      obtain ⟨rfl, rfl⟩ := List.cons.inj hl
      have hlength := heach.length_eq
      rw [hids] at hlength
      have hdone : done.length < t.inputs.ids.length := by simp [hids]
      have hout : done.length < outs.length := by simp [← hlength]
      have hget : t.inputs.ids[done.length] = input := by simp [hids]
      have hin : ∀ x ∈ done ++ input :: rest, (∃ n, p.nodes.get? x = some n) ∧ x ≠ top := hids ▸ hinputs
      obtain ⟨⟨i, hi⟩, hne⟩ := hin input (by simp)
      refine (wp_pushCopy hb hbelow ht (fun x hx => ?_) (by simpa using hout.le) hdone hi hne
        (by simpa [hget] using heach.get hdone hout) hr).mono fun _ q _ hq => ?_
      · obtain ⟨⟨n, hn⟩, hne⟩ := hin x (by simp [hx])
        exact ⟨hbelow hn, hne⟩
      · refine ⟨done ++ [input], rest, by simp [hids], by simp, ?_, hq.2⟩
        have htake : outs.take done.length ++ [outs.get ⟨done.length, hout⟩] =
            outs.take (done ++ [input]).length := by simp
        exact htake ▸ hq.1
  case done =>
    rintro _ q - ⟨done, rest, hids, hl, hq, hlimit⟩
    cases rest with
    | cons => cases hl
    | nil =>
      rw [List.append_nil] at hids
      rw [← hids, heach.length_eq, List.take_length] at hq
      exact ⟨hq, hlimit⟩

section Moved

variable {outs : List Schema} (hp : p.Coherent) (hwt : p.WellTyped) (ht : p.nodes.get? top = some t)
  (hb : p.nodes.get? bottom = some b) (htop : t.op = .concat) (hfed : b.inputs = .unary top)
  (honly : ∀ c ∈ t.children, c = bottom)
  (heach : List.Forall₂ (fun u out => b.op.Derives [p.schemaAt u] out) t.inputs.ids outs)
  (hall : Op.concat.Derives outs (p.schemaAt bottom))

theorem schemaAt_bypassed {u : NodeId} (hu : u ≠ bottom) :
    (p.bypassed top bottom b).schemaAt u = p.schemaAt u := by
  rw [schemaAt, get?_bypassed, if_neg hu, schemaAt]
  cases p.nodes.get? u with
  | none => rfl
  | some n =>
    simp only [Option.map_some, Option.getD_some]
    split_ifs <;> rfl

/-- The schemas when the copies are in place: those of the old nodes, but for the node that has
been moved, and those of the copies. -/
def movedSchemas (p : Plan) (top bottom : NodeId) (outs : List Schema) : NodeId → Schema :=
  withCopies p.nextId outs (Function.update p.schemaAt top (p.schemaAt bottom))

include hp heach in
theorem withCopies_bypassed {k : NodeId} {rels : Nat → Relation}
    (hn : (p.pushed top bottom t b rels).nodes.get? k = some n) (hk : k ≠ top) :
    withCopies p.nextId outs (p.bypassed top bottom b).schemaAt k = movedSchemas p top bottom outs k := by
  rcases get?_pushed_eq_some hp.toLinked hn with ⟨i, _, rfl, hi, -⟩ | ⟨hlt, hkb, -⟩
  · have hi : i < outs.length := heach.length_eq ▸ (List.getElem?_eq_some_iff.mp hi).1
    rw [movedSchemas, withCopies_copy hi, withCopies_copy hi]
  · rw [movedSchemas, withCopies_old hlt, withCopies_old hlt, Function.update_of_ne hk,
      schemaAt_bypassed hkb]

include hp hwt ht hb htop hfed honly heach hall

/-- When the copies are in place, the concatenation and what reads it are derived. -/
theorem exists_settle {rels : Nat → Relation} (hr : r.nextId < Word.limit)
    (h : (p.pushed top bottom t b rels).Records
      (withCopies p.nextId outs (p.bypassed top bottom b).schemaAt) r) :
    ∃ q₁ q, refresh top r = .ok () q₁ ∧ b.children.toList.forM refreshStorage q₁ = .ok () q ∧
      q.WellTyped ∧ ∀ k < p.nextId, k ≠ top → k ≠ bottom → q.schemaAt k = p.schemaAt k := by
  have hne : top ≠ bottom := by
    rintro rfl
    exact hp.not_feeds_self (k := top) ⟨b, hb, by simp [hfed]⟩
  have hpushed : (p.pushed top bottom t b rels).Coherent := hp.pushed ht hb hfed
    (hr.trans_eq' (nextId_eq_of_skeleton_eq h.skeleton))
  have htyped : (p.pushed top bottom t b rels).Typed _ _ := hwt.pushed hp ht htop honly heach hall
  have hupper : (p.pushed top bottom t b rels).nodes.get? top = _ := get?_pushed_old hp.toLinked ht hne
  obtain ⟨q₁, hrefresh, hq₁⟩ := refresh_records h hpushed htyped hupper (by simp [htop]) fun u hu => by
    obtain ⟨m, hm⟩ := hpushed.closed ⟨_, hupper, hu⟩
    exact withCopies_bypassed hp heach hm fun h => hpushed.not_feeds_self ⟨_, hupper, h ▸ hu⟩
  have hsame : ∀ k n, (p.pushed top bottom t b rels).nodes.get? k = some n →
       Function.update (withCopies p.nextId outs (p.bypassed top bottom b).schemaAt) top
        (movedSchemas p top bottom outs top) k = movedSchemas p top bottom outs k := by
    intro k n hn
    by_cases hk : k = top
    · rw [hk, Function.update_self]
    · rw [Function.update_of_ne hk, withCopies_bypassed hp heach hn hk]
  obtain ⟨q, hstorage, hq⟩ := exists_forM (l := b.children.toList) (g := refreshStorage)
    (fun c hc q hq => by
      have hfeeds := (hp.children hb).mp (IdSet.mem_toList.mp hc)
      obtain ⟨m, hm, hids⟩ := id hfeeds
      have hget : (p.pushed top bottom t b rels).nodes.get? c = _ := get?_pushed_old hp.toLinked hm
        fun h => hp.not_feeds_self (h ▸ hfeeds)
      refine refreshStorage_records hq hpushed htyped hget (by simpa using hp.ne_create hm hids)
        fun u hu => ?_
      obtain ⟨o, ho⟩ := hpushed.closed ⟨_, hget, hu⟩
      exact (congrArg List.length (hsame u o ho)).ge) hq₁
  refine ⟨q₁, q, hrefresh, hstorage, ?_, fun k hk hkt hkb => ?_⟩
  · rw [WellTyped, hq.schemas]
    exact (htyped.congr hpushed.toLinked hsame hsame).of_skeleton_eq hq.skeleton
  · rw [hq.schemas, Function.update_of_ne hkt, withCopies_old hk, schemaAt_bypassed hkb]

end Moved

/-- A node is moved above the concatenation that only it reads. -/
theorem wp_pushDown_typed (hp : p.Coherent) (hs : p.Sound) (hwt : p.WellTyped)
    (ht : p.nodes.get? top = some t) (hb : p.nodes.get? bottom = some b) (htop : t.op = .concat)
    (hfed : b.inputs = .unary top) (hsingle : b.children.size ≤ 1) (honly : ∀ c ∈ t.children, c = bottom) :
    wp (pushDown top bottom) (fun _ q => q.WellTyped ∧
      ∀ k < p.nextId, k ≠ top → k ≠ bottom → q.schemaAt k = p.schemaAt k) p := by
  have harity := hp.arity_of_inputs hb hfed
  have hlinked := hp.toLinked.bypassed ht hb hfed
  have hupper := hp.get?_bypassed_top ht hb hfed
  have hconcat := hwt top t ht (by simp [htop])
  have hlower := hwt bottom b hb (hp.ne_create (u := top) hb (by simp [hfed]))
  rw [htop] at hconcat
  rw [hfed] at hlower
  obtain ⟨outs, heach, hall⟩ := Op.exists_derives_each hconcat hlower harity
  rw [List.forall₂_map_left_iff] at heach
  have hnot : ∀ u ∈ t.inputs.ids, u ≠ bottom := by
    rintro u hu rfl
    exact hp.not_feeds_back (u := u) (v := top) ⟨t, ht, hu⟩ ⟨b, hb, by simp [hfed]⟩
  have heach' : List.Forall₂ (fun u out => b.op.Derives [(p.bypassed top bottom b).schemaAt u] out)
      t.inputs.ids outs :=
    ((List.forall₂_and_left _ _).mpr ⟨hnot, heach⟩).imp fun u out h => by
      rw [schemaAt_bypassed h.1]
      exact h.2
  refine .congr (pushDown_eq hp.toLinked ht hb harity hsingle hfed) (.bind ?_)
  refine (wp_pushCopies (t := { t with children := t.children.erase bottom ∪ b.children })
    hs.bypassed (hs bottom b hb) hp.bounded hlinked.below hupper
    (fun x hx => ⟨hlinked.closed ⟨_, hupper, hx⟩,
      fun h => hlinked.not_feeds_self (k := top) ⟨_, hupper, h ▸ hx⟩⟩) heach').mono
    fun _ r _ ⟨hr, hlimit⟩ => ?_
  change ((p.bypassed top bottom b).liftedAll top b t.inputs.ids).Records
    (withCopies p.nextId outs (p.bypassed top bottom b).schemaAt) r at hr
  rw [liftedAll_bypassed hp.toLinked ht hb hfed] at hr
  obtain ⟨q₁, q, hrefresh, hstorage, hq⟩ :=
    exists_settle hp hwt ht hb htop hfed honly heach hall hlimit hr
  exact .step hrefresh (.step hstorage (.pure hq))

end Push

end Edit

end JointPlan
