import JointPlan.Proofs.PushDown
import JointPlan.Proofs.Typing

/-!
# Splitting a well-typed aggregate

The parts that an aggregate is split into address columns by position: the groups first,
and behind them what the part before has computed. So each part applies to what the part
before yields, and the last one yields the schema that the aggregate had. Until the last
part is in place the readers of the aggregate count on more than they find, which is what
`Plan.TypedBut` is for.
-/

namespace JointPlan

-- ---------------------------------------------------------------------------
-- Columns by position
-- ---------------------------------------------------------------------------

namespace Relation

variable {r : Relation} {i : Nat}

theorem exists_columnSlice (start count : Nat) (h : start + count ≤ r.schema.length) :
    ∃ cs, PushDown.columnSlice r start count = .ok cs := by
  rw [PushDown.columnSlice, if_pos (by simpa using h)]
  exact ⟨_, rfl⟩

theorem exists_columnAt (h : i < r.schema.length) : ∃ c, r.columnAt i = .ok c := by
  rw [columnAt, List.getElem?_eq_getElem (by simpa using h)]
  exact ⟨_, rfl⟩

end Relation

namespace Op

variable {s pre : Schema} {groups cs : List Column} {c total squares size : Column} {op : Op}
  {count : Nat} {out : String} {a b e : String × ColumnType}

theorem isSome_entryAt? : (entryAt? [s] 0 c).isSome ↔ c.index < s.length := by
  simp [entryAt?]

theorem entry_of_getElem? (h : s[c.index]? = some e) : entry [s] 0 c = e := by
  simp [entry, entryAt?, h]

/-- Columns that stand in a row. -/
theorem map_entry_of_positions (start : Nat) (h : positions cs = (List.range count).map (start + ·))
    (hs : start + count ≤ s.length) : cs.map (entry [s] 0) = (s.drop start).take count := by
  have hentry : cs.map (entry [s] 0) = (positions cs).map fun i => s[i]?.getD default := by
    simp [positions, entry, entryAt?, Function.comp_def]
  rw [hentry, h]
  refine List.ext_getElem (by simp; omega) fun i hi _ => ?_
  have hi : start + i < s.length := by simp at hi; omega
  simp [hi]

theorem bounds_of_positions (start : Nat) (h : positions cs = (List.range count).map (start + ·)) (hc : c ∈ cs) :
    start ≤ c.index ∧ c.index < start + count := by
  have hmem : c.index ∈ positions cs := List.mem_map_of_mem hc
  rw [h] at hmem
  obtain ⟨i, hi, hci⟩ := List.mem_map.mp hmem
  have := List.mem_range.mp hi
  omega

/-- The groups of an aggregate are the first columns of what it yields. -/
theorem map_entry_groups (h : positions groups = List.range pre.length) {rest : Schema} :
    groups.map (entry [pre ++ rest] 0) = pre := by
  rw [map_entry_of_positions 0 (by simpa using h) (by simp)]
  simp

theorem derives_of_layout (hbound : ∀ b ∈ op.bound, b.1 = 0 ∧ b.2.index < s.length)
    (hsides : ∀ side ∈ op.sides, side = 0) (hcollect : ∀ recipients, op ≠ .collect recipients)
    {out : Schema} (h : op.layout? [s] = some out) : op.Derives [s] out where
  sides side hside := by simp [hsides side hside]
  bound b hb := by
    obtain ⟨side, c⟩ := b
    obtain ⟨rfl, hc⟩ := hbound _ hb
    exact isSome_entryAt?.mpr hc
  layout := h
  addressed recipients h := absurd h (hcollect recipients)

-- ---------------------------------------------------------------------------
-- The halves of an aggregate
-- ---------------------------------------------------------------------------

section Halves

variable (hgroups : positions groups = List.range pre.length)

include hgroups

theorem index_lt_of_groups {rest : Schema} (hc : c ∈ groups) : c.index < (pre ++ rest).length := by
  have := bounds_of_positions 0 (by simpa using hgroups) hc
  simp
  omega

theorem derives_globalSum (hc : c.index = pre.length) (he : e.1 = out) :
    (sum groups c out).Derives [pre ++ [e]] (pre ++ [e]) := by
  refine derives_of_layout ?_ (by simp [sides]) (by simp) ?_
  · rintro ⟨side, d⟩ hb
    simp only [bound, List.map_append, List.mem_append, List.mem_map, Prod.mk.injEq, List.mem_singleton] at hb
    obtain ⟨d, hd, rfl, rfl⟩ | ⟨d, rfl, rfl, rfl⟩ := hb
    · exact ⟨rfl, index_lt_of_groups hgroups hd⟩
    · simp [hc]
  · have hlast : entry [pre ++ [e]] 0 c = e := entry_of_getElem? (by simp [hc])
    simp [layout?, map_entry_groups hgroups, hlast, ← he]

theorem derives_globalMean (htotal : total.index = pre.length) (hsize : size.index = pre.length + 1) :
    (mean groups total out (some size)).Derives [pre ++ [a, b]] (pre ++ [(out, .float)]) := by
  refine derives_of_layout ?_ (by simp [sides]) (by simp) ?_
  · rintro ⟨side, d⟩ hb
    simp only [bound, Option.toList_some, List.mem_map, List.mem_append, List.mem_cons, List.not_mem_nil,
      or_false, Prod.mk.injEq] at hb
    obtain ⟨d, hd | rfl | rfl, rfl, rfl⟩ := hb
    · exact ⟨rfl, index_lt_of_groups hgroups hd⟩
    · simp [htotal]
    · simp [hsize]
  · simp [layout?, map_entry_groups hgroups]

theorem derives_globalSums {rest : Schema} (hcs : positions cs = (List.range rest.length).map (pre.length + ·)) :
    (columnSums groups cs).Derives [pre ++ rest] (pre ++ rest) := by
  refine derives_of_layout ?_ (by simp [sides]) (by simp) ?_
  · rintro ⟨side, d⟩ hb
    simp only [bound, List.map_append, List.mem_append, List.mem_map, Prod.mk.injEq] at hb
    obtain ⟨d, hd, rfl, rfl⟩ | ⟨d, hd, rfl, rfl⟩ := hb
    · exact ⟨rfl, index_lt_of_groups hgroups hd⟩
    · exact ⟨rfl, by simpa using (bounds_of_positions _ hcs hd).2⟩
  · simp [layout?, map_entry_groups hgroups, map_entry_of_positions (s := pre ++ rest) _ hcs (by simp)]

theorem derives_globalVariance (htotal : total.index = pre.length) (hsquares : squares.index = pre.length + 1)
    (hsize : size.index = pre.length + 2) :
    (variance groups total squares size out).Derives [pre ++ [a, b, e]] (pre ++ [(out, .float)]) := by
  refine derives_of_layout ?_ (by simp [sides]) (by simp) ?_
  · rintro ⟨side, d⟩ hb
    simp only [bound, List.mem_map, List.mem_append, List.mem_cons, List.not_mem_nil,
      or_false, Prod.mk.injEq] at hb
    obtain ⟨d, hd | rfl | rfl | rfl, rfl, rfl⟩ := hb
    · exact ⟨rfl, index_lt_of_groups hgroups hd⟩
    · simp [htotal]
    · simp [hsquares]
    · simp [hsize]
  · simp [layout?, map_entry_groups hgroups]

end Halves

theorem derives_squareRoot : (squareRoot out).Derives [pre ++ [e]] (pre ++ [(out, .float)]) :=
  derives_of_layout (by simp [bound]) (by simp [sides]) (by simp) (by simp [layout?])

theorem derives_globalDistinct (h : positions cs = List.range s.length) : (distinct cs).Derives [s] s := by
  have h : positions cs = (List.range s.length).map (0 + ·) := by simpa using h
  refine derives_of_layout ?_ (by simp [sides]) (by simp) ?_
  · rintro ⟨side, d⟩ hb
    simp only [bound, List.mem_map, Prod.mk.injEq] at hb
    obtain ⟨d, hd, rfl, rfl⟩ := hb
    exact ⟨rfl, by simpa using (bounds_of_positions 0 h hd).2⟩
  · simp [layout?, map_entry_of_positions (s := s) 0 h (by simp)]

/-- An operator that is bound to the same columns applies too. -/
theorem Derives.of_bound_eq {ins : List Schema} {op' : Op} {t t' : Schema} (h : op.Derives ins t)
    (hbound : op'.bound = op.bound) (hsides : op'.sides = op.sides)
    (hcollect : ∀ recipients, op' ≠ .collect recipients) (hlayout : op'.layout? ins = some t') :
    op'.Derives ins t' where
  sides := hsides ▸ h.sides
  bound := hbound ▸ h.bound
  layout := hlayout
  addressed recipients h := absurd h (hcollect recipients)

end Op

namespace PushDown

open Plan Edit

variable {p q : Plan} {X : NodeId} {x n : Node} {op : Op} {s y pre : Schema} {name out : String}

-- ---------------------------------------------------------------------------
-- Appending the parts
-- ---------------------------------------------------------------------------

/-- A node that yields `s` has been put in front of readers that count on `y`. -/
structure Lengthened (p : Plan) (y s : Schema) (id : NodeId) (q : Plan) : Prop where
  id_eq : id = p.nextId
  coherent : q.Coherent
  sound : q.Sound
  typed : q.TypedBut id y
  node : ∃ m, q.nodes.get? id = some m ∧ m.rel.schema = s
  elsewhere : ∀ k < p.nextId, q.schemaAt k = p.schemaAt k

theorem wp_append (hp : p.Coherent) (hs : p.Sound) (ht : p.TypedBut X y) (hn : p.nodes.get? X = some n)
    (harity : op.arity = .unary) (hsized : ∀ ds, op = .distinct ds → n.rel.columns.length = ds.length)
    (hop : op.Derives [p.schemaAt X] s) (hwide : y.length ≤ s.length) :
    wp (append X op name) (Lengthened p y s) p := by
  have hwp : wp (append X op name) (fun id q => id = p.nextId → q.TypedBut p.nextId y ∧
      q.schemaAt = Function.update p.schemaAt p.nextId s) p := by
    refine .step (run_node.mpr ⟨hn, rfl⟩) (.returning ?_)
    exact (wp_insertAfterAll_typed hp hs hn rfl harity (n.rel.numbered_rename name)
      (fun ds h => (Relation.length_rename ..).trans (hsized ds h)) ht hop hwide).mono
      fun _ q _ hq _ _ _ _ => hq
  refine hwp.mono fun id q run hq => ?_
  have hsized' : ∀ n' ds, p.nodes.get? X = some n' → op = .distinct ds → n'.rel.columns.length = ds.length := by
    intro n' ds hn'
    cases hn.symm.trans hn'
    exact hsized ds
  obtain ⟨rfl, _, rel, -, spliced, -⟩ := spliced_of_append hp hsized' run
  obtain ⟨htyped, hschema⟩ := hq rfl
  obtain ⟨m, hm, -⟩ := get?_of_outline_eq spliced.outline.symm (k := p.nextId) (by rw [get?_splice, if_pos rfl])
  refine ⟨rfl, spliced.coherent hp, spliced.sound hs, htyped, ⟨m, hm, ?_⟩, fun k hk => ?_⟩
  · rw [← schemaAt_of_get? hm, hschema, Function.update_self]
  · rw [hschema, Function.update_of_ne hk.ne]

/-- The last part. -/
theorem wp_append_last (hp : p.Coherent) (hs : p.Sound) (ht : p.TypedBut X y) (hn : p.nodes.get? X = some n)
    (harity : op.arity = .unary) (hsized : ∀ ds, op = .distinct ds → n.rel.columns.length = ds.length)
    (hop : op.Derives [p.schemaAt X] y) :
    wp (do discard (append X op name); return true) (fun _ q => q.WellTyped ∧
      ∀ k < p.nextId, q.schemaAt k = p.schemaAt k) p := by
  refine .bind (.discard ?_)
  refine (wp_append hp hs ht hn harity hsized hop le_rfl).mono fun id q _ h => ?_
  obtain ⟨m, hm, hschema⟩ := h.node
  exact .pure ⟨h.typed.wellTyped ((schemaAt_of_get? hm).trans hschema), h.elsewhere⟩

section Split

variable (hp : p.Coherent) (hs : p.Sound) (ht : p.WellTyped) (hx : p.nodes.get? X = some x)

include hp hs ht hx

/-- The sums of partial results that stand behind the groups. -/
theorem wp_globalSum {e : String × ColumnType} (hschema : x.rel.schema = pre ++ [e]) (hout : e.1 = out) :
    wp (do discard (append X (← ask fun _ => globalSum x.rel pre.length out) name); return true)
      (fun _ q => q.WellTyped ∧ ∀ k < p.nextId, q.schemaAt k = p.schemaAt k) p := by
  have hnumbered := (hs X x hx).numbered
  obtain ⟨groups, hgroups⟩ := x.rel.exists_columnSlice 0 pre.length (by simp [hschema])
  obtain ⟨c, hc⟩ := x.rel.exists_columnAt (i := pre.length) (by simp [hschema])
  have hop : globalSum x.rel pre.length out = .ok (.sum groups c out) := by
    simp [globalSum, hgroups, hc, bind_eq_ok]
  refine .step (run_ask.mpr ⟨hop, rfl⟩) ?_
  refine wp_append_last hp hs (typedBut_self.mpr ht) hx rfl (by simp) ?_
  rw [schemaAt_of_get? hx, hschema]
  exact Op.derives_globalSum (by simpa using hnumbered.columnSlice hgroups) (hnumbered.columnAt hc) hout

/-- The aggregate gives way to its first half. -/
theorem exists_half (half : Op) {P : Schema → Prop} (hunary : x.op.arity = .unary) (harity : half.arity = .unary)
    (hsized : ∀ ds, half ≠ .distinct ds)
    (hop : ∀ i, x.op.Derives [i] x.rel.schema → ∃ s, half.Derives [i] s ∧ P s) :
    ∃ q z, replaceOp X half p = .ok () q ∧ q.Coherent ∧ q.Sound ∧ q.nextId = p.nextId ∧
      q.nodes.get? X = some z ∧ P z.rel.schema ∧ q.TypedBut X x.rel.schema ∧
      ∀ k, k ≠ X → q.schemaAt k = p.schemaAt k := by
  obtain ⟨input, hin⟩ := hp.inputs_of_arity hx hunary
  have hderives := ht X x hx (hp.ne_create (u := input) hx (by simp [hin]))
  rw [hin, schemaAt_of_get? hx] at hderives
  obtain ⟨s, hhalf, hs'⟩ := hop (p.schemaAt input) hderives
  obtain ⟨q, hrun, htyped, hschema⟩ := exists_replaceOp hp hs ht hx hin harity hsized hhalf
  have exchanged := exchanged_of_replaceOp hx hunary hsized hrun
  obtain ⟨z, hz, -⟩ := get?_of_outline_eq exchanged.outline.symm (k := X) (by rw [get?_set, if_pos rfl])
  refine ⟨q, z, hrun, exchanged.coherent hp, exchanged.sound hs, exchanged.nextId_eq, hz, ?_,
    schemaAt_of_get? hx ▸ htyped, fun k hk => by rw [hschema, Function.update_of_ne hk]⟩
  rwa [← schemaAt_of_get? hz, hschema, Function.update_self]

theorem wp_splitMean {groups : List Column} {c : Column} (hop : x.op = .mean groups c out none) :
    wp (splitOp X x) (fun _ q => q.WellTyped ∧ ∀ k < p.nextId, k ≠ X → q.schemaAt k = p.schemaAt k) p := by
  obtain ⟨q, z, hrun, hq, hsound, hnext, hz, ⟨pre, a, b, hlength, hpre, hschema⟩, htyped, hold⟩ :=
    exists_half hp hs ht hx (.sumCount groups c s!"{out}_sum" s!"{out}_count") (P := fun s => ∃ pre a b,
      pre.length = groups.length ∧ pre ++ [(out, .float)] = x.rel.schema ∧ s = pre ++ [a, b])
      (by rw [hop]; rfl) rfl (by simp) fun i hi => by
        rw [hop] at hi
        exact ⟨_, hi.of_bound_eq (by simp [Op.bound]) rfl (by simp) rfl, _, _, _, by simp,
          Option.some.inj hi.layout, rfl⟩
  have hnumbered := (hsound X z hz).numbered
  obtain ⟨groups', hgroups⟩ := z.rel.exists_columnSlice 0 groups.length (by simp [hschema, hlength])
  obtain ⟨total, htotal⟩ := z.rel.exists_columnAt (i := groups.length) (by simp [hschema, hlength])
  obtain ⟨size, hsize⟩ := z.rel.exists_columnAt (i := groups.length + 1) (by simp [hschema, hlength])
  simp only [splitOp, hop]
  refine .step hrun (.step (run_node.mpr ⟨hz, rfl⟩) (.step (a := .mean groups' total out (some size))
    (run_ask.mpr ⟨by simp [hgroups, htotal, hsize, bind_eq_ok], rfl⟩) ?_))
  refine (wp_append_last hq hsound htyped hz rfl (by simp) ?_).mono fun _ r _ hr =>
    ⟨hr.1, fun k hk hkX => (hr.2 k (hnext ▸ hk)).trans (hold k hkX)⟩
  rw [schemaAt_of_get? hz, hschema, ← hpre]
  exact Op.derives_globalMean (by simpa [hlength] using hnumbered.columnSlice hgroups)
    (by rw [hnumbered.columnAt htotal, hlength]) (by rw [hnumbered.columnAt hsize, hlength])

theorem wp_splitStdDev {groups : List Column} {c : Column} (hop : x.op = .stdDev groups c out) :
    wp (splitOp X x) (fun _ q => q.WellTyped ∧ ∀ k < p.nextId, k ≠ X → q.schemaAt k = p.schemaAt k) p := by
  obtain ⟨q, z, hrun, hq, hsound, hnext, hz, ⟨pre, a, b, e, hlength, hpre, hschema⟩, htyped, hold⟩ :=
    exists_half hp hs ht hx (.sumSquaresCount groups c s!"{out}_sum" s!"{out}_squares" s!"{out}_count")
      (P := fun s => ∃ pre a b e, pre.length = groups.length ∧ pre ++ [(out, .float)] = x.rel.schema ∧
        s = pre ++ [a, b, e])
      (by rw [hop]; rfl) rfl (by simp) fun i hi => by
        rw [hop] at hi
        exact ⟨_, hi.of_bound_eq rfl rfl (by simp) rfl, _, _, _, _, by simp, Option.some.inj hi.layout, rfl⟩
  have hnumbered := (hsound X z hz).numbered
  obtain ⟨groups', hgroups⟩ := z.rel.exists_columnSlice 0 groups.length (by simp [hschema, hlength])
  obtain ⟨cs, hcs⟩ := z.rel.exists_columnSlice groups.length 3 (by simp [hschema, hlength])
  simp only [splitOp, hop]
  refine .step hrun (.step (run_node.mpr ⟨hz, rfl⟩) (.step (a := .columnSums groups' cs)
    (run_ask.mpr ⟨by simp [hgroups, hcs, bind_eq_ok], rfl⟩) ?_))
  refine .bind ?_
  refine (wp_append (s := pre ++ [a, b, e]) hq hsound htyped hz rfl (by simp) ?_ (by simp [← hpre])).mono
    fun sums q₁ _ h₁ => ?_
  · rw [schemaAt_of_get? hz, hschema]
    exact Op.derives_globalSums (by simpa [hlength] using hnumbered.columnSlice hgroups)
      (by simpa [hlength] using hnumbered.columnSlice hcs)
  obtain ⟨z₁, hz₁, hschema₁⟩ := h₁.node
  have hnumbered₁ := (h₁.sound sums z₁ hz₁).numbered
  obtain ⟨groups₁, hgroups₁⟩ := z₁.rel.exists_columnSlice 0 groups.length (by simp [hschema₁, hlength])
  obtain ⟨total, htotal⟩ := z₁.rel.exists_columnAt (i := groups.length) (by simp [hschema₁, hlength])
  obtain ⟨squares, hsquares⟩ := z₁.rel.exists_columnAt (i := groups.length + 1) (by simp [hschema₁, hlength])
  obtain ⟨size, hsize⟩ := z₁.rel.exists_columnAt (i := groups.length + 2) (by simp [hschema₁, hlength])
  refine .step (run_node.mpr ⟨hz₁, rfl⟩) (.step (a := .variance groups₁ total squares size s!"{out}_var")
    (run_ask.mpr ⟨by simp [hgroups₁, htotal, hsquares, hsize, bind_eq_ok], rfl⟩) ?_)
  refine .bind ?_
  refine (wp_append (s := pre ++ [(s!"{out}_var", .float)]) h₁.coherent h₁.sound h₁.typed hz₁ rfl (by simp) ?_
    (by simp [← hpre])).mono fun spread q₂ _ h₂ => ?_
  · rw [schemaAt_of_get? hz₁, hschema₁]
    exact Op.derives_globalVariance (by simpa [hlength] using hnumbered₁.columnSlice hgroups₁)
      (by rw [hnumbered₁.columnAt htotal, hlength]) (by rw [hnumbered₁.columnAt hsquares, hlength])
      (by rw [hnumbered₁.columnAt hsize, hlength])
  obtain ⟨z₂, hz₂, hschema₂⟩ := h₂.node
  have hlt₁ : p.nextId < q₁.nextId := by
    rw [← hnext, ← h₁.id_eq]
    exact h₁.coherent.below hz₁
  have hlt₂ : q₁.nextId < q₂.nextId := by
    rw [← h₂.id_eq]
    exact h₂.coherent.below hz₂
  refine (wp_append_last h₂.coherent h₂.sound h₂.typed hz₂ rfl (by simp) ?_).mono fun _ r _ hr =>
    ⟨hr.1, fun k hk hkX => ?_⟩
  · rw [schemaAt_of_get? hz₂, hschema₂, ← hpre]
    exact Op.derives_squareRoot
  · rw [hr.2 k (hk.trans (hlt₁.trans hlt₂)), h₂.elsewhere k (hk.trans hlt₁), h₁.elsewhere k (hnext ▸ hk), hold k hkX]

/-- Whatever can be split of a well-typed plan is, and no other node notices. -/
theorem wp_splitOp :
    wp (splitOp X x) (fun _ q => q.WellTyped ∧ ∀ k < p.nextId, k ≠ X → q.schemaAt k = p.schemaAt k) p := by
  have hsum {e : String × ColumnType} {pre : Schema} {width : Nat} (hschema : x.rel.schema = pre ++ [e])
      (hwidth : width = pre.length) :
      wp (do discard (append X (← ask fun _ => globalSum x.rel width e.1) s!"{x.rel.name}_obl"); return true)
        (fun _ q => q.WellTyped ∧ ∀ k < p.nextId, k ≠ X → q.schemaAt k = p.schemaAt k) p := by
    subst hwidth
    exact (wp_globalSum hp hs ht hx hschema rfl).mono fun _ _ _ h => ⟨h.1, fun k hk _ => h.2 k hk⟩
  have hlayout (hop : x.op ≠ .create) := (ht X x hx hop).layout
  rw [schemaAt_of_get? hx] at hlayout
  cases hop : x.op
  case mean groups c out weight =>
    cases weight with
    | none => exact wp_splitMean hp hs ht hx hop
    | some weight =>
      simp only [splitOp, hop]
      exact .pure ⟨ht, fun _ _ _ => rfl⟩
  case stdDev => exact wp_splitStdDev hp hs ht hx hop
  all_goals simp only [splitOp, hop]
  case sum groups c out =>
    have hschema := hlayout (by simp [hop])
    rw [hop] at hschema
    exact hsum (e := (out, _)) (Option.some.inj hschema).symm (by simp)
  case count groups out =>
    have hschema := hlayout (by simp [hop])
    rw [hop] at hschema
    exact hsum (e := (out, .integer)) (Option.some.inj hschema).symm (by simp)
  case numRows out =>
    have hschema := hlayout (by simp [hop])
    rw [hop] at hschema
    exact hsum (e := (out, .integer)) (show x.rel.schema = [] ++ _ from (Option.some.inj hschema).symm) rfl
  case distinct cs =>
    refine (wp_append_last hp hs (typedBut_self.mpr ht) hx rfl (by simp) ?_).mono
      fun _ _ _ h => ⟨h.1, fun k hk _ => h.2 k hk⟩
    refine Op.derives_globalDistinct ?_
    rw [schemaAt_of_get? hx, Relation.length_schema]
    exact (hs X x hx).numbered.positions_columns
  all_goals exact .pure ⟨ht, fun _ _ _ => rfl⟩

end Split

end PushDown

end JointPlan
