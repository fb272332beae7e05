import JointPlan.Proofs.Inheriting
import JointPlan.Proofs.Splitting

/-!
# Profiles of divided work

When work is done on each input of a concatenation instead of on the concatenation, what is common
to the sources of a column is taken in another order: input by input first, and then over all
inputs. It comes to the same. Only results that are not grouped depend on where they are computed,
and these are computed anew by the last operator, where the old result was.
-/

namespace JointPlan

namespace Access

variable {gs ts src : List Access} {members : PartySet}

theorem shared_swap {β γ : Type} {f : β → γ → Access} {l : List β} {l' : List γ} (h : l ≠ []) (h' : l' ≠ []) :
    shared (l.map fun b => shared (l'.map fun c => f b c)) = shared (l'.map fun c => shared (l.map fun b => f b c)) := by
  have hflat {β γ : Type} {f : β → γ → Access} {l : List β} {l' : List γ} (h' : l' ≠ []) :
      shared (l.map fun b => shared (l'.map fun c => f b c)) = shared (l.map fun b => l'.map fun c => f b c).flatten := by
    rw [← shared_flatten (by simpa using fun _ _ => h'), List.map_map]
    rfl
  rw [hflat h', hflat h]
  refine shared_congr fun a => ?_
  simp only [List.mem_flatten, List.mem_map, exists_exists_and_eq_and]
  constructor
  · rintro ⟨b, hb, c, hc, rfl⟩
    exact ⟨c, hc, b, hb, rfl⟩
  · rintro ⟨c, hc, b, hb, rfl⟩
    exact ⟨b, hb, c, hc, rfl⟩

/-- What is shared with the groups already is not narrowed by sharing it with them again. -/
theorem shared_absorb (hgs : gs ≠ []) (hts : ts ≠ []) (h : ∀ t ∈ ts, t = shared (gs ++ src)) :
    shared (gs ++ ts) = shared (gs ++ src) := by
  have hlists : gs ++ ts = (gs.map (fun g => [g]) ++ ts.map fun _ => gs ++ src).map shared := by
    rw [List.map_append, List.map_map, List.map_map]
    refine congrArg₂ _ (List.map_id _).symm ?_
    refine (List.map_id _).symm.trans (List.map_congr_left h)
  rw [hlists, shared_flatten fun l hl => ?_]
  rotate_left
  · obtain hl | hl := List.mem_append.mp hl <;> obtain ⟨_, _, rfl⟩ := List.mem_map.mp hl <;> simp [hgs]
  refine shared_congr fun a => ?_
  obtain ⟨t, ht⟩ := List.exists_mem_of_ne_nil _ hts
  simp only [List.mem_flatten, List.mem_append, List.mem_map]
  constructor
  · rintro ⟨l, ⟨g, hg, rfl⟩ | ⟨t, -, rfl⟩, ha⟩
    · exact .inl (List.mem_singleton.mp ha ▸ hg)
    · exact List.mem_append.mp ha
  · intro ha
    exact ⟨gs ++ src, .inr ⟨t, ht, rfl⟩, List.mem_append.mpr ha⟩

/-- The groups, and behind them results that are computed per group from the same columns. Who may see a
result that is not grouped is left open. -/
def Grouped (gs src : List Access) (count : Nat) (l : List Access) : Prop :=
  ∃ tail, l = gs ++ tail ∧ tail.length = count ∧ (gs ≠ [] → ∀ t ∈ tail, t = shared (gs ++ src))

/-- The same, computed where `members` store it. -/
def grouped (members : PartySet) (gs src : List Access) (count : Nat) : List Access :=
  gs ++ List.replicate count (if gs = [] then everyone members else shared (gs ++ src))

theorem grouped_spec {count : Nat} : Grouped gs src count (grouped members gs src count) := by
  refine ⟨_, rfl, List.length_replicate, fun hgs t ht => ?_⟩
  rw [List.eq_of_mem_replicate ht, if_neg hgs]

end Access

namespace Op

open Access

variable {op part : Op} {ls : List (List Access)} {l : List Access} {w : Nat} {members : PartySet}

-- ---------------------------------------------------------------------------
-- Columns that can be traced
-- ---------------------------------------------------------------------------

theorem accesses_concat (hls : ls ≠ []) (hw : ∀ l ∈ ls, l.length = w) :
    concat.accesses members ls = (List.range w).map fun i => shared (ls.map fun l => l[i]?.getD default) := by
  obtain ⟨first, rest, rfl⟩ := List.exists_cons_of_ne_nil hls
  change ((List.range _).map _).map _ = _
  rw [List.map_map]
  have hfirst : (((first :: rest).map List.length)[0]?).getD 0 = w := hw first List.mem_cons_self
  rw [hfirst]
  refine List.map_congr_left fun i _ => ?_
  rw [Function.comp_apply, accessOf, if_neg (by simp), List.map_map]
  refine congrArg shared (List.ext_getElem (by simp) fun side hside _ => ?_)
  have hside : side < (first :: rest).length := by simpa using hside
  simp only [List.getElem_map, List.getElem_range, Function.comp_apply, accessAt, List.getElem?_eq_getElem hside,
    Option.bind_some]

/-- Every column of the output is computed from columns of the one input. -/
def Traced (w : Nat) (op : Op) : Prop :=
  op ≠ .opening ∧ ∀ sources ∈ op.lineage [w], sources ≠ [] ∧ ∀ s ∈ sources, s.1 = 0 ∧ s.2 < w

theorem Backed.single {sources : List Source} (h : Backed [w] sources) : sources ≠ [] ∧ ∀ s ∈ sources, s.1 = 0 ∧ s.2 < w := by
  refine ⟨h.1, fun ⟨side, i⟩ hs => ?_⟩
  have hlt := h.2 _ hs
  cases side with
  | zero => exact ⟨rfl, hlt⟩
  | succ side => simp at hlt

/-- Columns that depend on single rows can be traced, unless they are opened. -/
theorem traced_of_derives {s out : Schema} (h : op.Derives [s] out) (hopen : op ≠ .opening)
    (hdetached : ∀ i, ¬ op.Detached i) : op.Traced s.length := by
  refine ⟨hopen, fun sources hmem => ?_⟩
  obtain ⟨i, hi⟩ := List.mem_iff_getElem?.mp hmem
  obtain ⟨hd, -⟩ | ⟨-, hbacked⟩ := h.backed hi
  · exact absurd hd (hdetached i)
  · exact hbacked.single

theorem Traced.accesses (h : op.Traced l.length) : op.accesses members [l] =
    (op.lineage [l.length]).map fun sources => shared (sources.map fun s => l[s.2]?.getD default) := by
  rw [accesses_of_ne_opening h.1]
  refine List.map_congr_left fun sources hsources => ?_
  obtain ⟨hne, hside⟩ := h.2 sources hsources
  rw [accessOf, if_neg hne]
  refine congrArg shared (List.map_congr_left fun s hs => ?_)
  obtain ⟨side, i⟩ := s
  obtain ⟨rfl, -⟩ := hside _ hs
  rfl

/-- Input by input, and then over all inputs. -/
theorem Traced.each (h : op.Traced w) (hls : ls ≠ []) (hw : ∀ l ∈ ls, l.length = w) {outs : List (List Access)}
    (houts : List.Forall₂ (fun l out => ∃ members, out = op.accesses members [l]) ls outs) :
    concat.accesses members outs = op.accesses members [concat.accesses members ls] := by
  have houts : outs = ls.map fun l => (op.lineage [w]).map fun sources => shared (sources.map fun s => l[s.2]?.getD default) := by
    clear hls
    induction houts with
    | nil => rfl
    | @cons l out ls outs hout _ ih =>
      obtain ⟨hl, hw⟩ := List.forall_mem_cons.mp hw
      obtain ⟨members, rfl⟩ := hout
      subst hl
      rw [List.map_cons, ih hw, h.accesses]
  have hlength : (concat.accesses members ls).length = w := by rw [accesses_concat hls hw]; simp
  have hwhole := h
  rw [← hlength] at hwhole
  rw [hwhole.accesses, hlength, accesses_concat (w := (op.lineage [w]).length) (by simpa [houts] using hls) (by simp [houts]),
    houts, accesses_concat hls hw]
  refine List.ext_getElem (by simp) fun i hi _ => ?_
  have hi : i < (op.lineage [w]).length := by simpa using hi
  obtain ⟨hne, hside⟩ := h.2 _ (List.getElem_mem hi)
  simp only [List.getElem_map, List.getElem_range, List.map_map, Function.comp_def, List.getElem?_map,
    List.getElem?_eq_getElem hi, Option.map_some, Option.getD_some]
  rw [shared_swap hls hne]
  refine congrArg shared (List.map_congr_left fun s hs => ?_)
  simp [(hside s hs).2]

section Each

variable {ins : List Profile} {c d : Profile}

/-- What an operator makes of a concatenation can be made of its inputs one by one. The concatenation of
the results has the same schema and lives in the same place. -/
theorem exists_makes_each (hconcat : concat.Makes ins c) (hd : part.Makes [c] d) (harity : part.arity = .unary)
    (hplace : ∀ st, part.place? [st] = some st) :
    ∃ outs z, List.Forall₂ (fun f out => part.Makes [f] out) ins outs ∧ concat.Makes outs z ∧
      z.schema = d.schema ∧ z.storage = c.storage ∧ (part.Traced c.columns.length → z = d) := by
  obtain ⟨schemas, heach, hall⟩ := exists_derives_each hconcat.derives hd.derives harity
  rw [List.forall₂_map_left_iff] at heach
  obtain ⟨outs, hmakes, rfl⟩ : ∃ outs, List.Forall₂ (fun f out => part.Makes [f] out) ins outs ∧
      outs.map Profile.schema = schemas := by
    clear hconcat hall
    induction heach with
    | nil => exact ⟨[], .nil, rfl⟩
    | @cons f s ins schemas h _ ih =>
      obtain ⟨out, hout, rfl⟩ := exists_makes (List.cons_ne_nil f []) h
      obtain ⟨outs, houts, rfl⟩ := ih
      exact ⟨out :: outs, .cons hout houts, rfl⟩
  have hins : ins ≠ [] := by
    rintro rfl
    cases hconcat.derives.layout
  have houts : outs ≠ [] := by
    rintro rfl
    cases hall.layout
  obtain ⟨z, hz, hschema⟩ := exists_makes houts hall
  have hstorages : outs.map Profile.storage = ins.map Profile.storage := by
    clear hconcat hall heach hz hins houts
    induction hmakes with
    | nil => rfl
    | cons h _ ih => rw [List.map_cons, List.map_cons, ih, Option.some.inj (h.place.symm.trans (hplace _))]
  have hstorage : z.storage = c.storage := by
    have hplace := hz.place
    rw [hstorages] at hplace
    exact Option.some.inj (hplace.symm.trans hconcat.place)
  have hstorage' : d.storage = c.storage := Option.some.inj (hd.place.symm.trans (hplace _))
  refine ⟨outs, z, hmakes, hz, hschema, hstorage, fun htraced => ?_⟩
  refine Profile.eq_of_schema_eq hschema ?_ (hstorage.trans hstorage'.symm)
  have hwidth : ∀ l ∈ ins.map Profile.accesses, l.length = c.columns.length := by
    rintro _ hl
    obtain ⟨f, hf, rfl⟩ := List.mem_map.mp hl
    simpa using hconcat.derives.width_eq (List.mem_map_of_mem hf)
  have heach : List.Forall₂ (fun l out => ∃ members, out = part.accesses members [l]) (ins.map Profile.accesses)
      (outs.map Profile.accesses) := by
    rw [List.forall₂_map_left_iff, List.forall₂_map_right_iff]
    exact hmakes.imp fun _ _ h => ⟨_, h.accesses⟩
  rw [hz.accesses, hstorage, htraced.each (by simpa using hins) hwidth heach, ← hconcat.accesses, hd.accesses, hstorage']
  rfl

end Each

-- ---------------------------------------------------------------------------
-- Aggregates
-- ---------------------------------------------------------------------------

/-- The columns `cs` of a relation. -/
def picked (l : List Access) (cs : List Column) : List Access := cs.map fun c => l[c.index]?.getD default

@[simp] theorem length_picked {cs : List Column} : (picked l cs).length = cs.length := List.length_map ..

/-- The operator computes a result per group from each of `lists`. -/
structure Aggregates (groups : List Column) (lists : List (List Column)) (op : Op) : Prop where
  lineage : ∀ w, op.lineage [w] = perGroup groups lists
  closed : op ≠ .opening
  place : ∀ st, op.place? [st] = some st
  bound : ∀ c ∈ groups ++ lists.flatten, (0, c) ∈ op.bound

theorem aggregates_of_grouping? {groups : List Column} {lists : List (List Column)}
    (h : op.grouping? = some (groups, lists)) : op.Aggregates groups lists where
  lineage _ := lineage_of_grouping? h
  closed := by
    rintro rfl
    cases h
  place _ := by cases op <;> cases h <;> rfl
  bound := bound_of_grouping? h

namespace Aggregates

variable {groups cs : List Column} {lists : List (List Column)} {gs src : List Access} {count : Nat} {c d y z : Profile}
  {s out : Schema}

theorem accesses (h : op.Aggregates groups lists) : op.accesses members [l] = picked l groups ++
    lists.map fun cs => if groups = [] then .everyone members else .shared (picked l groups ++ picked l cs) := by
  have hlineage : op.lineage ([l].map List.length) = perGroup groups lists := h.lineage l.length
  rw [accesses_of_ne_opening h.closed, hlineage, perGroup, List.map_append, List.map_map, List.map_map]
  refine congrArg₂ _ (List.map_congr_left fun c _ => accessOf_singleton) (List.map_congr_left fun cs _ => ?_)
  cases groups with
  | nil => rfl
  | cons c groups =>
    rw [Function.comp_apply, if_neg (by simp), if_neg (by simp), accessOf, if_neg (by simp [drawn]), picked, picked,
      ← List.map_append, drawn, List.map_map]
    rfl

theorem traced (h : op.Aggregates groups lists) (hgroups : groups ≠ []) (hs : op.Derives [s] out) :
    op.Traced s.length := by
  refine ⟨h.closed, fun sources hsources => ?_⟩
  rw [h.lineage] at hsources
  exact (backed_perGroup hgroups (fun c hc => hs.index_lt (h.bound c hc)) hsources).single

theorem accesses_eq_grouped (h : op.Aggregates groups lists) (hlists : ∀ list ∈ lists, list = cs) :
    op.accesses members [l] = grouped members (picked l groups) (picked l cs) lists.length := by
  have hnil : picked l groups = [] ↔ groups = [] := List.map_eq_nil_iff
  rw [h.accesses, grouped]
  simp only [hnil]
  refine congrArg _ (List.eq_replicate_iff.mpr ⟨List.length_map .., fun t ht => ?_⟩)
  obtain ⟨list, hlist, rfl⟩ := List.mem_map.mp ht
  rw [hlists list hlist]

/-- Results that are computed per group from such results. -/
theorem accesses_of_grouped (h : op.Aggregates groups lists) (hl : Grouped gs src count l)
    (hgroups : positions groups = List.range gs.length)
    (hlists : ∀ cs ∈ lists, cs ≠ [] ∧ ∀ c ∈ cs, gs.length ≤ c.index ∧ c.index < gs.length + count) :
    op.accesses members [l] = grouped members gs src lists.length := by
  obtain ⟨tail, rfl, rfl, htail⟩ := hl
  have hlength : groups.length = gs.length := by simpa [positions] using congrArg List.length hgroups
  have hpicked : picked (gs ++ tail) groups = gs := by
    have hindex : picked (gs ++ tail) groups = (positions groups).map fun i => (gs ++ tail)[i]?.getD default := by
      simp [picked, positions, Function.comp_def]
    rw [hindex, hgroups]
    refine List.ext_getElem (by simp) fun i hi _ => ?_
    have hi : i < gs.length := by simpa using hi
    simp [List.getElem?_append_left hi, hi]
  have hnil : groups = [] ↔ gs = [] := by rw [← List.length_eq_zero_iff, hlength, List.length_eq_zero_iff]
  rw [h.accesses, hpicked, grouped]
  simp only [hnil]
  refine congrArg _ (List.eq_replicate_iff.mpr ⟨List.length_map .., fun t ht => ?_⟩)
  obtain ⟨cs, hcs, rfl⟩ := List.mem_map.mp ht
  split
  · rfl
  · rename_i hgs
    obtain ⟨hne, hindex⟩ := hlists cs hcs
    refine shared_absorb hgs (by simpa [picked] using hne) fun t ht => htail hgs t ?_
    obtain ⟨c, hc, rfl⟩ := List.mem_map.mp ht
    obtain ⟨hle, hlt⟩ := hindex c hc
    rw [List.getElem?_append_right hle, List.getElem?_eq_getElem (by omega), Option.getD_some]
    exact List.getElem_mem _

/-- A further aggregate on top of results per group. -/
theorem exists_makes_grouped (h : op.Aggregates groups lists) (hz : Grouped gs src count z.accesses)
    (hgroups : positions groups = List.range gs.length)
    (hlists : ∀ cs ∈ lists, cs ≠ [] ∧ ∀ c ∈ cs, gs.length ≤ c.index ∧ c.index < gs.length + count)
    (hs : op.Derives [z.schema] s) :
    ∃ y, op.Makes [z] y ∧ y.schema = s ∧ y.storage = z.storage ∧
      y.accesses = grouped z.storage.members gs src lists.length := by
  obtain ⟨y, hy, rfl⟩ := exists_makes (List.cons_ne_nil z []) hs
  have hstorage : y.storage = z.storage := Option.some.inj (hy.place.symm.trans (h.place _))
  refine ⟨y, hy, rfl, hstorage, ?_⟩
  rw [hy.accesses, hstorage]
  exact h.accesses_of_grouped hz hgroups hlists

/-- The results per group of many inputs, one below the other. -/
theorem grouped_of_each (h : op.Aggregates groups lists) (hlists : ∀ list ∈ lists, list = cs) (hd : op.Makes [c] d)
    (hschema : z.schema = d.schema) (htraced : op.Traced c.columns.length → z = d) :
    Grouped (picked c.accesses groups) (picked c.accesses cs) lists.length z.accesses := by
  have hgrouped : d.accesses = grouped d.storage.members (picked c.accesses groups) (picked c.accesses cs) lists.length :=
    hd.accesses.trans (h.accesses_eq_grouped hlists)
  by_cases hgroups : groups = []
  · subst hgroups
    refine ⟨z.accesses, rfl, ?_, fun hne => absurd rfl hne⟩
    have hlength := congrArg List.length hschema
    rw [Profile.length_schema, Profile.length_schema, ← d.length_accesses, hgrouped] at hlength
    simpa [grouped, picked] using hlength
  · rw [htraced (by simpa using h.traced hgroups hd.derives), hgrouped]
    exact grouped_spec

end Aggregates

-- ---------------------------------------------------------------------------
-- The rule
-- ---------------------------------------------------------------------------

theorem traced_of_isRowWise {s out : Schema} (hop : op.isRowWise = true) (hs : op.Derives [s] out) : op.Traced s.length := by
  apply traced_of_derives hs
  · rintro rfl
    cases hop
  · rintro i (⟨lists, hgrouping⟩ | ⟨name, rfl, -⟩)
    · cases op <;> cases hop <;> cases hgrouping
    · cases hop

end Op

/-- Roots have the profile on record, and every other node the one that its operator makes. -/
def Rule.profiles : Rule Profile where
  allows n ins f := (n.op = .create → f = n.rel.profile) ∧ (n.op ≠ .create → n.op.Makes ins f)
  congr hop hrel h := by
    have hcreate : ∀ {n m : Node}, m.op.bare = n.op.bare → m.op = .create → n.op = .create := fun hop hc =>
      Op.eq_of_bare_eq (hop.symm.trans (congrArg _ hc)) rfl
    refine ⟨fun hc => ?_, fun hc => ?_⟩
    · have hc := hcreate hop hc
      rw [hrel hc, h.1 hc]
    · exact (h.2 fun hn => hc (hcreate hop.symm hn)).of_bare_eq hop.symm

namespace Rule

variable {op : Op} {ins : List Profile} {f : Profile}

theorem profiles_yields (h : op.Makes ins f) : profiles.Yields ins op f := by
  rintro n rfl
  refine ⟨fun hc => ?_, fun _ => h⟩
  have hlayout := h.derives.layout
  rw [hc] at hlayout
  cases hlayout

theorem profiles_unique {n : Node} {g : Profile} (hf : profiles.allows n ins f) (hg : profiles.allows n ins g) : f = g := by
  by_cases hc : n.op = .create
  · rw [hf.1 hc, hg.1 hc]
  · exact (hf.2 hc).unique (hg.2 hc)

theorem profiles_leads_single {z y : Profile} (h : op.Makes [z] y) : profiles.Leads [op] z y :=
  .cons (fun _ => profiles_yields h) .nil

end Rule

namespace Op

open Access

variable {op part : Op} {rest : List Op} {ins : List Profile} {c y : Profile}

/-- What has the columns of its input, one by one, is as accessible as its input. -/
theorem accesses_of_through {op : Op} {l : List Access} {members : PartySet} (hop : op ≠ .opening)
    (h : op.lineage [l.length] = through [l.length] 0) : op.accesses members [l] = l := by
  have htraced : op.Traced l.length := ⟨hop, fun _ hsources => (backed_through (h ▸ hsources)).single⟩
  rw [htraced.accesses, h, through, List.map_map]
  refine List.ext_getElem (by simp) fun i hi _ => ?_
  have hi : i < l.length := by simpa using hi
  simp [hi]

section Halves

variable {groups groups' cs cs' : List Column} {lists : List (List Column)} {last : Op} {s : Schema} {z : Profile} {count : Nat}

/-- The first half of an aggregate, on each input. -/
theorem Aggregates.exists_each (h : part.Aggregates groups lists) (hlists : ∀ list ∈ lists, list = cs)
    (harity : part.arity = .unary) (hconcat : concat.Makes ins c) (hs : part.Derives [c.schema] s) :
    ∃ d outs z, part.Makes [c] d ∧ List.Forall₂ (fun f out => part.Makes [f] out) ins outs ∧ concat.Makes outs z ∧
      z.schema = s ∧ z.storage = c.storage ∧
      Grouped (picked c.accesses groups) (picked c.accesses cs) lists.length z.accesses := by
  obtain ⟨d, hd, rfl⟩ := exists_makes (List.cons_ne_nil c []) hs
  obtain ⟨outs, z, heach, hall, hschema, hstorage, htraced⟩ := exists_makes_each hconcat hd harity h.place
  exact ⟨d, outs, z, hd, heach, hall, hschema, hstorage, h.grouped_of_each hlists hd hschema htraced⟩

/-- The last half. -/
theorem Aggregates.makes_last (h : op.Aggregates groups [cs]) (hop : op.Makes [c] y) (hlast : last.Aggregates groups' [cs'])
    (hz : Grouped (picked c.accesses groups) (picked c.accesses cs) count z.accesses) (hstorage : z.storage = c.storage)
    (hgroups : positions groups' = List.range groups.length)
    (hcs' : cs' ≠ [] ∧ ∀ c ∈ cs', groups.length ≤ c.index ∧ c.index < groups.length + count)
    (hs : last.Derives [z.schema] y.schema) : last.Makes [z] y := by
  obtain ⟨y', hy', hschema, hstorage', haccesses⟩ := hlast.exists_makes_grouped hz (by simpa using hgroups)
    (by simpa using hcs') hs
  have hplace : y.storage = c.storage := Option.some.inj (hop.place.symm.trans (h.place _))
  have heq : y' = y := by
    refine Profile.eq_of_schema_eq hschema ?_ (hstorage'.trans (hstorage.trans hplace.symm))
    rw [haccesses, hop.accesses, hplace, hstorage]
    exact (h.accesses_eq_grouped (by simp)).symm
  exact heq ▸ hy'

/-- Both halves, where there are two. -/
theorem Aggregates.makes_halves (h : op.Aggregates groups [cs]) (hpart : part.Aggregates groups lists)
    (hlast : last.Aggregates groups' [cs']) (hlists : ∀ list ∈ lists, list = cs) (harity : part.arity = .unary)
    (hconcat : concat.Makes ins c) (hop : op.Makes [c] y) (hgroups : positions groups' = List.range groups.length)
    (hcs' : cs' ≠ [] ∧ ∀ c ∈ cs', groups.length ≤ c.index ∧ c.index < groups.length + lists.length)
    (hs : part.Derives [c.schema] s) (hs' : last.Derives [s] y.schema) :
    ∃ d outs z, part.Makes [c] d ∧ List.Forall₂ (fun f out => part.Makes [f] out) ins outs ∧ concat.Makes outs z ∧
      Rule.profiles.Leads [last] z y := by
  obtain ⟨d, outs, z, hd, heach, hall, rfl, hstorage, hz⟩ := hpart.exists_each hlists harity hconcat hs
  exact ⟨d, outs, z, hd, heach, hall,
    Rule.profiles_leads_single (h.makes_last hop hlast hz hstorage hgroups hcs' hs')⟩

/-- The standard deviation: the sums per input, the sums over all inputs, the variance, and its root. -/
theorem makes_stdDev {groups groups₁ groups₂ cs : List Column} {col total squares size : Column}
    {out sumName squaresName countName varianceName : String}
    (hconcat : concat.Makes ins c) (hop : (stdDev groups col out).Makes [c] y)
    (hgroups₁ : positions groups₁ = List.range groups.length) (hcs : positions cs = (List.range 3).map (groups.length + ·))
    (hgroups₂ : positions groups₂ = List.range groups.length) (htotal : total.index = groups.length)
    (hsquares : squares.index = groups.length + 1) (hsize : size.index = groups.length + 2) :
    ∃ d outs z, (sumSquaresCount groups col sumName squaresName countName).Makes [c] d ∧
      List.Forall₂ (fun f out => (sumSquaresCount groups col sumName squaresName countName).Makes [f] out) ins outs ∧
      concat.Makes outs z ∧ Rule.profiles.Leads
        [columnSums groups₁ cs, variance groups₂ total squares size varianceName, squareRoot out] z y := by
  have hagg : (stdDev groups col out).Aggregates groups [[col]] := aggregates_of_grouping? rfl
  have hpart : (sumSquaresCount groups col sumName squaresName countName).Aggregates groups [[col], [col], [col]] :=
    aggregates_of_grouping? rfl
  have hsums : (columnSums groups₁ cs).Aggregates groups₁ (cs.map fun c => [c]) := aggregates_of_grouping? rfl
  have hvariance : (variance groups₂ total squares size varianceName).Aggregates groups₂ [[total, squares, size]] :=
    aggregates_of_grouping? rfl
  have hplace : y.storage = c.storage := Option.some.inj (hop.place.symm.trans (hagg.place _))
  have hsame : ∀ list ∈ [[col], [col], [col]], list = [col] := by simp
  have hlength : cs.length = 3 := by simpa [positions] using congrArg List.length hcs
  have hindex : ∀ c ∈ cs, groups.length ≤ c.index ∧ c.index < groups.length + 3 := fun c hc => bounds_of_positions _ hcs hc
  obtain ⟨d, outs, z, hd, heach, hall, hschema, hstorage, hz⟩ := hpart.exists_each hsame rfl hconcat
    (hop.derives.of_bound_eq rfl rfl (by simp) rfl)
  obtain ⟨z₁, hz₁, hschema₁, hstorage₁, haccesses₁⟩ := hsums.exists_makes_grouped hz
    (by simpa using hgroups₁) (by simpa using hindex)
    (hschema ▸ derives_globalSums (by simpa using hgroups₁) (by simpa using hcs))
  obtain ⟨z₂, hz₂, hschema₂, hstorage₂, haccesses₂⟩ := hvariance.exists_makes_grouped
    (haccesses₁ ▸ grouped_spec) (by simpa using hgroups₂) (by simp [hlength, htotal, hsquares, hsize])
    (hschema₁.trans hschema ▸ derives_globalVariance (by simpa using hgroups₂) (by simpa using htotal)
      (by simpa using hsquares) (by simpa using hsize))
  have hstorage' : z₂.storage = y.storage := by rw [hstorage₂, hstorage₁, hstorage, hplace]
  refine ⟨d, outs, z, hd, heach, hall, .cons (fun _ => Rule.profiles_yields hz₁)
    (.cons (fun _ => Rule.profiles_yields hz₂) (Rule.profiles_leads_single ⟨?_, ?_, ?_⟩))⟩
  · rw [List.map_singleton, hschema₂, ← Option.some.inj hop.derives.layout]
    exact derives_squareRoot
  · exact congrArg some hstorage'
  · refine Eq.trans ?_ (accesses_of_through (by simp) rfl).symm
    rw [hop.accesses, haccesses₂, hplace, hstorage₁, hstorage]
    exact hagg.accesses_eq_grouped (by simp)

end Halves

theorem Splits.arity (h : op.Splits part rest) : op.arity = .unary ∧ part.arity = .unary := by
  cases h with
  | rowWise h => cases op <;> first | exact ⟨rfl, rfl⟩ | cases h
  | _ => exact ⟨rfl, rfl⟩

/-- Work that is divided comes to the same profile. -/
theorem Splits.makes (h : op.Splits part rest) (hconcat : concat.Makes ins c) (hop : op.Makes [c] y) :
    ∃ d outs z, part.Makes [c] d ∧ List.Forall₂ (fun f out => part.Makes [f] out) ins outs ∧ concat.Makes outs z ∧
      Rule.profiles.Leads rest z y := by
  have harity := h.arity.1
  cases h with
  | rowWise h =>
    have hplace : ∀ st, op.place? [st] = some st := by cases op <;> first | exact fun _ => rfl | cases h
    obtain ⟨outs, z, heach, hall, -, -, htraced⟩ := exists_makes_each hconcat hop harity hplace
    obtain rfl := htraced (by simpa using traced_of_isRowWise h hop.derives)
    exact ⟨z, outs, z, hop, heach, hall, .nil⟩
  | @distinct cs cs' hcs =>
    obtain ⟨outs, z, heach, hall, -, -, htraced⟩ := exists_makes_each hconcat hop rfl fun _ => rfl
    obtain rfl := htraced (by simpa using traced_of_derives hop.derives (by simp) (by simp [Detached, grouping?]))
    have hwidth : z.columns.length = cs.length := by
      rw [← z.length_schema, ← Option.some.inj hop.derives.layout, List.length_map]
    have hlineage : (Op.distinct cs').lineage [z.accesses.length] = through [z.accesses.length] 0 := by
      rw [Profile.length_accesses, hwidth]
      change _ = (List.range cs.length).map _
      rw [← hcs, positions, List.map_map]
      rfl
    refine ⟨z, outs, z, hop, heach, hall, Rule.profiles_leads_single ⟨?_, rfl, ?_⟩⟩
    · exact derives_globalDistinct (by rw [hcs, Profile.length_schema, hwidth])
    · exact (accesses_of_through (by simp) hlineage).symm
  | sum hgroups hc | count hgroups hc =>
    refine (aggregates_of_grouping? rfl).makes_halves (aggregates_of_grouping? rfl) (aggregates_of_grouping? rfl)
      (by simp) rfl hconcat hop hgroups (by simp [hc]) hop.derives ?_
    rw [← Option.some.inj hop.derives.layout]
    exact derives_globalSum (by simpa using hgroups) (by simpa using hc) rfl
  | numRows hc =>
    refine (aggregates_of_grouping? rfl).makes_halves (aggregates_of_grouping? rfl) (aggregates_of_grouping? rfl)
      (by simp) rfl hconcat hop rfl (by simp [hc]) hop.derives ?_
    rw [← Option.some.inj hop.derives.layout]
    change (Op.sum [] _ _).Derives [[] ++ [_]] ([] ++ [_])
    exact derives_globalSum rfl hc rfl
  | mean hgroups htotal hsize =>
    refine (aggregates_of_grouping? rfl).makes_halves (aggregates_of_grouping? rfl) (aggregates_of_grouping? rfl)
      (by simp) rfl hconcat hop hgroups (by simp [htotal, hsize])
      (hop.derives.of_bound_eq (by simp [bound]) rfl (by simp) rfl) ?_
    rw [← Option.some.inj hop.derives.layout]
    exact derives_globalMean (by simpa using hgroups) (by simpa using htotal) (by simpa using hsize)
  | stdDev hgroups₁ hcs hgroups₂ htotal hsquares hsize =>
    exact makes_stdDev hconcat hop hgroups₁ hcs hgroups₂ htotal hsquares hsize

end Op

end JointPlan
