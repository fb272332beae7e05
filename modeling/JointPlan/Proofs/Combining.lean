import JointPlan.Proofs.Revealing

/-!
# Combining storage

Where a relation lives that is computed from several others depends on the places of these as a set: neither
their order nor their number matters. Nor does it matter whether some of them are combined first. A combination
of places that are not all the same is in a form that is determined by the parties and by whether all of
the places are in the clear (`Storage.settled`), and combining a settled place with others adds nothing
to either.
-/

namespace JointPlan

namespace Storage

variable {st first first' : Storage} {rest rest' xs ys : List Storage} {a : PartyId}

-- ---------------------------------------------------------------------------
-- Places in settled form
-- ---------------------------------------------------------------------------

/-- A copy for every party if the place is in the clear, and one sharing among all of them otherwise. -/
def settled (st : Storage) : Storage := if st.cardinality = 1 then st.flattened else st.shared

theorem settled_congr (hmembers : st.members = first.members)
    (hclear : st.cardinality = 1 ↔ first.cardinality = 1) : st.settled = first.settled := by
  simp only [settled, hclear, flattened_eq hmembers, shared_eq hmembers]

/-- The combination is in the clear exactly when all places are. -/
theorem cardinality_combineAll :
    (combineAll first rest).cardinality = 1 ↔ ∀ st ∈ first :: rest, st.cardinality = 1 := by
  refine ⟨cardinality_of_combineAll, fun hclear => ?_⟩
  refine combineAll_cases (motive := fun st => st.cardinality = 1) (fun _ => ?same) (fun _ _ => ?apart) fun hnot => ?joint
  case same => exact hclear first List.mem_cons_self
  case apart => exact cardinality_singletons
  case joint => exact absurd hclear hnot

/-- Places that are not all the same are combined to a settled one. -/
theorem settled_combineAll (hne : ¬ ∀ st ∈ rest, st = first) : (combineAll first rest).settled = combineAll first rest := by
  by_cases hclear : ∀ st ∈ first :: rest, st.cardinality = 1
  · rw [settled, if_pos (cardinality_combineAll.mpr hclear)]
    refine combineAll_cases (motive := fun st => st.flattened = st) (fun h => absurd h hne) (fun _ h => ?_)
      fun hnot => absurd hclear hnot
    exact Storage.ext (congrArg (fun s => s.toList.map IdSet.singleton) members_singletons)
  · rw [settled, if_neg (mt cardinality_combineAll.mp hclear)]
    refine combineAll_cases (motive := fun st => st.shared = st) (fun h => absurd h hne) (fun h => absurd h hclear)
      fun _ h => ?_
    exact shared_single

/-- Two combinations over the same parties that agree on whether they are in the clear. -/
theorem combineAll_eq_of_apart (hne : ¬ ∀ st ∈ rest, st = first) (hne' : ¬ ∀ st ∈ rest', st = first')
    (hmembers : ∀ a, (∃ st ∈ first :: rest, a ∈ st.members) ↔ ∃ st ∈ first' :: rest', a ∈ st.members)
    (hclear : (∀ st ∈ first :: rest, st.cardinality = 1) ↔ ∀ st ∈ first' :: rest', st.cardinality = 1) :
    combineAll first rest = combineAll first' rest' := by
  rw [← settled_combineAll hne, ← settled_combineAll hne']
  apply settled_congr
  · ext a
    rw [mem_members_combineAll, mem_members_combineAll, hmembers]
  · rw [cardinality_combineAll, cardinality_combineAll, hclear]

-- ---------------------------------------------------------------------------
-- Order and number
-- ---------------------------------------------------------------------------

theorem combineAll_of_same (h : ∀ st ∈ rest, st = first) : combineAll first rest = first := if_pos h

/-- Only the set of the places counts. -/
theorem combineAll_congr (h : ∀ st, st ∈ first :: rest ↔ st ∈ first' :: rest') :
    combineAll first rest = combineAll first' rest' := by
  have hforall (P : Storage → Prop) : (∀ st ∈ first :: rest, P st) ↔ ∀ st ∈ first' :: rest', P st :=
    forall_congr' fun st => imp_congr_left (h st)
  by_cases hsame : ∀ st ∈ rest, st = first
  · have hall : ∀ st ∈ first' :: rest', st = first := (hforall _).mp (List.forall_mem_cons.mpr ⟨rfl, hsame⟩)
    obtain rfl : first' = first := hall first' List.mem_cons_self
    rw [combineAll_of_same hsame, combineAll_of_same fun st hst => hall st (List.mem_cons_of_mem _ hst)]
  · refine combineAll_eq_of_apart hsame (fun hsame' => hsame ?_) (fun a => ?_) (hforall _)
    · have hall : ∀ st ∈ first :: rest, st = first' := (hforall _).mpr (List.forall_mem_cons.mpr ⟨rfl, hsame'⟩)
      intro st hst
      rw [hall st (List.mem_cons_of_mem _ hst), hall first List.mem_cons_self]
    · exact exists_congr fun st => and_congr_left fun _ => h st

theorem combine_congr (h : ∀ st, st ∈ xs ↔ st ∈ ys) : combine xs = combine ys := by
  cases xs with
  | nil =>
    obtain rfl := List.eq_nil_iff_forall_not_mem.mpr fun st hst => List.not_mem_nil ((h st).mpr hst)
    rfl
  | cons first rest =>
    cases ys with
    | nil => exact absurd ((h first).mp List.mem_cons_self) List.not_mem_nil
    | cons first' rest' => exact congrArg Except.ok (combineAll_congr h)

-- ---------------------------------------------------------------------------
-- Grouping
-- ---------------------------------------------------------------------------

/-- Some of the places may be combined first. -/
theorem combineAll_append : combineAll (combineAll first rest) rest' = combineAll first (rest ++ rest') := by
  by_cases hsame : ∀ st ∈ rest, st = first
  · rw [combineAll_of_same hsame]
    refine combineAll_congr fun st => ?_
    have := hsame st
    simp only [List.mem_cons, List.mem_append]
    tauto
  have hsame' : ¬ ∀ st ∈ rest ++ rest', st = first := fun h => hsame fun st hst => h st (List.mem_append_left _ hst)
  have hmembers (a : PartyId) : (∃ st ∈ combineAll first rest :: rest', a ∈ st.members) ↔
      ∃ st ∈ first :: (rest ++ rest'), a ∈ st.members := by
    rw [← List.cons_append, List.exists_mem_cons_iff, mem_members_combineAll]
    simp only [List.mem_append, or_and_right, exists_or]
  have hclear : (∀ st ∈ combineAll first rest :: rest', st.cardinality = 1) ↔
      ∀ st ∈ first :: (rest ++ rest'), st.cardinality = 1 := by
    rw [← List.cons_append, List.forall_mem_append, List.forall_mem_cons, cardinality_combineAll]
  by_cases hsame'' : ∀ st ∈ rest', st = combineAll first rest
  · -- what has been combined first is settled, so it is the combination of all
    rw [combineAll_of_same hsame'', ← settled_combineAll hsame, ← settled_combineAll hsame']
    apply settled_congr
    · ext a
      rw [@mem_members_combineAll first (rest ++ rest'), ← hmembers]
      simpa using fun st hst ha => hsame'' st hst ▸ ha
    · rw [@cardinality_combineAll first (rest ++ rest'), ← hclear]
      simpa using fun h st hst => hsame'' st hst ▸ h
  · exact combineAll_eq_of_apart hsame'' hsame' hmembers hclear

theorem combine_append {ys : List Storage} (h : combine xs = .ok st) : combine (st :: ys) = combine (xs ++ ys) := by
  cases xs with
  | nil => cases h
  | cons first rest =>
    cases h
    exact congrArg Except.ok combineAll_append

/-- The places that are combined first may stand anywhere. -/
theorem combine_append_append {before after : List Storage} (h : combine xs = .ok st) :
    combine (before ++ st :: after) = combine (before ++ xs ++ after) := by
  calc combine (before ++ st :: after)
    _ = combine (st :: (before ++ after)) := combine_congr fun _ => List.perm_middle.mem_iff
    _ = combine (xs ++ (before ++ after)) := combine_append h
    _ = combine (before ++ xs ++ after) := combine_congr fun _ => by
          simp only [List.mem_append]
          tauto

theorem ofLoci_loci : ofLoci st.loci = .ok st := by
  rw [ofLoci, dif_neg st.nonempty, dif_pos st.inhabited, dif_pos st.even]

end Storage

-- ---------------------------------------------------------------------------
-- Operators with several inputs
-- ---------------------------------------------------------------------------

namespace Op

variable {op op' : Op} {ins : List Relation}

theorem outputStorage?_combine (h : op.arity = .binary ∨ op.arity = .nary) :
    op.outputStorage? ins = some <$> Storage.combine (ins.map Relation.storage) := by
  cases op <;> simp_all [arity, outputStorage?]

/-- An operator with several inputs may be fed by the result of another one: the output is stored as if all inputs
were concatenated at once. -/
theorem outputStorage?_nested {r : Relation} {before after : List Relation} (hop : op.arity = .binary ∨ op.arity = .nary)
    (hop' : op'.arity = .binary ∨ op'.arity = .nary) (h : op.outputStorage? ins = .ok (some r.storage)) :
    op'.outputStorage? (before ++ r :: after) = concat.outputStorage? (before ++ ins ++ after) := by
  have hcombine : Storage.combine (ins.map Relation.storage) = .ok r.storage := by
    rw [outputStorage?_combine hop] at h
    obtain ⟨st, hst, hsome⟩ := map_eq_ok.mp h
    rw [hst, Option.some.inj hsome]
  rw [outputStorage?_combine hop', outputStorage?_combine (.inr rfl)]
  simp only [List.map_append, List.map_cons, Storage.combine_append_append hcombine]

end Op

namespace Storage

/-- Any places can be combined, over all their parties and to a sound description. Neither order nor grouping matters, and
copies of one place combine to that place; so operators with several inputs can be nested in any way. -/
theorem combine_regrouped (xs : List Storage) (hxs : xs ≠ []) : ∃ st, combine xs = .ok st ∧ ofLoci st.loci = .ok st ∧
    (∀ a, a ∈ st.members ↔ ∃ x ∈ xs, a ∈ x.members) ∧
    (∀ ys, xs.Perm ys → combine ys = .ok st) ∧
    (∀ x, (∀ y ∈ xs, y = x) → st = x) ∧
    (∀ ys, combine (st :: ys) = combine (xs ++ ys)) ∧
    ∀ (op op' : Op) (r : Relation) (ins before after : List Relation), (op.arity = .binary ∨ op.arity = .nary) →
      (op'.arity = .binary ∨ op'.arity = .nary) → ins.map Relation.storage = xs → r.storage = st →
        op.outputStorage? ins = .ok (some r.storage) ∧
        op'.outputStorage? (before ++ r :: after) = Op.concat.outputStorage? (before ++ ins ++ after) := by
  cases xs with
  | nil => exact absurd rfl hxs
  | cons first rest =>
    refine ⟨combineAll first rest, rfl, ofLoci_loci, fun _ => mem_members_combineAll, fun ys hperm => ?perm,
      fun x hx => ?copies, fun ys => combine_append rfl, fun op op' r ins before after hop hop' hins hr => ?nested⟩
    case perm => exact combine_congr fun _ => hperm.symm.mem_iff
    case copies =>
      obtain rfl : first = x := hx first List.mem_cons_self
      exact combineAll_of_same fun st hst => hx st (List.mem_cons_of_mem _ hst)
    case nested =>
      have hout : op.outputStorage? ins = .ok (some r.storage) := by
        rw [Op.outputStorage?_combine hop, hins, hr]
        rfl
      exact ⟨hout, Op.outputStorage?_nested hop hop' hout⟩

-- ---------------------------------------------------------------------------
-- Instances
-- ---------------------------------------------------------------------------

/-- A copy for each of the parties 1 and 2. -/
def copies : Storage := singletons (.ofList [1, 2]) (by decide)

/-- The same copies, listed the other way round. -/
def copiesTurned : Storage := ⟨[.singleton 2, .singleton 1], by decide, by decide, by decide⟩

def heldByFirst : Storage := among 1 []

/-- Combining the first two places of a join gives the place that its result is concatenated with. -/
theorem combine_regrouped_copies : combine [copiesTurned, heldByFirst] = .ok copies ∧ ofLoci copies.loci = .ok copies ∧
    (∀ a, a ∈ copies.members ↔ ∃ x ∈ [copiesTurned, heldByFirst], a ∈ x.members) ∧
    [copiesTurned, heldByFirst].Perm [heldByFirst, copiesTurned] ∧ combine [heldByFirst, copiesTurned] = .ok copies ∧
    combine [copiesTurned, copiesTurned] = .ok copiesTurned ∧
    combine (copies :: [copies]) = combine ([copiesTurned, heldByFirst] ++ [copies]) ∧
    (Op.join [] []).outputStorage? [.owning "a" [] copiesTurned, .owning "b" [] heldByFirst] = .ok (some copies) ∧
    Op.concat.outputStorage? [.owning "c" [] copies, .owning "ab" [] copies] =
      Op.concat.outputStorage? [.owning "c" [] copies, .owning "a" [] copiesTurned, .owning "b" [] heldByFirst] := by
  obtain ⟨st, hst, hsound, hmembers, hperm, -, hgroup, hnested⟩ :=
    combine_regrouped [copiesTurned, heldByFirst] (by simp)
  obtain ⟨st', hst', -, -, -, hcopies, -⟩ := combine_regrouped [copiesTurned, copiesTurned] (by simp)
  have hcopiesTurned : st' = copiesTurned := hcopies _ (by simp)
  obtain rfl : copies = st := by
    have hdecided : combine [copiesTurned, heldByFirst] = .ok copies := by decide
    exact Except.ok.inj (hdecided.symm.trans hst)
  have hswap := List.Perm.swap heldByFirst copiesTurned []
  obtain ⟨hjoin, hconcat⟩ := hnested (.join [] []) .concat (.owning "ab" [] copies)
    [.owning "a" [] copiesTurned, .owning "b" [] heldByFirst] [.owning "c" [] copies] [] (.inl rfl) (.inr rfl) rfl rfl
  exact ⟨hst, hsound, hmembers, hswap, hperm _ hswap, hcopiesTurned ▸ hst', hgroup [copies], hjoin, hconcat⟩

end Storage

end JointPlan
