import JointPlan.Proofs.Combining
import JointPlan.Proofs.Reading
import JointPlan.Plan.Fingerprint

/-!
# Plans written and read back

The JSON text of a plan is read back to that plan, as long as the numbers in it are the words that they stand for
(`Plan.inRange`) and no constant is a double. `Json.Encodes` holds what has to be known of each part: its JSON
form decodes to it, and the text of this form is read back. Both go from the parts of a value to the value.

A text therefore stands for one plan only, and the same goes for the list of nodes that the fingerprint is
taken of.
-/

namespace JointPlan

-- ---------------------------------------------------------------------------
-- Numbers that are words
-- ---------------------------------------------------------------------------

/-- The number is a word. -/
def Word.holds (n : Nat) : Bool := n < limit

/-- The number is a word with sign. -/
def Word.holdsSigned (n : Int) : Bool := -(signedLimit : Int) ≤ n && n < signedLimit

def IdSet.inRange (s : IdSet) : Bool := s.toList.all Word.holds

def Column.inRange (c : Column) : Bool := Word.holds c.index && c.trust.inRange && c.plain.inRange

def Storage.inRange (st : Storage) : Bool := st.loci.all IdSet.inRange

def Relation.inRange (r : Relation) : Bool := r.columns.all Column.inRange && r.storage.inRange

def Scalar.inRange : Scalar → Bool
  | .int n => Word.holdsSigned n
  | .float _ => false

def Operand.inRange : Operand → Bool
  | .column c => c.inRange
  | .scalar s => s.inRange

def Inputs.inRange (inputs : Inputs) : Bool := inputs.ids.all Word.holds

def Op.inRange : Op → Bool
  | .create | .opening | .store | .read | .persist | .send | .shuffle | .concat => true
  | .numRows _ | .index _ | .squareRoot _ => true
  | .limit n => Word.holds n
  | .sortBy c _ => c.inRange
  | .filterByScalar c scalar _ => c.inRange && scalar.inRange
  | .filterByColumn a b _ | .memberFilter a b _ | .columnUnion a b _ => a.inRange && b.inRange
  | .arithmetic _ target operands _ => target.inRange && operands.all Operand.inRange
  | .project cs | .distinct cs | .count cs _ => cs.all Column.inRange
  | .columnSums cs ds | .join cs ds => cs.all Column.inRange && ds.all Column.inRange
  | .sum groups c _ | .stdDev groups c _ | .sumCount groups c _ _ | .sumSquaresCount groups c _ _ _ =>
    groups.all Column.inRange && c.inRange
  | .mean groups c _ weight => groups.all Column.inRange && c.inRange && weight.all Column.inRange
  | .variance groups total squares size _ =>
    groups.all Column.inRange && total.inRange && squares.inRange && size.inRange
  | .collect recipients => recipients.inRange
  | .closing storage => storage.inRange

def Node.inRange (n : Node) : Bool :=
  Word.holds n.id && n.op.inRange && n.rel.inRange && n.inputs.inRange && n.parents.inRange && n.children.inRange

def Plan.inRange (p : Plan) : Bool :=
  p.nodes.entries.all (fun e => Word.holds e.1 && e.2.inRange) && p.roots.inRange && Word.holds p.nextId

-- ---------------------------------------------------------------------------
-- JSON forms
-- ---------------------------------------------------------------------------

theorem mapM_map_of_some {α β : Type} {encode : α → β} {decode : β → Option α} {l : List α}
    (h : ∀ a ∈ l, decode (encode a) = some a) : (l.map encode).mapM decode = some l := by
  induction l with
  | nil => rfl
  | cons a l ih =>
    have htail := ih fun b hb => h b (List.mem_cons_of_mem _ hb)
    simp [h a List.mem_cons_self, htail]

namespace Json

variable {α : Type} {depth : Nat}

/-- The value decodes to `a`, and its text is read back. -/
structure Encodes (depth : Nat) (decode : Json → Option α) (j : Json) (a : α) : Prop where
  decodes : decode j = some a
  readable : j.Readable depth

namespace Encodes

variable {decode : Json → Option α} {fields : List (String × Json)} {key : String} {j : Json}

theorem get {a : α} (h : Encodes depth decode j a) (hfield : fields.lookup key = some j) :
    (Json.obj fields).get? key decode = some a :=
  bind_of_some hfield h.decodes

theorem getOptional {a : Option α} (h : Encodes depth (nullable? decode) j a) (hfield : fields.lookup key = some j) :
    (Json.obj fields).getOptional? key decode = some a := by
  simp only [getOptional?, hfield]
  exact h.decodes

end Encodes

theorem readable_tag {tag : String} {fields : List (String × Json)} (hkeys : (fields.map Prod.fst).Nodup)
    (hfields : ∀ f ∈ fields, Readable depth f.2) : Readable (depth + 2) (Json.tag tag fields) := by
  have hobj : Readable (depth + 1) (.obj fields) := .obj hkeys hfields
  exact .obj (by simp) (by simpa using hobj)

section

variable (depth : Nat)

theorem encodes_str (s : String) : Encodes depth str? (.str s) s := ⟨rfl, .str s⟩

theorem encodes_bool (b : Bool) : Encodes depth bool? (.bool b) b := ⟨rfl, .bool b⟩

theorem encodes_nat {n : Nat} (h : Word.holds n = true) : Encodes depth nat? (.ofNat n) n := by
  have hlt : (n : Int) < Word.limit := Int.ofNat_lt.mpr (of_decide_eq_true h)
  exact ⟨by simp [nat?, ofNat, of_decide_eq_true h], .int (by omega) hlt⟩

end

theorem encodes_list {decode : Json → Option α} {encode : α → Json} {fine : α → Bool}
    (hfine : ∀ a, fine a = true → Encodes depth decode (encode a) a) {l : List α} (h : l.all fine = true) :
    Encodes (depth + 1) (listOf? decode) (ofList encode l) l := by
  have hitem : ∀ a ∈ l, Encodes depth decode (encode a) a := fun a ha => hfine a (List.all_eq_true.mp h a ha)
  constructor
  · exact bind_of_some rfl (mapM_map_of_some fun a ha => (hitem a ha).decodes)
  · refine .arr fun j hj => ?_
    obtain ⟨a, ha, rfl⟩ := List.mem_map.mp hj
    exact (hitem a ha).readable

theorem encodes_nats (depth : Nat) {l : List Nat} (h : l.all Word.holds = true) :
    Encodes (depth + 1) (listOf? nat?) (ofList ofNat l) l :=
  encodes_list (fun _ => encodes_nat depth) h

end Json

-- ---------------------------------------------------------------------------
-- Relations and operators
-- ---------------------------------------------------------------------------

section

open Json

variable (depth : Nat)

theorem IdSet.encodes {s : IdSet} (h : s.inRange = true) : Encodes (depth + 1) IdSet.ofJson? s.toJson s := by
  have hlist : Encodes (depth + 1) (listOf? nat?) s.toJson s.toList := encodes_nats depth h
  have hsame : IdSet.ofList s.toList = s := IdSet.ext fun a => IdSet.mem_ofList
  exact ⟨by simp [IdSet.ofJson?, hlist.decodes, hsame], hlist.readable⟩

theorem ColumnType.encodes (t : ColumnType) : Encodes depth ColumnType.ofJson? t.toJson t :=
  ⟨bind_of_some rfl (bind_of_some (ofName?_render t) rfl), .str _⟩

theorem Comparator.encodes (c : Comparator) : Encodes depth Comparator.ofJson? c.toJson c :=
  ⟨bind_of_some rfl (bind_of_some (ofName?_name c) rfl), .str _⟩

namespace Column

theorem encodes {c : Column} (h : c.inRange = true) : Encodes (depth + 2) ofJson? c.toJson c := by
  simp only [inRange, Bool.and_eq_true] at h
  obtain ⟨⟨hindex, htrust⟩, hplain⟩ := h
  have howner := encodes_str (depth + 1) c.owner
  have hname := encodes_str (depth + 1) c.name
  have hindex := encodes_nat (depth + 1) hindex
  have htype := c.type.encodes (depth + 1)
  have htrust := IdSet.encodes depth htrust
  have hplain := IdSet.encodes depth hplain
  constructor
  · exact bind_of_some rfl (bind_of_some (howner.get rfl) (bind_of_some (hname.get rfl) (bind_of_some (hindex.get rfl)
      (bind_of_some (htype.get rfl) (bind_of_some (htrust.get rfl) (bind_of_some (hplain.get rfl) rfl))))))
  · refine .obj (by simp) ?_
    simp [howner.readable, hname.readable, hindex.readable, htype.readable, htrust.readable, hplain.readable]

theorem encodes_list {cs : List Column} (h : cs.all inRange = true) :
    Encodes (depth + 3) (listOf? ofJson?) (ofList toJson cs) cs :=
  Json.encodes_list (fun _ => encodes depth) h

theorem encodes_option {c? : Option Column} (h : c?.all inRange = true) :
    Encodes (depth + 2) (nullable? ofJson?) (ofOption toJson c?) c? := by
  cases c? with
  | none => exact ⟨rfl, .null⟩
  | some c =>
    have hc := encodes depth h
    have hsome : nullable? ofJson? c.toJson = some <$> ofJson? c.toJson := rfl
    exact ⟨hsome.trans (by rw [hc.decodes]; rfl), hc.readable⟩

end Column

theorem Storage.encodes {st : Storage} (h : st.inRange = true) : Encodes (depth + 2) Storage.ofJson? st.toJson st := by
  have hlist : Encodes (depth + 2) (listOf? IdSet.ofJson?) st.toJson st.loci := encodes_list (fun _ => IdSet.encodes depth) h
  exact ⟨bind_of_some hlist.decodes (by rw [ofLoci_loci]; rfl), hlist.readable⟩

theorem Relation.encodes {r : Relation} (h : r.inRange = true) : Encodes (depth + 4) Relation.ofJson? r.toJson r := by
  obtain ⟨hcolumns, hstorage⟩ := Bool.and_eq_true_iff.mp h
  have hname := encodes_str (depth + 3) r.name
  have hcolumns := Column.encodes_list depth hcolumns
  have hstorage := Storage.encodes (depth + 1) hstorage
  constructor
  · exact bind_of_some rfl
      (bind_of_some (hname.get rfl) (bind_of_some (hcolumns.get rfl) (bind_of_some (hstorage.get rfl) rfl)))
  · refine .obj (by simp) ?_
    simp [hname.readable, hcolumns.readable, hstorage.readable]

theorem Scalar.encodes {s : Scalar} (h : s.inRange = true) : Encodes depth Scalar.ofJson? s.toJson s := by
  cases s with
  | float => cases h
  | int n =>
    have hbounds : -(Word.signedLimit : Int) ≤ n ∧ n < Word.signedLimit := by
      simpa [Scalar.inRange, Word.holdsSigned] using h
    exact ⟨if_pos hbounds, .int hbounds.1 (Int.lt_trans hbounds.2 (by decide))⟩

theorem Operand.encodes {o : Operand} (h : o.inRange = true) : Encodes (depth + 3) Operand.ofJson? o.toJson o := by
  cases o with
  | column c =>
    have hc := Column.encodes depth h
    have htag (j : Json) : Operand.ofJson? (.obj [("Col", j)]) = .column <$> Column.ofJson? j := rfl
    exact ⟨(htag _).trans (by rw [hc.decodes]; rfl), .obj (by simp) (by simp [hc.readable])⟩
  | scalar s =>
    have hs := Scalar.encodes (depth + 2) h
    have htag (j : Json) : Operand.ofJson? (.obj [("Scalar", j)]) = .scalar <$> Scalar.ofJson? j := rfl
    exact ⟨(htag _).trans (by rw [hs.decodes]; rfl), .obj (by simp) (by simp [hs.readable])⟩

/-- The parameters of an operator are decoded one after the other, each from the field that it was written to. -/
theorem Op.encodes {op : Op} (h : op.inRange = true) : Encodes (depth + 6) Op.ofJson? op.toJson op := by
  cases op with
  | create | opening | store | read | persist | send | shuffle | concat => exact ⟨rfl, .str _⟩
  | numRows name | index name | squareRoot name =>
    have hname := encodes_str (depth + 4) name
    exact ⟨bind_of_some rfl (bind_of_some (hname.get rfl) rfl), readable_tag (by simp) (by simp [hname.readable])⟩
  | limit n =>
    have hn := encodes_nat (depth + 4) h
    exact ⟨bind_of_some rfl (bind_of_some (hn.get rfl) rfl), readable_tag (by simp) (by simp [hn.readable])⟩
  | collect recipients =>
    have hrecipients := IdSet.encodes (depth + 3) h
    exact ⟨bind_of_some rfl (bind_of_some (hrecipients.get rfl) rfl), readable_tag (by simp) (by simp [hrecipients.readable])⟩
  | closing storage =>
    have hstorage := Storage.encodes (depth + 2) h
    exact ⟨bind_of_some rfl (bind_of_some (hstorage.get rfl) rfl), readable_tag (by simp) (by simp [hstorage.readable])⟩
  | project cs | distinct cs =>
    have hcs := Column.encodes_list (depth + 1) h
    exact ⟨bind_of_some rfl (bind_of_some (hcs.get rfl) rfl), readable_tag (by simp) (by simp [hcs.readable])⟩
  | columnSums cs ds | join cs ds =>
    obtain ⟨hcs, hds⟩ := Bool.and_eq_true_iff.mp h
    have hcs := Column.encodes_list (depth + 1) hcs
    have hds := Column.encodes_list (depth + 1) hds
    refine ⟨bind_of_some rfl ?_, readable_tag (by simp) (by simp [hcs.readable, hds.readable])⟩
    exact bind_of_some (hcs.get rfl) (bind_of_some (hds.get rfl) rfl)
  | sortBy c increasing =>
    have hc := Column.encodes (depth + 2) h
    have hflag := encodes_bool (depth + 4) increasing
    refine ⟨bind_of_some rfl ?_, readable_tag (by simp) (by simp [hc.readable, hflag.readable])⟩
    exact bind_of_some (hc.get rfl) (bind_of_some (hflag.get rfl) rfl)
  | filterByColumn c against test =>
    obtain ⟨hc, hagainst⟩ := Bool.and_eq_true_iff.mp h
    have hc := Column.encodes (depth + 2) hc
    have hagainst := Column.encodes (depth + 2) hagainst
    have htest := test.encodes (depth + 4)
    refine ⟨bind_of_some rfl ?_, readable_tag (by simp) (by simp [hc.readable, hagainst.readable, htest.readable])⟩
    exact bind_of_some (hc.get rfl) (bind_of_some (hagainst.get rfl) (bind_of_some (htest.get rfl) rfl))
  | filterByScalar c scalar test =>
    obtain ⟨hc, hscalar⟩ := Bool.and_eq_true_iff.mp h
    have hc := Column.encodes (depth + 2) hc
    have hscalar := Scalar.encodes (depth + 4) hscalar
    have htest := test.encodes (depth + 4)
    refine ⟨bind_of_some rfl ?_, readable_tag (by simp) (by simp [hc.readable, hscalar.readable, htest.readable])⟩
    exact bind_of_some (hc.get rfl) (bind_of_some (hscalar.get rfl) (bind_of_some (htest.get rfl) rfl))
  | memberFilter c member isIn =>
    obtain ⟨hc, hmember⟩ := Bool.and_eq_true_iff.mp h
    have hc := Column.encodes (depth + 2) hc
    have hmember := Column.encodes (depth + 2) hmember
    have hflag := encodes_bool (depth + 4) isIn
    refine ⟨bind_of_some rfl ?_, readable_tag (by simp) (by simp [hc.readable, hmember.readable, hflag.readable])⟩
    exact bind_of_some (hc.get rfl) (bind_of_some (hmember.get rfl) (bind_of_some (hflag.get rfl) rfl))
  | columnUnion left right name =>
    obtain ⟨hleft, hright⟩ := Bool.and_eq_true_iff.mp h
    have hleft := Column.encodes (depth + 2) hleft
    have hright := Column.encodes (depth + 2) hright
    have hname := encodes_str (depth + 4) name
    refine ⟨bind_of_some rfl ?_, readable_tag (by simp) (by simp [hleft.readable, hright.readable, hname.readable])⟩
    exact bind_of_some (hleft.get rfl) (bind_of_some (hright.get rfl) (bind_of_some (hname.get rfl) rfl))
  | arithmetic fn target operands appends =>
    obtain ⟨htarget, hoperands⟩ := Bool.and_eq_true_iff.mp h
    have htarget := Column.encodes (depth + 2) htarget
    have hoperands := encodes_list (fun _ => Operand.encodes depth) hoperands
    have hflag := encodes_bool (depth + 4) appends
    have hreadable : Readable (depth + 6) (Op.arithmetic fn target operands appends).toJson :=
      readable_tag (by simp) (by simp [htarget.readable, hoperands.readable, hflag.readable])
    cases fn with
    | multiply | divide =>
      refine ⟨bind_of_some rfl ?_, hreadable⟩
      exact bind_of_some (htarget.get rfl) (bind_of_some (hoperands.get rfl) (bind_of_some (hflag.get rfl) rfl))
  | count groups name =>
    have hgroups := Column.encodes_list (depth + 1) h
    have hname := encodes_str (depth + 4) name
    refine ⟨bind_of_some rfl ?_, readable_tag (by simp) (by simp [hgroups.readable, hname.readable])⟩
    exact bind_of_some (hgroups.get rfl) (bind_of_some (hname.get rfl) rfl)
  | sum groups c name | stdDev groups c name =>
    obtain ⟨hgroups, hc⟩ := Bool.and_eq_true_iff.mp h
    have hgroups := Column.encodes_list (depth + 1) hgroups
    have hc := Column.encodes (depth + 2) hc
    have hname := encodes_str (depth + 4) name
    refine ⟨bind_of_some rfl ?_, readable_tag (by simp) (by simp [hgroups.readable, hc.readable, hname.readable])⟩
    exact bind_of_some (hgroups.get rfl) (bind_of_some (hc.get rfl) (bind_of_some (hname.get rfl) rfl))
  | mean groups c name weight =>
    simp only [Op.inRange, Bool.and_eq_true] at h
    obtain ⟨⟨hgroups, hc⟩, hweight⟩ := h
    have hgroups := Column.encodes_list (depth + 1) hgroups
    have hc := Column.encodes (depth + 2) hc
    have hname := encodes_str (depth + 4) name
    have hweight := Column.encodes_option (depth + 2) hweight
    refine ⟨bind_of_some rfl ?_, readable_tag (by simp) ?_⟩
    · exact bind_of_some (hgroups.get rfl) (bind_of_some (hc.get rfl) (bind_of_some (hname.get rfl)
        (bind_of_some (hweight.getOptional rfl) rfl)))
    · simp [hgroups.readable, hc.readable, hname.readable, hweight.readable]
  | sumCount groups c sumName countName =>
    obtain ⟨hgroups, hc⟩ := Bool.and_eq_true_iff.mp h
    have hgroups := Column.encodes_list (depth + 1) hgroups
    have hc := Column.encodes (depth + 2) hc
    have hsum := encodes_str (depth + 4) sumName
    have hcount := encodes_str (depth + 4) countName
    refine ⟨bind_of_some rfl ?_, readable_tag (by simp) ?_⟩
    · exact bind_of_some (hgroups.get rfl) (bind_of_some (hc.get rfl) (bind_of_some (hsum.get rfl)
        (bind_of_some (hcount.get rfl) rfl)))
    · simp [hgroups.readable, hc.readable, hsum.readable, hcount.readable]
  | sumSquaresCount groups c sumName squaresName countName =>
    obtain ⟨hgroups, hc⟩ := Bool.and_eq_true_iff.mp h
    have hgroups := Column.encodes_list (depth + 1) hgroups
    have hc := Column.encodes (depth + 2) hc
    have hsum := encodes_str (depth + 4) sumName
    have hsquares := encodes_str (depth + 4) squaresName
    have hcount := encodes_str (depth + 4) countName
    refine ⟨bind_of_some rfl ?_, readable_tag (by simp) ?_⟩
    · exact bind_of_some (hgroups.get rfl) (bind_of_some (hc.get rfl) (bind_of_some (hsum.get rfl)
        (bind_of_some (hsquares.get rfl) (bind_of_some (hcount.get rfl) rfl))))
    · simp [hgroups.readable, hc.readable, hsum.readable, hsquares.readable, hcount.readable]
  | variance groups total squares size name =>
    simp only [Op.inRange, Bool.and_eq_true] at h
    obtain ⟨⟨⟨hgroups, htotal⟩, hsquares⟩, hsize⟩ := h
    have hgroups := Column.encodes_list (depth + 1) hgroups
    have htotal := Column.encodes (depth + 2) htotal
    have hsquares := Column.encodes (depth + 2) hsquares
    have hsize := Column.encodes (depth + 2) hsize
    have hname := encodes_str (depth + 4) name
    refine ⟨bind_of_some rfl ?_, readable_tag (by simp) ?_⟩
    · exact bind_of_some (hgroups.get rfl) (bind_of_some (htotal.get rfl) (bind_of_some (hsquares.get rfl)
        (bind_of_some (hsize.get rfl) (bind_of_some (hname.get rfl) rfl))))
    · simp [hgroups.readable, htotal.readable, hsquares.readable, hsize.readable, hname.readable]

theorem Inputs.encodes {inputs : Inputs} (h : inputs.inRange = true) :
    Encodes (depth + 2) Inputs.ofJson? inputs.toJson inputs := by
  cases inputs with
  | none => exact ⟨rfl, .str _⟩
  | unary input =>
    have hinput : Encodes (depth + 1) nat? (.ofNat input) input := encodes_nat _ (by simpa [Inputs.inRange, Inputs.ids] using h)
    exact ⟨bind_of_some rfl (bind_of_some hinput.decodes rfl), .obj (by simp) (by simp [hinput.readable])⟩
  | binary left right =>
    simp only [Inputs.inRange, Inputs.ids, List.all_cons, List.all_nil, Bool.and_true, Bool.and_eq_true] at h
    have hleft := encodes_nat depth h.1
    have hright := encodes_nat depth h.2
    refine ⟨bind_of_some rfl ?_, readable_tag (by simp) (by simp [hleft.readable, hright.readable])⟩
    exact bind_of_some (hleft.get rfl) (bind_of_some (hright.get rfl) rfl)
  | nary inputs =>
    have hinputs : Encodes (depth + 1) (listOf? nat?) (ofList ofNat inputs) inputs := encodes_nats depth h
    exact ⟨bind_of_some rfl (bind_of_some hinputs.decodes rfl), .obj (by simp) (by simp [hinputs.readable])⟩

theorem Node.encodes {n : Node} (h : n.inRange = true) : Encodes (depth + 7) Node.ofJson? n.toJson n := by
  simp only [Node.inRange, Bool.and_eq_true] at h
  obtain ⟨⟨⟨⟨⟨hid, hop⟩, hrel⟩, hinputs⟩, hparents⟩, hchildren⟩ := h
  have hid := encodes_nat (depth + 6) hid
  have hop := Op.encodes depth hop
  have hrel := Relation.encodes (depth + 2) hrel
  have hinputs := Inputs.encodes (depth + 4) hinputs
  have hparents := IdSet.encodes (depth + 5) hparents
  have hchildren := IdSet.encodes (depth + 5) hchildren
  constructor
  · exact bind_of_some rfl (bind_of_some (hid.get rfl) (bind_of_some (hop.get rfl) (bind_of_some (hrel.get rfl)
      (bind_of_some (hinputs.get rfl) (bind_of_some (hparents.get rfl) (bind_of_some (hchildren.get rfl) rfl))))))
  · refine .obj (by simp) ?_
    simp [hid.readable, hop.readable, hrel.readable, hinputs.readable, hparents.readable, hchildren.readable]

end

-- ---------------------------------------------------------------------------
-- Plans
-- ---------------------------------------------------------------------------

namespace IdMap

variable {α : Type}

/-- Entries with different keys do not get in each other's way. -/
theorem get?_foldl_insert {l : List (Nat × α)} (h : (l.map Prod.fst).Pairwise (· < ·)) (m : IdMap α) (k : Nat) :
    (l.foldl (fun m e => m.insert e.1 e.2) m).get? k = (l.lookup k).or (m.get? k) := by
  induction l generalizing m with
  | nil => rfl
  | cons e l ih =>
    have he := List.pairwise_cons.mp h
    rw [List.foldl_cons, ih he.2, get?_insert, lookup_cons_ite]
    by_cases hk : k = e.1
    · subst hk
      have hnone : l.lookup e.1 = none := lookup_eq_none_of_not_mem fun hmem => Nat.lt_irrefl _ (he.1 e.1 hmem)
      simp [hnone]
    · simp [hk]

theorem ofList_entries (m : IdMap α) : ofList m.entries = m := by
  ext k
  rw [ofList, get?_foldl_insert m.ascending, get?_empty, Option.or_none]
  rfl

end IdMap

namespace NodeId

variable {id : NodeId}

theorem ofKey?_toString (h : Word.holds id = true) : ofKey? (toString id) = some id := by
  have hdigits : (Nat.toDigits 10 id).all Char.isDigit = true :=
    List.all_eq_true.mpr fun c hc => Decimal.isDigit_of_mem hc
  have hzero : ¬((Nat.toDigits 10 id).head? = some '0' ∧ (Nat.toDigits 10 id).length ≠ 1) := by
    rintro ⟨hhead, hlength⟩
    rw [Decimal.eq_zero_of_head? hhead] at hlength
    exact hlength rfl
  have hlimit : id < Word.limit := of_decide_eq_true h
  simp [ofKey?, hdigits, hzero, Decimal.foldl_toDigits, hlimit, Nat.toDigits_ne_nil]

end NodeId

namespace Plan

open Json

theorem encodes_nodes (depth : Nat) {m : IdMap Node} (h : m.entries.all (fun e => Word.holds e.1 && e.2.inRange) = true) :
    Encodes (depth + 8) nodesOfJson? (.obj (m.entries.map fun (id, n) => (toString id, n.toJson))) m := by
  have hentry : ∀ e ∈ m.entries, Word.holds e.1 = true ∧ Encodes (depth + 7) Node.ofJson? e.2.toJson e.2 := by
    intro e he
    obtain ⟨hid, hn⟩ := Bool.and_eq_true_iff.mp (List.all_eq_true.mp h e he)
    exact ⟨hid, Node.encodes depth hn⟩
  constructor
  · have hdecode : ∀ e ∈ m.entries,
        (do return (← NodeId.ofKey? (toString e.1), ← Node.ofJson? e.2.toJson) : Option (NodeId × Node)) = some e :=
      fun e he => bind_of_some (NodeId.ofKey?_toString (hentry e he).1) (bind_of_some (hentry e he).2.decodes rfl)
    exact bind_of_some (mapM_map_of_some hdecode) (congrArg some m.ofList_entries)
  · refine .obj ?_ fun f hf => ?_
    · -- Different numbers have different keys, as each key is read back.
      have hkeys : (m.entries.map fun e => toString e.1).Nodup := by
        refine List.Nodup.of_map NodeId.ofKey? ?_
        have hread : (m.entries.map fun e => toString e.1).map NodeId.ofKey? = m.keys.map some := by
          rw [List.map_map, IdMap.keys, List.map_map]
          exact List.map_congr_left fun e he => NodeId.ofKey?_toString (hentry e he).1
        rw [hread]
        exact (m.ascending.imp Nat.ne_of_lt).map some fun _ _ hne heq => hne (Option.some.inj heq)
      rw [List.map_map]
      exact hkeys
    · obtain ⟨e, he, rfl⟩ := List.mem_map.mp hf
      exact (hentry e he).2.readable

theorem encodes (depth : Nat) {p : Plan} (h : p.inRange = true) : Encodes (depth + 9) ofJson? p.toJson p := by
  simp only [inRange, Bool.and_eq_true] at h
  obtain ⟨⟨hnodes, hroots⟩, hnext⟩ := h
  have hnodes := encodes_nodes depth hnodes
  have hroots := IdSet.encodes (depth + 7) hroots
  have hnext := encodes_nat (depth + 8) hnext
  constructor
  · exact bind_of_some rfl (bind_of_some (hnodes.get rfl) (bind_of_some (hroots.get rfl) (bind_of_some (hnext.get rfl) rfl)))
  · refine .obj (by simp) ?_
    simp only [List.mem_cons, List.not_mem_nil, or_false, forall_eq_or_imp, forall_eq]
    exact ⟨hnodes.readable, hroots.readable, hnext.readable⟩

/-- The nodes in topological order are those that can be reached. -/
theorem mem_topNodes {p : Plan} {ns : List Node} {n : Node} (h : p.topNodes = .ok ns) :
    n ∈ ns ↔ ∃ k ∈ p.reachable, p.nodes.get? k = some n := by
  obtain ⟨order, horder, hns⟩ := bind_eq_ok.mp h
  have hnodes := mapM_eq_ok.mp hns
  have horder (k : NodeId) (hk : p.nodes.get? k = some n) : k ∈ order ↔ k ∈ p.reachable := by
    have hcontains : p.contains k = true := by simp [contains, IdMap.contains, hk]
    exact (mem_of_topSortFrom horder).trans ((and_iff_right hcontains).trans (mem_reachableFrom hcontains).symm)
  constructor
  · intro hn
    obtain ⟨k, hk, hnode⟩ := exists_of_forall₂ hnodes hn
    rw [node_eq_ok] at hnode
    exact ⟨k, (horder k hnode).mp hk, hnode⟩
  · rintro ⟨k, hk, hnode⟩
    obtain ⟨m, hm, hnode'⟩ := exists_of_forall₂ hnodes.flip ((horder k hnode).mpr hk)
    rw [node_eq_ok.mpr hnode] at hnode'
    cases hnode'
    exact hm

theorem inRange_of_topNodes {p : Plan} {ns : List Node} (hp : p.inRange = true) (h : p.topNodes = .ok ns) :
    ns.all Node.inRange = true := by
  simp only [inRange, Bool.and_eq_true] at hp
  refine List.all_eq_true.mpr fun n hn => ?_
  obtain ⟨k, -, hk⟩ := (mem_topNodes h).mp hn
  exact (Bool.and_eq_true_iff.mp (List.all_eq_true.mp hp.1.1 _ (IdMap.mem_entries_iff.mpr hk))).2

theorem encodes_topNodes {p : Plan} {ns : List Node} (hp : p.inRange = true) (h : p.topNodes = .ok ns) :
    Encodes Parser.maxDepth (listOf? Node.ofJson?) (ofList Node.toJson ns) ns :=
  encodes_list (fun _ => Node.encodes 119) (inRange_of_topNodes hp h)

end Plan

-- ---------------------------------------------------------------------------
-- Storage
-- ---------------------------------------------------------------------------

theorem Json.listOf?_map {α β : Type} (f : α → β) (decode : Json → Option α) (j : Json) :
    j.listOf? (fun i => f <$> decode i) = List.map f <$> j.listOf? decode := by
  have hitems (items : List Json) : items.mapM (fun i => f <$> decode i) = List.map f <$> items.mapM decode := by
    induction items with
    | nil => rfl
    | cons i items ih =>
      rw [List.mapM_cons, List.mapM_cons, ih]
      cases decode i <;> cases items.mapM decode <;> rfl
  cases j with
  | arr items => exact hitems items
  | _ => rfl

namespace Storage

open Json

variable {j : Json} {st : Storage} {loci : List PartySet}

theorem ofLoci_eq_ok : ofLoci loci = .ok st ↔ loci = st.loci := by
  constructor
  · unfold ofLoci
    split_ifs with hnone hinhabited heven
    · simp
    · intro h
      cases h
      rfl
    all_goals simp
  · rintro rfl
    exact ofLoci_loci

theorem ofJson?_eq_some_iff :
    ofJson? j = some st ↔ ∃ rows, j.listOf? (listOf? nat?) = some rows ∧ rows.map IdSet.ofList = st.loci := by
  have hsets : j.listOf? IdSet.ofJson? = List.map IdSet.ofList <$> j.listOf? (listOf? nat?) := listOf?_map ..
  have hoption (loci : List PartySet) : (ofLoci loci).toOption = some st ↔ loci = st.loci := by
    rw [← ofLoci_eq_ok]
    cases ofLoci loci <;> simp [Except.toOption]
  simp [ofJson?, hsets, Option.bind_eq_some_iff, hoption]

/-- The lists of words that say where the rows are kept. -/
theorem exists_ofJson?_iff : (∃ st, ofJson? j = some st) ↔ ∃ rows : List (List Nat),
    j.listOf? (listOf? nat?) = some rows ∧ rows ≠ [] ∧ (∀ row ∈ rows, row ≠ []) ∧
      ∀ row ∈ rows, ∀ row' ∈ rows, (IdSet.ofList row).size = (IdSet.ofList row').size := by
  have hempty (row : List Nat) : IdSet.ofList row ≠ ∅ ↔ row ≠ [] := by
    cases row with
    | nil => exact iff_of_false (fun h => h rfl) (fun h => h rfl)
    | cons a row => exact iff_of_true (IdSet.ne_empty_of_mem (IdSet.mem_ofList.mpr List.mem_cons_self)) (List.cons_ne_nil a row)
  constructor
  · rintro ⟨st, hst⟩
    obtain ⟨rows, hrows, hloci⟩ := ofJson?_eq_some_iff.mp hst
    refine ⟨rows, hrows, ?_, fun row hrow => ?_, fun row hrow row' hrow' => ?_⟩
    · rintro rfl
      exact st.nonempty hloci.symm
    · exact (hempty row).mp (st.inhabited _ (hloci ▸ List.mem_map_of_mem hrow))
    · exact st.even _ (hloci ▸ List.mem_map_of_mem hrow) _ (hloci ▸ List.mem_map_of_mem hrow')
  · rintro ⟨rows, hrows, hne, hinhabited, heven⟩
    refine ⟨⟨rows.map IdSet.ofList, by simpa using hne, ?_, ?_⟩, ofJson?_eq_some_iff.mpr ⟨rows, hrows, rfl⟩⟩
    · simpa [hempty] using hinhabited
    · simpa using heven

end Storage

-- ---------------------------------------------------------------------------
-- Reading back
-- ---------------------------------------------------------------------------

namespace Json.Encodes

variable {α : Type} {decode : Json → Option α} {i j : Json} {a b : α}

theorem read (h : Encodes Parser.maxDepth decode j a) : (parse? j.render >>= decode) = some a :=
  bind_of_some h.readable.parse?_render h.decodes

/-- A text stands for one value. -/
theorem unique (ha : Encodes Parser.maxDepth decode i a) (hb : Encodes Parser.maxDepth decode j b) (h : i.render = j.render) :
    a = b := by
  have hread := ha.read
  rw [h, hb.read] at hread
  exact (Option.some.inj hread).symm

end Json.Encodes

namespace Plan

open Json

/-- What is read from the text of a plan is the plan, and so has its fingerprint. Plans with the same text
of their nodes have the same nodes that can be reached. A storage is read from lists of words if and only if there is
a list, none is empty and all name the same number of parties. -/
theorem readBack {p : Plan} (hp : p.inRange = true) :
    (parse? p.toJson.render >>= ofJson?) = some p ∧
    fingerprint <$> (parse? p.toJson.render >>= ofJson?) = some p.fingerprint ∧
    (∀ (q : Plan) (ns ms : List Node), q.inRange = true → p.topNodes = .ok ns → q.topNodes = .ok ms →
      (ofList Node.toJson ns).render = (ofList Node.toJson ms).render →
      ns = ms ∧ ∀ n, (∃ k ∈ p.reachable, p.nodes.get? k = some n) ↔ ∃ k ∈ q.reachable, q.nodes.get? k = some n) ∧
    ∀ j : Json, (∃ st, Storage.ofJson? j = some st) ↔ ∃ rows : List (List Nat),
      j.listOf? (listOf? nat?) = some rows ∧ rows ≠ [] ∧ (∀ row ∈ rows, row ≠ []) ∧
        ∀ row ∈ rows, ∀ row' ∈ rows, (IdSet.ofList row).size = (IdSet.ofList row').size := by
  have hread : (parse? p.toJson.render >>= ofJson?) = some p := (encodes 118 hp).read
  refine ⟨hread, by rw [hread]; rfl, fun q ns ms hq hns hms htext => ?_, fun j => Storage.exists_ofJson?_iff⟩
  have hsame : ns = ms := (encodes_topNodes hp hns).unique (encodes_topNodes hq hms) htext
  refine ⟨hsame, fun n => ?_⟩
  rw [← mem_topNodes hns, ← mem_topNodes hms, hsame]

section Instance

-- The names need escapes, and the numbers are the last ones that words can hold.

def amount : Column :=
  { owner := "in", name := "tab\t\"é\"", index := 0, type := .integer, trust := .singleton 1, plain := ∅ }

def quotient : Column :=
  { owner := "zero\x00", name := "a\\b\n", index := Word.limit - 1, type := .float, trust := .singleton 1, plain := ∅ }

def betweenTwo : Storage := .among 1 [Word.limit - 1]

def source : Node where
  id := 0
  op := .create
  rel := ⟨"in", [amount], betweenTwo⟩
  inputs := .none
  parents := ∅
  children := .singleton (Word.limit - 1)

def divided : Node where
  id := Word.limit - 1
  op := .arithmetic .divide quotient [.column amount, .scalar (.int (-Word.signedLimit))] true
  rel := ⟨"zero\x00", [amount, quotient], betweenTwo⟩
  inputs := .unary 0
  parents := .singleton 0
  children := ∅

def dividedByLeast : Plan := ⟨.ofList [(0, source), (Word.limit - 1, divided)], .singleton 0, 1⟩

/-- The same with a node that nothing leads to. -/
def withStray : Plan := ⟨.ofList [(0, source), (7, source), (Word.limit - 1, divided)], .singleton 0, 8⟩

theorem readBack_dividedByLeast : dividedByLeast.inRange = true ∧ withStray.inRange = true ∧ withStray ≠ dividedByLeast ∧
    (parse? dividedByLeast.toJson.render >>= ofJson?) = some dividedByLeast ∧
    (∀ n, (∃ k ∈ dividedByLeast.reachable, dividedByLeast.nodes.get? k = some n) ↔
      ∃ k ∈ withStray.reachable, withStray.nodes.get? k = some n) ∧
    (∃ st, Storage.ofJson? (.arr [.arr [.int 2, .int 2], .arr [.int 1]]) = some st) ∧
    ¬∃ st, Storage.ofJson? (.arr [.arr [.int 2, .int 3], .arr [.int 1]]) = some st := by
  have hrange : dividedByLeast.inRange = true := by decide +kernel
  have hrange' : withStray.inRange = true := by decide +kernel
  have hnodes : dividedByLeast.topNodes = .ok [source, divided] := by cbv
  have hnodes' : withStray.topNodes = .ok [source, divided] := by cbv
  obtain ⟨hread, -, hsame, hstorage⟩ := readBack hrange
  refine ⟨hrange, hrange', by decide +kernel, hread, (hsame withStray _ _ hrange' hnodes hnodes' rfl).2, ?_, ?_⟩
  · exact (hstorage _).mpr ⟨[[2, 2], [1]], by cbv, by decide⟩
  · intro hdecodes
    obtain ⟨rows, hrows, -, -, heven⟩ := (hstorage _).mp hdecodes
    obtain rfl : [[2, 3], [1]] = rows := Option.some.inj ((by cbv : _ = some [[2, 3], [1]]).symm.trans hrows)
    exact absurd (heven [2, 3] (by decide) [1] (by decide)) (by decide)

end Instance

end Plan

end JointPlan
