import JointPlan.Json.Parser
import JointPlan.Json.Printer
import Mathlib.Tactic

/-!
# Reading back JSON text

The reader takes the text of a value for that value, whatever follows it. A number is the only
value whose end shows in what follows, so the rest of the text must not go on like a number
(`Parser.Ends`).

Not every value is read back. A double may come out next to itself, a whole number
beyond 64 bits comes out as a double, of two fields with one key only the later one is kept, and lists
and objects can be nested too deep. `Json.Readable` leaves these out.
-/

namespace JointPlan

/-- One more step of reading. -/
theorem bind_of_some {α β : Type} {x : Option α} {f : α → Option β} {a : α} {y : Option β} (hx : x = some a) (hf : f a = y) :
    (x >>= f) = y := by
  rw [hx]
  exact hf

-- ---------------------------------------------------------------------------
-- Decimal digits
-- ---------------------------------------------------------------------------

namespace Decimal

variable {n : Nat}

theorem isDigit_of_mem {c : Char} (h : c ∈ Nat.toDigits 10 n) : c.isDigit = true :=
  Nat.isDigit_of_mem_toDigits (by decide) (by decide) h

theorem toNat_of_isDigit {c : Char} (h : c.isDigit = true) : 48 ≤ c.toNat ∧ c.toNat ≤ 57 := by
  simpa [Char.isDigit, UInt32.le_iff_toNat_le] using h

theorem mem_of_isDigit {c : Char} (h : c.isDigit = true) : c ∈ ['0', '1', '2', '3', '4', '5', '6', '7', '8', '9'] := by
  obtain ⟨hmin, hmax⟩ := toNat_of_isDigit h
  rw [← Char.ofNat_toNat c]
  interval_cases c.toNat <;> decide

/-- Only zero begins with a zero. -/
theorem eq_zero_of_head? (h : (Nat.toDigits 10 n).head? = some '0') : n = 0 := by
  induction n using Nat.strongRecOn with
  | _ n ih =>
    rw [Nat.toDigits_eq_if (by decide)] at h
    split at h
    · rename_i hn
      interval_cases n <;> first | rfl | exact absurd h (by decide)
    · rw [List.head?_append_of_ne_nil _ Nat.toDigits_ne_nil] at h
      have := ih (n / 10) (by omega) h
      omega

/-- The digits stand for the number. -/
theorem foldl_toDigits : (Nat.toDigits 10 n).foldl (fun n c => 10 * n + (c.toNat - 48)) 0 = n :=
  Nat.ofDigitChars_eq_foldl.symm.trans Nat.ofDigitChars_ten_toDigits

theorem toList_toString (n : Int) :
    (toString n).toList = (if n < 0 then ['-'] else []) ++ Nat.toDigits 10 n.natAbs := by
  cases n with
  | ofNat n => simp [toString, Int.repr, Nat.repr]
  | negSucc n => simp [toString, Int.repr, Nat.repr, Int.negSucc_lt_zero]

/-- A number begins with a digit or with its sign. -/
theorem exists_head_toString (n : Int) : ∃ c cs, (toString n).toList = c :: cs ∧ (c = '-' ∨ c.isDigit = true) := by
  rw [toList_toString]
  obtain ⟨c, cs, hcs⟩ := List.exists_cons_of_ne_nil (Nat.toDigits_ne_nil (b := 10) (n := n.natAbs))
  split
  · exact ⟨_, _, rfl, .inl rfl⟩
  · exact ⟨c, cs, hcs, .inr (isDigit_of_mem (n := n.natAbs) (by simp [hcs]))⟩

end Decimal

namespace Json

namespace Parser

variable {cs rest ds : List Char}

/-- A text that does not go on like a number. -/
def Ends (rest : List Char) : Prop := ∀ c ∈ rest.head?, c.isDigit = false ∧ c ≠ '.' ∧ c ≠ 'e' ∧ c ≠ 'E'

theorem Ends.nil : Ends [] := by simp [Ends]

theorem Ends.cons {c : Char} (h : c.isDigit = false ∧ c ≠ '.' ∧ c ≠ 'e' ∧ c ≠ 'E') : Ends (c :: rest) := by
  simpa [Ends] using h

theorem digitsOf_append (hds : ∀ c ∈ ds, c.isDigit = true) (hrest : Ends rest) :
    digitsOf (ds ++ rest) = (ds.map fun c => c.toNat - 48, rest) := by
  have hstop : rest.takeWhile Char.isDigit = [] ∧ rest.dropWhile Char.isDigit = rest := by
    cases rest with
    | nil => exact ⟨rfl, rfl⟩
    | cons c rest => simp [(hrest c rfl).1]
  rw [digitsOf, List.takeWhile_append_of_pos hds, List.dropWhile_append_of_pos hds, hstop.1, hstop.2, List.append_nil]

theorem fraction?_of_ends (h : Ends rest) : fraction? rest = some ([], rest) := by
  cases rest with
  | nil => rfl
  | cons c rest =>
    unfold fraction?
    split
    · rename_i heq
      cases heq
      exact absurd rfl (h '.' rfl).2.1
    · rfl

theorem exponent?_of_ends (h : Ends rest) : exponent? rest = some (none, rest) := by
  cases rest with
  | nil => rfl
  | cons c rest =>
    have hc := h c rfl
    simp [exponent?, hc.2.2.1, hc.2.2.2]

/-- The digits are taken as they are: there is one, and no further one follows a zero. -/
theorem whole_toDigits (n : Nat) : ∃ d ds, (Nat.toDigits 10 n).map (fun c => c.toNat - 48) = d :: ds ∧ (d = 0 → ds = []) := by
  cases hds : Nat.toDigits 10 n with
  | nil => exact absurd hds Nat.toDigits_ne_nil
  | cons c cs =>
    refine ⟨_, _, rfl, fun hzero => ?_⟩
    have hdigit : c.isDigit = true := Decimal.isDigit_of_mem (n := n) (by simp [hds])
    have hc : c = '0' :=
      Char.toNat_inj.mp (Nat.le_antisymm (Nat.sub_eq_zero_iff_le.mp hzero) (Decimal.toNat_of_isDigit hdigit).1)
    have hn : n = 0 := Decimal.eq_zero_of_head? (by rw [hds, hc]; rfl)
    subst hn
    cases hds
    rfl

/-- The digits of a number, with what a sign before them says. -/
theorem number?_digits (negative : Bool) (n : Nat) (hrest : Ends rest) :
    number? ((if negative then ['-'] else []) ++ (Nat.toDigits 10 n ++ rest)) = (fun j => (j, rest)) <$> Literal.toJson?
      { negative, whole := (Nat.toDigits 10 n).map fun c => c.toNat - 48, fraction := [], exponent := none } := by
  have hdigits : digitsOf (Nat.toDigits 10 n ++ rest) = _ := digitsOf_append (fun c hc => Decimal.isDigit_of_mem hc) hrest
  obtain ⟨d, ds, hwhole, hzero⟩ := whole_toDigits n
  -- No digit is a sign, so none is taken for one.
  have hsign : ∀ cs, Nat.toDigits 10 n ++ rest ≠ '-' :: cs := by
    intro cs h
    obtain ⟨c, ds, hds⟩ := List.exists_cons_of_ne_nil (Nat.toDigits_ne_nil (b := 10) (n := n))
    rw [hds] at h
    cases h
    have hminus : '-' ∈ Nat.toDigits 10 n := by simp [hds]
    exact absurd (Decimal.isDigit_of_mem hminus) (by decide)
  unfold number?
  cases negative
  all_goals
    simp only [Bool.false_eq_true, if_false, if_true, List.nil_append, List.singleton_append]
    split
    · rename_i h
      simp [hdigits, hwhole] at h
    · rename_i h
      simp only [hdigits, hwhole, Prod.mk.injEq, List.cons.injEq] at h
      simp [hzero h.1.1] at h
    · simp [hdigits, fraction?_of_ends hrest, exponent?_of_ends hrest, Option.map_eq_bind]

/-- Every whole number of 64 bits is read back. -/
theorem number?_toString {n : Int} (hmin : -(Word.signedLimit : Int) ≤ n) (hmax : n < Word.limit) (hrest : Ends rest) :
    number? ((toString n).toList ++ rest) = some (.int n, rest) := by
  have hvalue (m : Nat) :
      ((Nat.toDigits 10 m).map fun c => c.toNat - 48).foldl (fun n d => 10 * n + d) 0 = m := by
    rw [List.foldl_map]
    exact Decimal.foldl_toDigits
  have hread := number?_digits (n < 0) n.natAbs hrest
  simp only [decide_eq_true_eq] at hread
  rw [Decimal.toList_toString, List.append_assoc, hread]
  by_cases hneg : n < 0
  · have hpos : 0 < n.natAbs := by omega
    have hle : n.natAbs ≤ Word.signedLimit := by omega
    have hn : -|n| = n := by rw [abs_of_neg hneg, neg_neg]
    simp [Literal.toJson?, hvalue, hneg, hpos, hle, hn]
  · have hlt : n.natAbs < Word.limit := by omega
    have hn : |n| = n := abs_of_nonneg (Int.not_lt.mp hneg)
    simp [Literal.toJson?, hvalue, hneg, hlt, hn]

-- ---------------------------------------------------------------------------
-- Strings
-- ---------------------------------------------------------------------------

theorem hexValue?_hexDigit {n : Nat} (h : n < 16) : hexValue? (hexDigit n) = some n := by
  interval_cases n <;> decide

/-- One character is read back from the way it is written. -/
theorem string?_escape (steps : Nat) (acc : List Char) (c : Char) :
    string? (steps + 1) acc ((escape c).toList ++ cs) = string? steps (c :: acc) cs := by
  unfold escape
  split_ifs with hquote hback hline hreturn htab hbell hfeed hcontrol
  · subst hquote; simp [string?, escape?]
  · subst hback; simp [string?, escape?]
  · subst hline; simp [string?, escape?]
  · subst hreturn; simp [string?, escape?]
  · subst htab; simp [string?, escape?]
  · obtain rfl : Char.ofNat 8 = c := hbell ▸ Char.ofNat_toNat c
    simp [string?, escape?]
  · obtain rfl : Char.ofNat 12 = c := hfeed ▸ Char.ofNat_toNat c
    simp [string?, escape?]
  · have hlow := hexValue?_hexDigit (Nat.mod_lt c.toNat (by decide : 0 < 16))
    have hhigh := hexValue?_hexDigit (n := c.toNat / 16) (by omega)
    have hzero : hexValue? '0' = some 0 := rfl
    have hvalue : c.toNat / 16 * 16 + c.toNat % 16 = c.toNat := by omega
    have hplain : ¬0xD800 ≤ c.toNat ∧ ¬0xDC00 ≤ c.toNat := by omega
    simp [string?, escape?, unicodeEscape?, hex4?, hlow, hhigh, hzero, hvalue, hplain]
  · simp [string?, hquote, hback, hcontrol]

/-- The characters of a string in quotes, after the first quote. -/
def quoted (s : List Char) : List Char := s.flatMap (fun c => (escape c).toList) ++ ['"']

theorem toList_quote (s : String) : (quote s).toList = '"' :: quoted s.toList := by
  simp [quote, quoted, String.toList_join, List.flatMap_map]

theorem string?_quoted {steps : Nat} {acc s : List Char} (hsteps : s.length < steps) :
    string? steps acc (quoted s ++ rest) = some (String.ofList (acc.reverse ++ s), rest) := by
  induction s generalizing steps acc with
  | nil =>
    obtain ⟨steps, rfl⟩ := Nat.exists_eq_add_one_of_ne_zero (Nat.ne_zero_of_lt hsteps)
    simp [quoted, string?]
  | cons c s ih =>
    obtain ⟨steps, rfl⟩ := Nat.exists_eq_add_one_of_ne_zero (Nat.ne_zero_of_lt hsteps)
    have htext : quoted (c :: s) ++ rest = (escape c).toList ++ (quoted s ++ rest) := by simp [quoted]
    rw [htext, string?_escape, ih (Nat.lt_of_succ_lt_succ hsteps), List.reverse_cons, List.append_assoc]
    rfl

theorem length_escape_pos (c : Char) : 0 < (escape c).toList.length := by
  unfold escape
  split_ifs <;> simp

/-- A string is written with at least its own characters and a quote. -/
theorem length_lt_quoted (s : List Char) : s.length < (quoted s).length := by
  induction s with
  | nil => simp [quoted]
  | cons c s ih =>
    have hc := length_escape_pos c
    simp only [quoted, List.flatMap_cons, List.length_append, List.length_cons, List.length_nil] at ih ⊢
    omega

theorem string?_toList {steps : Nat} {s : String} (hsteps : (quoted s.toList).length ≤ steps) :
    string? steps [] (quoted s.toList ++ rest) = some (s, rest) := by
  rw [string?_quoted (Nat.lt_of_lt_of_le (length_lt_quoted _) hsteps)]
  simp

end Parser

-- ---------------------------------------------------------------------------
-- Values
-- ---------------------------------------------------------------------------

/-- Values that are read back: no doubles, whole numbers of 64 bits, no key twice in an object, and
lists and objects at most `depth` deep. -/
inductive Readable : Nat → Json → Prop
  | null {depth : Nat} : Readable depth .null
  | bool {depth : Nat} (b : Bool) : Readable depth (.bool b)
  | int {depth : Nat} {n : Int} : -(Word.signedLimit : Int) ≤ n → n < Word.limit → Readable depth (.int n)
  | str {depth : Nat} (s : String) : Readable depth (.str s)
  | arr {depth : Nat} {items : List Json} : (∀ j ∈ items, Readable depth j) → Readable (depth + 1) (.arr items)
  | obj {depth : Nat} {fields : List (String × Json)} :
    (fields.map Prod.fst).Nodup → (∀ f ∈ fields, Readable depth f.2) → Readable (depth + 1) (.obj fields)

-- ---------------------------------------------------------------------------
-- The characters of a value
-- ---------------------------------------------------------------------------

def text (j : Json) : List Char := j.render.toList

theorem text_null : text .null = ['n', 'u', 'l', 'l'] := rfl

theorem text_true : text (.bool true) = ['t', 'r', 'u', 'e'] := rfl

theorem text_false : text (.bool false) = ['f', 'a', 'l', 's', 'e'] := rfl

theorem text_int (n : Int) : text (.int n) = (toString n).toList := rfl

theorem text_str (s : String) : text (.str s) = '"' :: Parser.quoted s.toList := Parser.toList_quote s

/-- What is written for one field of an object. -/
def fieldText (f : String × Json) : List Char := '"' :: (Parser.quoted f.1.toList ++ ':' :: f.2.text)

/-- What follows the first part of a list or an object: further parts, each after a comma, and the bracket. -/
def followed (close : Char) (parts : List (List Char)) : List Char := parts.flatMap (',' :: ·) ++ [close]

@[simp] theorem followed_nil (close : Char) : followed close [] = [close] := rfl

@[simp] theorem followed_cons (close : Char) (part : List Char) (parts : List (List Char)) :
    followed close (part :: parts) = ',' :: (part ++ followed close parts) := by
  simp [followed]

theorem renderItems_eq (items : List Json) : renderItems items = (items.map text).map String.ofList := by
  induction items with
  | nil => rfl
  | cons j items ih =>
    have hj : j.render = String.ofList j.text := String.ofList_toList.symm
    exact congrArg₂ List.cons hj ih

theorem renderFields_eq (fields : List (String × Json)) :
    renderFields fields = (fields.map fieldText).map String.ofList := by
  induction fields with
  | nil => rfl
  | cons f fields ih =>
    have hfield : quote f.1 ++ ":" ++ f.2.render = String.ofList (fieldText f) := by
      rw [← String.toList_inj]
      simp [fieldText, text, Parser.toList_quote]
    exact congrArg₂ List.cons hfield ih

theorem intercalate_followed (close : Char) (part : List Char) (parts : List (List Char)) :
    (String.intercalate "," ((part :: parts).map String.ofList)).toList ++ [close] = part ++ followed close parts := by
  induction parts generalizing part with
  | nil => simp
  | cons next parts ih =>
    rw [List.map_cons, List.map_cons, String.intercalate_cons_cons, String.toList_append, List.append_assoc, ← List.map_cons, ih]
    simp

theorem text_arr_nil : text (.arr []) = ['[', ']'] := rfl

theorem text_arr_cons (j : Json) (items : List Json) :
    text (.arr (j :: items)) = '[' :: (j.text ++ followed ']' (items.map text)) := by
  rw [← intercalate_followed, ← List.map_cons, ← renderItems_eq]
  change ("[" ++ String.intercalate "," (renderItems (j :: items)) ++ "]").toList = _
  simp

theorem text_obj_nil : text (.obj []) = ['\x7b', '\x7d'] := rfl

theorem text_obj_cons (f : String × Json) (fields : List (String × Json)) :
    text (.obj (f :: fields)) = '\x7b' :: (fieldText f ++ followed '\x7d' (fields.map fieldText)) := by
  rw [← intercalate_followed, ← List.map_cons, ← renderFields_eq]
  change ("\x7b" ++ String.intercalate "," (renderFields (f :: fields)) ++ "\x7d").toList = _
  simp

namespace Parser

theorem skipBlanks_cons {c : Char} (h : isBlank c = false) : skipBlanks (c :: cs) = c :: cs := by
  simp [skipBlanks, h]

section

variable {c : Char}

theorem ne_of_number (hc : c = '-' ∨ c.isDigit = true) (d : Char) (hsign : d ≠ '-') (hdigit : d.isDigit = false) : c ≠ d := by
  rintro rfl
  simp [hsign, hdigit] at hc

theorem not_blank_of_number (hc : c = '-' ∨ c.isDigit = true) : isBlank c = false := by
  simp [isBlank, ne_of_number hc]

theorem value?_number {depth steps : Nat} (hc : c = '-' ∨ c.isDigit = true) :
    value? depth (steps + 1) (c :: cs) = number? (c :: cs) := by
  rcases hc with rfl | hc
  · rfl
  · -- Each digit leads to the last case.
    have hcases := Decimal.mem_of_isDigit hc
    simp only [List.mem_cons, List.not_mem_nil, or_false] at hcases
    rcases hcases with rfl | rfl | rfl | rfl | rfl | rfl | rfl | rfl | rfl | rfl <;> rfl

theorem value?_str {depth steps : Nat} {s : String} (h : string? steps [] cs = some (s, rest)) :
    value? depth (steps + 1) ('"' :: cs) = some (.str s, rest) :=
  bind_of_some h rfl

theorem value?_items {depth steps : Nat} (hblank : isBlank c = false) (hc : c ≠ ']') :
    value? (depth + 1) (steps + 1) ('[' :: c :: cs) = items? depth steps [] (c :: cs) := by
  have hopen : skipBlanks ('[' :: c :: cs) = '[' :: c :: cs := skipBlanks_cons rfl
  simp [value?, hopen, skipBlanks_cons hblank, hc]

theorem value?_fields {depth steps : Nat} :
    value? (depth + 1) (steps + 1) ('\x7b' :: '"' :: cs) = fields? depth steps [] ('"' :: cs) := rfl

end

/-- The value is read from its text whatever follows, in as many steps as the text has characters. -/
def Takes (depth : Nat) (j : Json) : Prop :=
  ∀ ⦃steps rest⦄, j.text.length ≤ steps → Ends rest → value? depth steps (j.text ++ rest) = some (j, rest)

section

variable {depth steps : Nat} {j : Json} {items : List Json} {f : String × Json} {fields : List (String × Json)}

theorem items?_comma (hj : Takes depth j) (hsteps : j.text.length ≤ steps) :
    items? depth (steps + 1) items (j.text ++ ',' :: cs) = items? depth steps (j :: items) cs := by
  have hends : Ends (',' :: cs) := .cons (by decide)
  exact bind_of_some (hj hsteps hends) rfl

theorem items?_close (hj : Takes depth j) (hsteps : j.text.length ≤ steps) :
    items? depth (steps + 1) items (j.text ++ ']' :: rest) = some (.arr (items.reverse ++ [j]), rest) := by
  have hends : Ends (']' :: rest) := .cons (by decide)
  exact bind_of_some (hj hsteps hends) (by rw [← List.reverse_cons]; rfl)

theorem items?_text (hitems : ∀ i ∈ j :: items, Takes depth i) (acc : List Json) (rest : List Char)
    (hsteps : (j.text ++ followed ']' (items.map text)).length ≤ steps) :
    items? depth steps acc (j.text ++ followed ']' (items.map text) ++ rest) =
      some (.arr (acc.reverse ++ j :: items), rest) := by
  have hj := hitems j List.mem_cons_self
  induction items generalizing j acc steps with
  | nil =>
    cases steps with
    | zero => simp at hsteps
    | succ steps =>
      rw [List.map_nil, followed_nil, List.append_assoc]
      exact items?_close hj (by simpa using hsteps)
  | cons next items ih =>
    cases steps with
    | zero => simp at hsteps
    | succ steps =>
      have hnext : ∀ i ∈ next :: items, Takes depth i := fun i hi => hitems i (List.mem_cons_of_mem _ hi)
      simp only [List.map_cons, followed_cons, List.length_append, List.length_cons] at hsteps
      have hless : (next.text ++ followed ']' (items.map text)).length ≤ steps := by
        rw [List.length_append]
        omega
      have hrec := ih hnext (j :: acc) hless (hnext next List.mem_cons_self)
      rw [List.map_cons, followed_cons, List.append_assoc, List.cons_append, items?_comma hj (by omega), hrec]
      simp

theorem addField_of_not_mem (h : f.1 ∉ fields.map Prod.fst) : addField fields f.1 f.2 = f :: fields := by
  have hfilter : fields.filter (fun g => decide (g.1 ≠ f.1)) = fields := by
    rw [List.filter_eq_self]
    intro g hg
    simpa using fun heq : g.1 = f.1 => h (heq ▸ List.mem_map_of_mem hg)
  simp only [addField, hfilter]

theorem length_le_of_fieldText (hsteps : (fieldText f).length ≤ steps) :
    (quoted f.1.toList).length ≤ steps ∧ f.2.text.length ≤ steps := by
  simp only [fieldText, List.length_cons, List.length_append] at hsteps
  omega

theorem fields?_comma (hf : Takes depth f.2) (hsteps : (fieldText f).length ≤ steps) (hnew : f.1 ∉ fields.map Prod.fst) :
    fields? depth (steps + 1) fields (fieldText f ++ ',' :: cs) = fields? depth steps (f :: fields) cs := by
  obtain ⟨hkey, hvalue⟩ := length_le_of_fieldText hsteps
  have hends : Ends (',' :: cs) := .cons (by decide)
  rw [← addField_of_not_mem hnew, fieldText, List.cons_append, List.append_assoc, List.cons_append]
  exact bind_of_some (string?_toList hkey) (bind_of_some (hf hvalue hends) rfl)

theorem fields?_close (hf : Takes depth f.2) (hsteps : (fieldText f).length ≤ steps) (hnew : f.1 ∉ fields.map Prod.fst) :
    fields? depth (steps + 1) fields (fieldText f ++ '\x7d' :: rest) = some (.obj (fields.reverse ++ [f]), rest) := by
  obtain ⟨hkey, hvalue⟩ := length_le_of_fieldText hsteps
  have hends : Ends ('\x7d' :: rest) := .cons (by decide)
  rw [← List.reverse_cons, ← addField_of_not_mem hnew, fieldText, List.cons_append, List.append_assoc, List.cons_append]
  exact bind_of_some (string?_toList hkey) (bind_of_some (hf hvalue hends) rfl)

theorem not_mem_keys_of_nodup {acc : List (String × Json)} (hkeys : ((acc.reverse ++ f :: fields).map Prod.fst).Nodup) :
    f.1 ∉ acc.map Prod.fst := by
  rw [List.map_append, List.map_reverse, List.nodup_append] at hkeys
  exact fun hmem => hkeys.2.2 f.1 (List.mem_reverse.mpr hmem) f.1 (by simp) rfl

theorem fields?_text (hfields : ∀ g ∈ f :: fields, Takes depth g.2) (acc : List (String × Json)) (rest : List Char)
    (hkeys : ((acc.reverse ++ f :: fields).map Prod.fst).Nodup)
    (hsteps : (fieldText f ++ followed '\x7d' (fields.map fieldText)).length ≤ steps) :
    fields? depth steps acc (fieldText f ++ followed '\x7d' (fields.map fieldText) ++ rest) =
      some (.obj (acc.reverse ++ f :: fields), rest) := by
  have hf := hfields f List.mem_cons_self
  have hnew := not_mem_keys_of_nodup hkeys
  induction fields generalizing f acc steps with
  | nil =>
    cases steps with
    | zero => simp at hsteps
    | succ steps =>
      rw [List.map_nil, followed_nil, List.append_assoc]
      exact fields?_close hf (by simpa using hsteps) hnew
  | cons next fields ih =>
    cases steps with
    | zero => simp at hsteps
    | succ steps =>
      have hnext : ∀ g ∈ next :: fields, Takes depth g.2 := fun g hg => hfields g (List.mem_cons_of_mem _ hg)
      have hkeys' : (((f :: acc).reverse ++ next :: fields).map Prod.fst).Nodup := by simpa using hkeys
      simp only [List.map_cons, followed_cons, List.length_append, List.length_cons] at hsteps
      have hless : (fieldText next ++ followed '\x7d' (fields.map fieldText)).length ≤ steps := by
        rw [List.length_append]
        omega
      have hrec := ih hnext (f :: acc) hkeys' hless (hnext next List.mem_cons_self) (not_mem_keys_of_nodup hkeys')
      rw [List.map_cons, followed_cons, List.append_assoc, List.cons_append, fields?_comma hf (by omega) hnew, hrec]
      simp

/-- What a value begins with is no blank and does not close a list. -/
theorem exists_head_text (h : Readable depth j) : ∃ c cs, j.text = c :: cs ∧ isBlank c = false ∧ c ≠ ']' := by
  cases h with
  | null => exact ⟨_, _, text_null, by decide⟩
  | bool b =>
    cases b with
    | false => exact ⟨_, _, text_false, by decide⟩
    | true => exact ⟨_, _, text_true, by decide⟩
  | @int _ n =>
    obtain ⟨c, cs, hcs, hc⟩ := Decimal.exists_head_toString n
    exact ⟨c, cs, (text_int n).trans hcs, not_blank_of_number hc, ne_of_number hc ']' (by decide) (by decide)⟩
  | str s => exact ⟨_, _, text_str s, by decide⟩
  | @arr _ items =>
    cases items with
    | nil => exact ⟨_, _, text_arr_nil, by decide⟩
    | cons => exact ⟨_, _, text_arr_cons _ _, by decide⟩
  | @obj _ fields =>
    cases fields with
    | nil => exact ⟨_, _, text_obj_nil, by decide⟩
    | cons => exact ⟨_, _, text_obj_cons _ _, by decide⟩

/-- A text is not empty, so there is a first step. -/
theorem takes_of_succ (h : Readable depth j)
    (htake : ∀ steps rest, j.text.length ≤ steps + 1 → Ends rest → value? depth (steps + 1) (j.text ++ rest) = some (j, rest)) :
    Takes depth j := by
  intro steps rest hsteps hrest
  obtain ⟨c, cs, hcs, -⟩ := exists_head_text h
  cases steps with
  | zero => simp [hcs] at hsteps
  | succ steps => exact htake steps rest hsteps hrest

theorem takes_of_readable (h : Readable depth j) : Takes depth j := by
  induction h with
  | null =>
    exact takes_of_succ .null fun _ _ _ _ => rfl
  | bool b =>
    refine takes_of_succ (.bool b) fun _ _ _ _ => ?_
    cases b <;> rfl
  | @int _ n hmin hmax =>
    refine takes_of_succ (.int hmin hmax) fun steps rest _ hrest => ?_
    have hread := number?_toString hmin hmax hrest
    obtain ⟨c, cs, hcs, hc⟩ := Decimal.exists_head_toString n
    rw [hcs] at hread
    rw [text_int, hcs]
    exact (value?_number hc).trans hread
  | str s =>
    refine takes_of_succ (.str s) fun steps rest hsteps _ => ?_
    rw [text_str] at hsteps ⊢
    exact value?_str (string?_toList (Nat.le_of_succ_le_succ hsteps))
  | @arr _ items hitems ih =>
    refine takes_of_succ (.arr hitems) fun steps rest hsteps _ => ?_
    cases items with
    | nil => rfl
    | cons j items =>
      rw [text_arr_cons] at hsteps ⊢
      have hread := items?_text ih [] rest (Nat.le_of_succ_le_succ hsteps)
      obtain ⟨c, cs, hcs, hblank, hc⟩ := exists_head_text (hitems j List.mem_cons_self)
      rw [hcs] at hread ⊢
      exact (value?_items hblank hc).trans hread
  | @obj _ fields hkeys hfields ih =>
    refine takes_of_succ (.obj hkeys hfields) fun steps rest hsteps _ => ?_
    cases fields with
    | nil => rfl
    | cons f fields =>
      rw [text_obj_cons] at hsteps ⊢
      exact value?_fields.trans (fields?_text ih [] rest hkeys (Nat.le_of_succ_le_succ hsteps))

end

end Parser

/-- Reading gives back what was written. -/
theorem Readable.parse?_render {j : Json} (h : Readable Parser.maxDepth j) : parse? j.render = some j := by
  have hsteps : j.text.length ≤ 2 * j.text.length + 2 := by omega
  have htakes := Parser.takes_of_readable h hsteps Parser.Ends.nil
  rw [List.append_nil, text] at htakes
  exact bind_of_some htakes rfl

end Json

end JointPlan
