import Mathlib.Data.List.Induction
import JointPlan.Plan.Basic

/-!
# Names with endings

A relation that is put in by a pass is named after another one: an underscore and an ending follow. An
ending has no underscore of its own, so a name can be taken apart from behind. As long as no relation
is named like another one with endings, this tells for every name where it comes from (`marked_inj`).
-/

namespace JointPlan

/-- What a name is followed by. -/
inductive Mark
  | number (i : Nat)
  | obl
  | colsum
  | var
  | close
  | opened
  | store
  | read
  deriving DecidableEq

namespace Mark

def text : Mark → String
  | number i => toString i
  | obl => "obl"
  | colsum => "colsum"
  | var => "var"
  | close => "close"
  | opened => "open"
  | store => "store"
  | read => "read"

theorem toList_number {i : Nat} : (number i).text.toList = Nat.toDigits 10 i := by
  rw [text, Nat.toString_eq_repr, Nat.toList_repr]

theorem underscore_notMem_text (m : Mark) : '_' ∉ m.text.toList := by
  cases m with
  | number i =>
    rw [toList_number]
    exact Nat.underscore_not_in_toDigits
  | _ => decide

theorem text_ne_number {m : Mark} {i : Nat} (hm : m.text.toList.all Char.isDigit = false) : m.text ≠ (number i).text := by
  intro h
  obtain ⟨c, hc, hdigit⟩ := List.all_eq_false.mp hm
  rw [h, toList_number] at hc
  exact hdigit (Nat.isDigit_of_mem_toDigits (by decide) (by decide) hc)

theorem text_injective : Function.Injective text := by
  intro m m' h
  cases m with
  | number i =>
    cases m' with
    | number j =>
      have hdigits := congrArg (fun s => Nat.ofDigitChars 10 s.toList 0) h
      rw [toList_number, toList_number, Nat.ofDigitChars_ten_toDigits, Nat.ofDigitChars_ten_toDigits] at hdigits
      rw [hdigits]
    | _ => exact absurd h.symm (text_ne_number (by decide))
  | _ =>
    cases m' with
    | number j => exact absurd h (text_ne_number (by decide))
    | _ => first | rfl | exact absurd h (by decide)

end Mark

/-- The name `base` with endings. -/
def marked (base : String) (marks : List Mark) : String := marks.foldl (fun s m => s ++ "_" ++ m.text) base

section Marked

variable {base base' s s' : String} {marks marks' : List Mark} {m m' : Mark}

@[simp] theorem marked_nil : marked base [] = base := rfl

theorem marked_append : marked base (marks ++ marks') = marked (marked base marks) marks' := List.foldl_append

theorem marked_concat : marked base (marks ++ [m]) = marked base marks ++ "_" ++ m.text := marked_append

theorem append_eq_marked {ending : String} (h : ending = "_" ++ m.text) : s ++ ending = marked s [m] := by
  rw [h, ← String.append_assoc]
  rfl

theorem name_obl : s!"{s}_obl" = marked s [.obl] := append_eq_marked (m := .obl) rfl

theorem name_colsum : s!"{s}_colsum" = marked s [.colsum] := append_eq_marked (m := .colsum) rfl

theorem name_var : s!"{s}_var" = marked s [.var] := append_eq_marked (m := .var) rfl

/-- Where the last underscore stands a text is taken apart in one way only. -/
theorem append_cons_inj {α : Type} {a : α} {l l' t t' : List α} (h : l ++ a :: t = l' ++ a :: t') (ht : a ∉ t)
    (ht' : a ∉ t') : l = l' ∧ t = t' := by
  rcases List.append_eq_append_iff.mp h with ⟨mid, hl, heq⟩ | ⟨mid, hl, heq⟩
  · cases mid with
    | nil => simp_all
    | cons c mid =>
      obtain ⟨-, rfl⟩ := List.cons.inj heq
      simp at ht
  · cases mid with
    | nil => simp_all
    | cons c mid =>
      obtain ⟨-, rfl⟩ := List.cons.inj heq
      simp at ht'

theorem append_text_inj (h : s ++ "_" ++ m.text = s' ++ "_" ++ m'.text) : s = s' ∧ m = m' := by
  have hlist := congrArg String.toList h
  simp only [String.toList_append, List.append_assoc, show "_".toList = ['_'] from rfl, List.singleton_append] at hlist
  obtain ⟨hs, hm⟩ := append_cons_inj hlist m.underscore_notMem_text m'.underscore_notMem_text
  exact ⟨String.toList_injective hs, Mark.text_injective (String.toList_injective hm)⟩

/-- If neither of two names is the other one with endings, what they are followed by can be told. -/
theorem marked_inj (h : marked base marks = marked base' marks') (hbase : ∀ ms, base = marked base' ms → ms = [])
    (hbase' : ∀ ms, base' = marked base ms → ms = []) : base = base' ∧ marks = marks' := by
  induction marks using List.reverseRecOn generalizing marks' with
  | nil =>
    obtain rfl := hbase _ h
    exact ⟨h, rfl⟩
  | append_singleton marks m ih =>
    cases marks' using List.reverseRecOn with
    | nil => exact absurd (hbase' _ h.symm) (by simp)
    | append_singleton marks' m' =>
      rw [marked_concat, marked_concat] at h
      obtain ⟨hprev, rfl⟩ := append_text_inj h
      obtain ⟨hb, rfl⟩ := ih hprev
      exact ⟨hb, rfl⟩

theorem underscore_mem_marked (h : marks ≠ []) : '_' ∈ (marked base marks).toList := by
  obtain ⟨marks, m, rfl⟩ := List.eq_nil_or_concat marks |>.resolve_left h
  rw [List.concat_eq_append, marked_concat]
  simp

end Marked

end JointPlan
