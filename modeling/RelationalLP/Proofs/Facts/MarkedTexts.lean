import Mathlib
import RelationalLP.Proofs.Facts.GenericQueries

/-! # Marked texts

Texts that start with a given name are marked: the first of all characters is put behind the name. Marking
keeps the order of texts and leaves all others as they are, so a query none of whose texts starts with the
name cannot tell marked facts from unmarked ones. -/

namespace RelationalLP

/-- Puts the first of all characters behind a beginning, where a text starts with it. -/
def markAfter : List Char → List Char → List Char
  | [], s => '\x00' :: s
  | _ :: _, [] => []
  | c :: cs, d :: s => d :: if d = c then markAfter cs s else s

/-- A text behind the beginning is marked. -/
theorem markAfter_append (cs s : List Char) : markAfter cs (cs ++ s) = cs ++ '\x00' :: s := by
  induction cs with
  | nil => rfl
  | cons c cs ih => rw [List.cons_append, markAfter, if_pos rfl, ih, List.cons_append]

/-- A text with another beginning is left as it is. -/
theorem markAfter_of_not_prefix {cs s : List Char} (h : ¬ cs <+: s) : markAfter cs s = s := by
  induction cs generalizing s with
  | nil => exact absurd List.nil_prefix h
  | cons c cs ih =>
    cases s with
    | nil => rfl
    | cons d s =>
      rw [markAfter]
      split
      · rename_i hd
        rw [hd, List.prefix_cons_inj] at h
        rw [ih h]
      · rfl

/-- **Marking keeps the order of texts.** -/
theorem strictMono_markAfter (cs : List Char) : StrictMono (markAfter cs) := by
  induction cs with
  | nil => exact fun s t h => List.cons_lt_cons_iff.mpr (.inr ⟨rfl, h⟩)
  | cons c cs ih =>
    intro s t h
    cases t with
    | nil => exact absurd h (List.not_lt_nil s)
    | cons e t =>
      cases s with
      | nil => exact List.nil_lt_cons e _
      | cons d s =>
        rw [markAfter, markAfter, List.cons_lt_cons_iff]
        rcases List.cons_lt_cons_iff.mp h with hlt | ⟨rfl, hlt⟩
        · exact .inl hlt
        · refine .inr ⟨rfl, ?_⟩
          split
          · exact ih hlt
          · exact hlt

variable {K : Type}

namespace Constant

/-- Marks a text that starts with a name. -/
def mark (name : String) : Constant K → Constant K
  | text s => text (String.ofList (markAfter name.toList s.toList))
  | c => c

/-- The text itself is marked. -/
theorem mark_text_self (name : String) :
    mark name (text name : Constant K) = text (String.ofList (name.toList ++ ['\x00'])) := by
  have hself := markAfter_append name.toList []
  rw [List.append_nil] at hself
  rw [mark, hself]

theorem mark_text_self_ne (name : String) : mark name (text name : Constant K) ≠ text name := by
  rw [mark_text_self, ne_eq, text.injEq, String.ofList_eq, List.append_right_eq_self]
  exact List.cons_ne_nil _ _

theorem mark_text_of_not_prefix {name s : String} (h : ¬ name.toList <+: s.toList) :
    mark name (text s : Constant K) = text s := by
  rw [mark, markAfter_of_not_prefix h, String.ofList_toList]

/-- **Marking keeps comparisons.** -/
theorem embeds_mark [Scalar K] (name : String) : Embeds (mark name : Constant K → Constant K) := by
  -- marking keeps the order of texts, and leaves other constants as they are
  have hmono : StrictMono fun s : String => String.ofList (markAfter name.toList s.toList) := by
    intro s t h
    rw [String.lt_iff_toList_lt, String.toList_ofList, String.toList_ofList]
    exact strictMono_markAfter name.toList (String.lt_iff_toList_lt.mp h)
  refine ⟨fun x y h => ?_, fun x y => ?_⟩
  · cases x with
    | text s =>
      cases y with
      | text t => exact congrArg text (hmono.injective (text.inj h))
      | integer _ => cases h
      | real _ => cases h
    | integer n => cases y <;> cases h; rfl
    | real v => cases y <;> cases h; rfl
  · cases x with
    | text s =>
      cases y with
      | text t =>
        have hcompare := hmono.cmp_map_eq s t
        rw [cmp_eq_compare, cmp_eq_compare] at hcompare
        exact congrArg some hcompare
      | integer _ => rfl
      | real _ => rfl
    | integer n => cases y <;> rfl
    | real v => cases y <;> rfl

/-- Terms without texts that start with the name keep their constants. -/
theorem knows_fixedPoints_mark {name : String} {ts : List (Term K)}
    (h : ∀ s : String, .const (.text s) ∈ ts → ¬ name.toList <+: s.toList) :
    Domain.Knows (Function.fixedPoints (mark name)) ts := by
  intro c hc
  cases c with
  | text s => exact mark_text_of_not_prefix (h s hc)
  | integer n => rfl
  | real v => rfl

end Constant

end RelationalLP
