import Mathlib
import RelationalLP.Number.Double
import RelationalLP.Proofs.Sql.Literals

/-! # Text constants of statements

The text of a statement is joined from code and from its text constants, wherever these stand: in a filter,
a comparison, an absent row, or the lookup of a value. Numbers are written without quotes, so only a name
can bring a quote that is not part of a literal. -/

namespace RelationalLP

/-- The text that a constant is. -/
def Constant.text? {K : Type} : Constant K → Option String
  | .text s => some s
  | _ => none

namespace Sql

/-! ### Numbers have no quotes -/

theorem plain_ofList_digits {cs : List Char} (h : ∀ c ∈ cs, c.isDigit = true) :
    Plain (String.ofList cs) := by
  rw [Plain, String.toList_ofList]
  intro hmem
  exact absurd (h _ hmem) (by decide)

theorem plain_toString_nat (n : ℕ) : Plain (toString n) :=
  plain_ofList_digits fun _ hc => Nat.isDigit_of_mem_toDigits (by decide) (by decide) hc

theorem plain_toString_int (n : ℤ) : Plain (toString n) := by
  rw [Int.toString_eq_repr, Int.repr_eq_if]
  split
  · exact plain_toString_nat _
  · exact Plain.append (by decide) (plain_toString_nat _)

/-- One digit, the others as a fraction, and the power of ten. -/
theorem plain_scientific {digits : List Char} (h : ∀ c ∈ digits, c.isDigit = true) (leading : ℤ) :
    Plain (DecimalLayout.scientific digits leading) := by
  refine Plain.append (Plain.append ?_ (by decide)) (plain_toString_int leading)
  rcases digits with _ | ⟨c, _ | ⟨c', cs⟩⟩
  · decide
  · exact plain_ofList_digits h
  · obtain ⟨hc, hcs⟩ := List.forall_mem_cons.mp h
    exact ((plain_ofList_digits (List.forall_mem_singleton.mpr hc)).append (by decide)).append
      (plain_ofList_digits hcs)

/-- Digits and zeros around the point. -/
theorem plain_positional (layout : DecimalLayout) {digits : List Char}
    (h : ∀ c ∈ digits, c.isDigit = true) (point : ℤ) : Plain (layout.positional digits point) := by
  have hzeros : ∀ n, Plain (DecimalLayout.zeros n) := fun n =>
    plain_ofList_digits fun c hc => by rw [List.eq_of_mem_replicate hc]; decide
  rw [DecimalLayout.positional]
  split
  · exact (Plain.append (by decide) (hzeros _)).append (plain_ofList_digits h)
  · split
    · refine ((plain_ofList_digits h).append (hzeros _)).append ?_
      split <;> decide
    · exact ((plain_ofList_digits fun c hc => h c (List.mem_of_mem_take hc)).append
        (by decide)).append (plain_ofList_digits fun c hc => h c (List.mem_of_mem_drop hc))

theorem plain_write (layout : DecimalLayout) (d : Decimal) : Plain (layout.write d) := by
  have hdigits : ∀ c ∈ Nat.toDigits 10 d.digits, c.isDigit = true := fun _ hc =>
    Nat.isDigit_of_mem_toDigits (by decide) (by decide) hc
  rw [DecimalLayout.write]
  split
  · exact plain_scientific hdigits _
  · exact plain_positional layout hdigits _

/-- **A written double has no quote**, whether it is finite, infinite or no number. -/
theorem plain_textIn (layout : DecimalLayout) (x : Double) : Plain (x.textIn layout) := by
  have hzero : Plain layout.zeroText := by
    rw [DecimalLayout.zeroText]
    split <;> decide
  rw [Double.textIn]
  split
  · decide
  · have hbody : Plain (if !x.isFinite then "inf" else if x.magnitude = 0 then layout.zeroText
        else layout.write (Decimal.shortest x.significand x.exponent x.isNarrowBelow)) := by
      split
      · decide
      · split
        · exact hzero
        · exact plain_write layout _
    dsimp only
    split
    · exact Plain.append (by decide) hbody
    · exact hbody

/-! ### The text constants of a statement -/

section Texts

variable {K : Type}

/-- The text constants of a side of a comparison. -/
def Operand.texts : Operand K → List String
  | column _ => []
  | literal c => c.text?.toList

/-- The text constants of a condition. -/
def Condition.texts : Condition K → List String
  | compare left _ right => left.texts ++ right.texts
  | absent _ values => values.flatMap fun (_, v) => v.texts

/-- The text constants of a selection. -/
def Selection.texts (s : Selection K) : List String := s.conditions.flatMap Condition.texts

/-- The text constants of a statement, in order. -/
def Statement.texts (s : Statement K) : List String := s.flatMap Selection.texts

/-- The text constants of a lookup. -/
def Lookup.texts (l : Lookup K) : List String := l.given.flatMap fun (_, v) => v.text?.toList

/-- The columns of a side of a comparison are written without quotes. -/
def Operand.HasPlainNames : Operand K → Prop
  | column c => Plain c.write
  | literal _ => True

/-- The tables and columns of a condition are written without quotes. -/
def Condition.HasPlainNames : Condition K → Prop
  | compare left _ right => left.HasPlainNames ∧ right.HasPlainNames
  | absent source values =>
    Plain source.write ∧ ∀ p ∈ values, Plain p.1.write ∧ p.2.HasPlainNames

/-- **A selection with plain names**: its tables and columns are written without quotes, those of the result
included. -/
structure Selection.HasPlainNames [Scalar K] (s : Selection K) : Prop where
  /-- Of the selected columns and their names in the result. -/
  columns : ∀ p ∈ s.columns, Plain p.1.write ∧ Plain p.2.name
  /-- Of the computed value. -/
  quantity : ∀ q ∈ s.quantity, Plain q.write
  /-- Of the tables. -/
  sources : ∀ t ∈ s.sources, Plain t.write
  /-- Of the conditions. -/
  conditions : ∀ c ∈ s.conditions, c.HasPlainNames

/-- All selections have plain names. -/
def Statement.HasPlainNames [Scalar K] (s : Statement K) : Prop := ∀ sel ∈ s, sel.HasPlainNames

/-- A lookup with plain names. -/
structure Lookup.HasPlainNames (l : Lookup K) : Prop where
  /-- Of the column that is read. -/
  column : Plain l.column
  /-- Of the table. -/
  table : Plain l.table
  /-- Of the given columns. -/
  given : ∀ p ∈ l.given, Plain p.1

end Texts

/-- What is selected is written without quotes. -/
theorem Selection.HasPlainNames.items {s : Selection Double} (h : s.HasPlainNames) :
    ∀ t ∈ (s.columns.map fun (c, symbol) => c.write ++ " AS " ++ symbol.name)
      ++ (s.quantity.map Quantity.write).toList, Plain t := by
  refine List.forall_mem_append.mpr ⟨List.forall_mem_map.mpr fun p hp => ?_, fun t ht => ?_⟩
  · exact ((h.columns p hp).1.append (by decide)).append (h.columns p hp).2
  · obtain ⟨q, hq, rfl⟩ := Option.map_eq_some_iff.mp (Option.mem_toList.mp ht)
    exact h.quantity q hq

/-! ### The text of a statement shows them -/

namespace Writes

variable {plain : Prop}

/-- A constant is a literal when it is a text, and code when it is a number. -/
theorem literal (c : Constant Double) : Writes plain (Sql.literal c) c.text?.toList := by
  cases c with
  | integer v => exact code fun _ => plain_toString_int v
  | real v => exact code fun _ => plain_textIn .full v
  | text s => exact quote s

theorem operand {o : Operand Double} (h : plain → o.HasPlainNames) : Writes plain o.write o.texts := by
  cases o with
  | column c => exact code h
  | literal c => exact literal c

theorem condition {c : Condition Double} (h : plain → c.HasPlainNames) :
    Writes plain c.write c.texts := by
  cases c with
  | compare left op right =>
    have hop : Separates (" " ++ operator op ++ " ") := by cases op <;> decide
    have hwrites := (operand fun hplain => (h hplain).1).join _ hop (operand fun hplain => (h hplain).2)
    rwa [← String.append_assoc, ← String.append_assoc] at hwrites
  | absent source values =>
    have hequation : ∀ p ∈ values, Writes plain (p.1.write ++ " = " ++ p.2.write) p.2.texts :=
      fun p hp => (code fun hplain => ((h hplain).2 p hp).1).join " = " (by decide)
        (operand fun hplain => ((h hplain).2 p hp).2)
    have hequations : Writes plain
        (" AND ".intercalate (values.map fun (c, v) => c.write ++ " = " ++ v.write))
        (values.flatMap fun (_, v) => v.texts) := intercalate (by decide) hequation
    have htable : Writes plain ("NOT EXISTS (SELECT 1 FROM " ++ source.write) [] :=
      code fun hplain => Plain.append (by decide) (h hplain).1
    -- the parenthesis may follow a literal, so it is joined like a separator with nothing behind it
    have hempty : Writes plain "" [] := code fun _ => List.not_mem_nil
    have hclosed := (htable.join " WHERE " (by decide) hequations).join ")" (by decide) hempty
    rwa [String.append_empty, List.append_nil] at hclosed

/-- Code and, after it, conditions, all of which have to hold. -/
theorem whereClause {head : String} (hhead : plain → Plain head) {α : Type} {xs : List α}
    {write : α → String} {textsOf : α → List String} (h : ∀ x ∈ xs, Writes plain (write x) (textsOf x)) :
    Writes plain
      (head ++ if xs.isEmpty then "" else " WHERE " ++ " AND ".intercalate (xs.map write))
      (xs.flatMap textsOf) := by
  cases xs with
  | nil =>
    rw [List.isEmpty_nil, if_pos rfl, String.append_empty]
    exact code hhead
  | cons x xs =>
    rw [List.isEmpty_cons, if_neg Bool.false_ne_true, ← String.append_assoc]
    exact (code hhead).join " WHERE " (by decide) (intercalate (by decide) h)

theorem selection {s : Selection Double} (h : plain → s.HasPlainNames) :
    Writes plain s.write s.texts := by
  refine whereClause (fun hplain => ?_) fun c hc => condition fun hplain => (h hplain).conditions c hc
  refine (Plain.append (by decide) (.intercalate (by decide) ?_)).append ?_
  · split
    · decide
    · exact (h hplain).items
  · split
    · decide
    · exact Plain.append (by decide) (.intercalate (by decide) (List.forall_mem_map.mpr (h hplain).sources))

theorem lookup {l : Lookup Double} (h : plain → l.HasPlainNames) : Writes plain l.write l.texts := by
  have hgiven : ∀ p ∈ l.given, Writes plain (p.1 ++ " = " ++ Sql.literal p.2) p.2.text?.toList :=
    fun p hp => (code fun hplain => (h hplain).given p hp).join " = " (by decide) (literal p.2)
  have hhead : plain → Plain ("SELECT " ++ l.column ++ " FROM " ++ l.table) := fun hplain =>
    ((Plain.append (by decide) (h hplain).column).append (by decide)).append (h hplain).table
  simp only [Lookup.write, List.isEmpty_map]
  exact whereClause hhead hgiven

end Writes

/-- **A statement shows its text constants**, and is read as its pieces when its names are plain. -/
theorem Statement.exists_shows (s : Statement Double) :
    ∃ ps, Shows s.write s.texts ps ∧ (s.HasPlainNames → pieces? s.write.toList = some ps) := by
  refine Writes.exists_shows (Writes.intercalate (by decide) fun sel hsel => ?_)
  exact Writes.selection fun hplain => hplain sel hsel

/-- **A lookup shows its text constants**, and is read as its pieces when its names are plain. -/
theorem Lookup.exists_shows (l : Lookup Double) :
    ∃ ps, Shows l.write l.texts ps ∧ (l.HasPlainNames → pieces? l.write.toList = some ps) :=
  Writes.exists_shows (Writes.lookup id)

end Sql

end RelationalLP
