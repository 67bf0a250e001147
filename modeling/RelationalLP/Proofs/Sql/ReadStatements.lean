import Mathlib
import RelationalLP.Proofs.Sql.Drafts
import RelationalLP.Proofs.Sql.Reading

/-! # Written statements are read

The text of a statement has the marks that the statement is made of, and the grammar reads these marks as the
statement, when names are words and columns stand behind numbered aliases. So the text determines the
statement. -/

namespace RelationalLP

namespace Sql

/-! ### Names -/

/-- The alias of a table of the cross product, or of one that must not have a row. -/
def IsAlias (label : String) : Prop := ∃ i, label = sourceLabel i ∨ label = absenceLabel i

/-- A column behind a numbered alias, whose name is one word. -/
structure Column.Readable (c : Column) : Prop where
  /-- The alias of the table. -/
  label : IsAlias c.label
  /-- The name is one word. -/
  name : IsName c.name

/-- A value that can be read: a column, or a literal that is a number or a text. -/
def Operand.Readable : Operand Double → Prop
  | column c => c.Readable
  | literal (.real v) => v.isNaN = false
  | literal _ => True

/-- A table with a numbered alias, whose name is one word. -/
structure Source.Readable (s : Source) : Prop where
  /-- The name is one word. -/
  table : IsName s.table
  /-- The alias of the table. -/
  label : IsAlias s.label

/-- A condition of readable parts; an absence gives a value to some column. -/
def Condition.Readable : Condition Double → Prop
  | compare left _ right => left.Readable ∧ right.Readable
  | absent source values =>
    source.Readable ∧ values ≠ [] ∧ ∀ p ∈ values, p.1.Readable ∧ p.2.Readable

/-- **A selection of readable parts**, without a computed value. -/
structure Selection.Readable (s : Selection Double) : Prop where
  /-- The columns have names that are words. -/
  columns : ∀ p ∈ s.columns, p.1.Readable ∧ IsName p.2.name
  /-- Nothing is computed. -/
  quantity : s.quantity = none
  /-- The tables. -/
  sources : ∀ t ∈ s.sources, t.Readable
  /-- The conditions. -/
  conditions : ∀ c ∈ s.conditions, c.Readable

/-! ### The marks of a statement -/

/-- The mark of a column. -/
def Column.mark (c : Column) : Mark := .word c.write

/-- The mark of a value. -/
def Operand.mark : Operand Double → Mark
  | column c => c.mark
  | literal (.text s) => .text s
  | literal c => .word (Sql.literal c)

/-- The marks of a table with its alias. -/
def Source.marks (s : Source) : List Mark := [.word s.table, .word "AS", .word s.label]

/-- The marks of a selected column. -/
def itemMarks (p : Column × Symbol) : List Mark := [p.1.mark, .word "AS", .word p.2.name]

/-- The marks of an equation. -/
def equationMarks (p : Column × Operand Double) : List Mark := [p.1.mark, .word "=", p.2.mark]

/-- The marks of a condition. -/
def Condition.marks : Condition Double → List Mark
  | compare left op right => [left.mark, .word (operator op), right.mark]
  | absent source values =>
    [.word "NOT", .word "EXISTS", .opening, .word "SELECT", .word "1", .word "FROM"]
      ++ (source.marks ++ .word "WHERE" ::
        ([.word "AND"].intercalate (values.map equationMarks) ++ [.closing]))

/-- The marks of parts behind a keyword. -/
def clauseMarks {α : Type} (keyword : String) (separator : Mark) (marks : α → List Mark)
    (xs : List α) : List Mark :=
  if xs.isEmpty then [] else .word keyword :: [separator].intercalate (xs.map marks)

/-- The marks of a selection. -/
def Selection.marks (s : Selection Double) : List Mark :=
  [.word "SELECT", .word "DISTINCT"]
    ++ ((if s.columns.isEmpty then [.word "1"] else [.comma].intercalate (s.columns.map itemMarks))
    ++ (clauseMarks "FROM" .comma Source.marks s.sources
    ++ clauseMarks "WHERE" (.word "AND") Condition.marks s.conditions))

/-- The marks of a statement. -/
def Statement.marks (s : Statement Double) : List Mark :=
  [.word "UNION"].intercalate (s.map Selection.marks)

/-! ### Reading the marks -/

section Lists

variable {α : Type} {part? : MarkReader α} {separator : Mark} {marks : α → List Mark}
  {stops : List Mark → Prop} {xs : List α} {rest : List Mark}

/-- **Parts are read with their separators** when each of them is read in front of a separator, and the last
one in front of what follows. -/
theorem upTo?_intercalate (hne : xs ≠ [])
    (hpart : ∀ x ∈ xs, ∀ rest, stops rest → part? (marks x ++ rest) = some (x, rest))
    (hseparator : ∀ ms, stops (separator :: ms)) (hrest : stops rest)
    (hhead : rest.head? ≠ some separator) {limit : ℕ} (hlimit : xs.length ≤ limit) :
    upTo? part? separator limit ([separator].intercalate (xs.map marks) ++ rest) = some (xs, rest) := by
  induction xs generalizing limit with
  | nil => exact absurd rfl hne
  | cons x xs ih =>
    obtain ⟨limit, rfl⟩ := Nat.exists_eq_add_of_le' (Nat.one_le_of_lt hlimit)
    obtain ⟨hx, hxs⟩ := List.forall_mem_cons.mp hpart
    cases xs with
    | nil =>
      rw [List.map_singleton, List.intercalate_singleton, upTo?, hx rest hrest]
      exact if_neg hhead
    | cons y ys =>
      rw [List.map_cons, List.map_cons, List.intercalate_cons_cons, ← List.map_cons, List.append_assoc,
        List.append_assoc, List.singleton_append, upTo?, hx _ (hseparator _)]
      simp only [List.head?_cons, if_true, List.tail_cons,
        ih (List.cons_ne_nil y ys) hxs (Nat.le_of_succ_le_succ hlimit), Option.map_some]

theorem length_le_length_intercalate (separator : Mark) (parts : List (List Mark)) :
    parts.length ≤ ([separator].intercalate parts).length + 1 := by
  induction parts with
  | nil => exact Nat.zero_le _
  | cons part parts ih =>
    cases parts with
    | nil => simp
    | cons next parts =>
      rw [List.intercalate_cons_cons]
      simp only [List.length_cons, List.length_append, List.length_nil] at ih ⊢
      omega

theorem parts?_intercalate (hne : xs ≠ [])
    (hpart : ∀ x ∈ xs, ∀ rest, stops rest → part? (marks x ++ rest) = some (x, rest))
    (hseparator : ∀ ms, stops (separator :: ms)) (hrest : stops rest)
    (hhead : rest.head? ≠ some separator) :
    parts? part? separator ([separator].intercalate (xs.map marks) ++ rest) = some (xs, rest) := by
  refine upTo?_intercalate hne hpart hseparator hrest hhead ?_
  have hlength := length_le_length_intercalate separator (xs.map marks)
  rw [List.length_map] at hlength
  rw [List.length_append]
  omega

/-- Parts that are read whatever follows need only a separator that what follows does not start with. -/
theorem parts?_intercalate_of_forall (hne : xs ≠ [])
    (hpart : ∀ x ∈ xs, ∀ rest, part? (marks x ++ rest) = some (x, rest))
    (hhead : rest.head? ≠ some separator) :
    parts? part? separator ([separator].intercalate (xs.map marks) ++ rest) = some (xs, rest) :=
  have hstop : ∀ x ∈ xs, ∀ rest, True → part? (marks x ++ rest) = some (x, rest) :=
    fun x hx rest _ => hpart x hx rest
  parts?_intercalate hne hstop (fun _ => trivial) trivial hhead

theorem clause?_clauseMarks (keyword : String)
    (hpart : ∀ x ∈ xs, ∀ rest, part? (marks x ++ rest) = some (x, rest))
    (hhead : rest.head? ≠ some separator) (hkeyword : rest.head? ≠ some (.word keyword)) :
    clause? part? separator keyword (clauseMarks keyword separator marks xs ++ rest)
      = some (xs, rest) := by
  rw [clauseMarks]
  cases xs with
  | nil =>
    rw [List.isEmpty_nil, if_pos rfl, List.nil_append]
    rcases rest with _ | ⟨m, ms⟩
    · rfl
    · cases m with
      | word s =>
        have hs : s ≠ keyword := fun heq => hkeyword (heq ▸ rfl)
        rw [clause?, if_neg hs]
      | _ => rfl
  | cons x xs =>
    rw [List.isEmpty_cons, if_neg Bool.false_ne_true, List.cons_append, clause?, if_pos rfl]
    exact parts?_intercalate_of_forall (List.cons_ne_nil x xs) hpart hhead

end Lists

/-- What comes next is one of some keywords, if anything. -/
def StartsIn (words : List String) (ms : List Mark) : Prop := ∀ m ∈ ms.head?, ∃ s ∈ words, m = .word s

theorem StartsIn.head?_ne {words : List String} {ms : List Mark} (h : StartsIn words ms) {m : Mark}
    (hm : ∀ s ∈ words, m ≠ .word s) : ms.head? ≠ some m := by
  intro heq
  obtain ⟨s, hs, rfl⟩ := h m heq
  exact hm s hs rfl

theorem StartsIn.clauseMarks {α : Type} {words : List String} {rest : List Mark}
    (h : StartsIn words rest) (keyword : String) (separator : Mark) (marks : α → List Mark)
    (xs : List α) :
    StartsIn (keyword :: words) (Sql.clauseMarks keyword separator marks xs ++ rest) := by
  intro m hm
  rw [Sql.clauseMarks] at hm
  split at hm
  · obtain ⟨s, hs, rfl⟩ := h m hm
    exact ⟨s, List.mem_cons_of_mem _ hs, rfl⟩
  · exact ⟨keyword, List.mem_cons_self, (Option.some.inj hm).symm⟩

/-- An alias is a letter with a number. -/
theorem IsAlias.exists_cons {label : String} (h : IsAlias label) : ∃ d digits,
    label.toList = d :: digits ∧ (d = 'a' ∨ d = 'n') ∧ ∀ d ∈ digits, d.isDigit = true := by
  obtain ⟨i, hi⟩ := h
  have hdigits : ∀ d ∈ (toString (i + 1)).toList, d.isDigit = true := fun d hd =>
    Numeral.isDigit_of_mem_toDigits (n := i + 1) (by simpa using hd)
  rcases hi with hi | hi
  · have htext : label.toList = 'a' :: (toString (i + 1)).toList := by
      rw [hi, sourceLabel, String.toList_append]
      rfl
    exact ⟨'a', _, htext, .inl rfl, hdigits⟩
  · have htext : label.toList = 'n' :: (toString (i + 1)).toList := by
      rw [hi, absenceLabel, String.toList_append]
      rfl
    exact ⟨'n', _, htext, .inr rfl, hdigits⟩

theorem Column.toList_write (c : Column) :
    c.write.toList = c.label.toList ++ '.' :: c.name.toList := by
  rw [write, String.toList_append, String.toList_append, List.append_assoc]
  rfl

theorem Column.read?_write {c : Column} (h : c.Readable) : Column.read? c.write = some c := by
  obtain ⟨d, digits, hlabel, hd, hdigits⟩ := h.label.exists_cons
  have hletters : ∀ d ∈ c.label.toList, decide (d ≠ '.') = true := by
    rw [hlabel]
    refine List.forall_mem_cons.mpr ⟨by rcases hd with rfl | rfl <;> rfl, fun d hd => ?_⟩
    rw [decide_eq_true_eq]
    rintro rfl
    exact absurd (hdigits _ hd) (by decide)
  have hpoint : ∀ d ∈ ('.' :: c.name.toList).head?, decide (d ≠ '.') = false := by simp
  obtain ⟨htake, hdrop⟩ := Token.takeWhile_dropWhile_append hletters hpoint
  rw [read?, toList_write, htake, hdrop, String.ofList_toList]
  exact congrArg (fun name => some (⟨c.label, name⟩ : Column)) String.ofList_toList

/-- A column is no number. -/
theorem Column.number?_write {c : Column} (h : c.Readable) : Numeral.number? c.write.toList = none := by
  obtain ⟨d, digits, hlabel, hd, -⟩ := h.label.exists_cons
  rw [write, String.toList_append, String.toList_append, hlabel]
  rcases hd with rfl | rfl <;> rfl

/-- A numeral is read as its number. -/
theorem Operand.read?_numeral {letters : String} {c : Constant Double}
    (h : Numeral.number? letters.toList = some c) : read? (.word letters) = some (.literal c) := by
  rw [read?, h]

theorem Operand.read?_mark {o : Operand Double} (h : o.Readable) : Operand.read? o.mark = some o := by
  cases o with
  | column c =>
    rw [mark, Column.mark, read?, Column.number?_write h, Column.read?_write h]
    rfl
  | literal c =>
    cases c with
    | integer n =>
      have hnumber : Numeral.number? (toString n).toList = some (.integer n) := by
        rw [Numeral.number?, Numeral.integer?_toString]
      exact read?_numeral hnumber
    | real v => exact read?_numeral (Double.number?_text h)
    | text s => rfl

theorem operator?_operator (op : CompareOp) : operator? (operator op) = some op := by
  cases op <;> rfl

theorem readItem?_itemMarks {p : Column × Symbol} (h : p.1.Readable) (rest : List Mark) :
    readItem? (itemMarks p ++ rest) = some (p, rest) := by
  show (Column.read? p.1.write).map _ = _
  rw [Column.read?_write h]
  rfl

theorem readEquation?_equationMarks {p : Column × Operand Double} (h : p.1.Readable)
    (h' : p.2.Readable) (rest : List Mark) :
    readEquation? (equationMarks p ++ rest) = some (p, rest) := by
  show ((Column.read? p.1.write).bind fun _ => (Operand.read? p.2.mark).bind _) = _
  rw [Column.read?_write h, Operand.read?_mark h']
  rfl

/-- **The marks of a condition are read** as the condition, whatever follows. -/
theorem Condition.read?_marks {c : Condition Double} (h : c.Readable) (rest : List Mark) :
    Condition.read? (c.marks ++ rest) = some (c, rest) := by
  cases c with
  | compare left op right =>
    obtain ⟨hleft, hright⟩ := h
    have hread := Operand.read?_mark hleft
    -- no value is written like the first word of an absence
    have hne : left.mark ≠ .word "NOT" := by
      intro heq
      rw [heq] at hread
      cases hread
    rw [marks, List.cons_append, read?.eq_2 _ fun ms heq => hne (List.cons.inj heq).1]
    show ((Operand.read? left.mark).bind fun _ => (operator? (operator op)).bind fun _ =>
      (Operand.read? right.mark).bind _) = _
    rw [hread, operator?_operator, Operand.read?_mark hright]
    rfl
  | absent source values =>
    obtain ⟨-, hne, hvalues⟩ := h
    have hequations : parts? readEquation? (.word "AND")
        ([.word "AND"].intercalate (values.map equationMarks) ++ .closing :: rest)
          = some (values, .closing :: rest) :=
      parts?_intercalate_of_forall hne
        (fun p hp => readEquation?_equationMarks (hvalues p hp).1 (hvalues p hp).2) nofun
    have hmarks : (absent source values).marks ++ rest = .word "NOT" :: .word "EXISTS" :: .opening
        :: .word "SELECT" :: .word "1" :: .word "FROM" :: .word source.table :: .word "AS"
        :: .word source.label :: .word "WHERE"
        :: ([.word "AND"].intercalate (values.map equationMarks) ++ .closing :: rest) := by
      simp [marks, Source.marks]
    rw [hmarks]
    show (parts? readEquation? (.word "AND") _).bind _ = _
    rw [hequations]
    rfl

theorem readItems?_marks {columns : List (Column × Symbol)} (h : ∀ p ∈ columns, p.1.Readable)
    {rest : List Mark} (hrest : rest.head? ≠ some .comma) : readItems?
      ((if columns.isEmpty then [.word "1"] else [.comma].intercalate (columns.map itemMarks)) ++ rest)
        = some (columns, rest) := by
  cases columns with
  | nil => rfl
  | cons p columns =>
    have hread := Column.read?_write (h p List.mem_cons_self)
    -- no column is written like the number one
    have hone : p.1.mark ≠ .word "1" := by
      intro heq
      rw [Mark.word.inj heq] at hread
      cases hread
    obtain ⟨ms, hms⟩ : ∃ ms,
        [.comma].intercalate ((p :: columns).map itemMarks) ++ rest = p.1.mark :: ms := by
      cases columns with
      | nil => exact ⟨_, by rw [List.map_singleton, List.intercalate_singleton]; rfl⟩
      | cons q columns => exact ⟨_, by rw [List.map_cons, List.map_cons, List.intercalate_cons_cons]; rfl⟩
    have hparts := parts?_intercalate_of_forall (List.cons_ne_nil p columns)
      (fun q hq => readItem?_itemMarks (h q hq)) hrest
    rw [List.isEmpty_cons, if_neg Bool.false_ne_true, ← hparts, hms]
    exact readItems?.eq_2 _ fun ms' heq => hone (List.cons.inj heq).1

/-- **The marks of a selection are read** as the selection, up to the next one. -/
theorem Selection.read?_marks {s : Selection Double} (h : s.Readable) {rest : List Mark}
    (hrest : StartsIn ["UNION"] rest) : Selection.read? (s.marks ++ rest) = some (s, rest) := by
  have hwhere := hrest.clauseMarks "WHERE" (.word "AND") Condition.marks s.conditions
  have hfrom := hwhere.clauseMarks "FROM" .comma Source.marks s.sources
  have hcondition : ∀ c ∈ s.conditions, ∀ rest, Condition.read? (c.marks ++ rest) = some (c, rest) :=
    fun c hc => Condition.read?_marks (h.conditions c hc)
  have hsource : ∀ t ∈ s.sources, ∀ rest, Source.read? (t.marks ++ rest) = some (t, rest) :=
    fun _ _ _ => rfl
  have hmarks : s.marks ++ rest = .word "SELECT" :: .word "DISTINCT" :: (
      (if s.columns.isEmpty then [.word "1"] else [.comma].intercalate (s.columns.map itemMarks))
        ++ (clauseMarks "FROM" .comma Source.marks s.sources
        ++ (clauseMarks "WHERE" (.word "AND") Condition.marks s.conditions ++ rest))) := by
    simp [marks]
  rw [hmarks]
  show (readItems? _).bind _ = _
  rw [readItems?_marks (fun p hp => (h.columns p hp).1) (hfrom.head?_ne (by decide))]
  show (clause? _ _ _ _).bind _ = _
  rw [clause?_clauseMarks "FROM" hsource (hwhere.head?_ne (by decide)) (hwhere.head?_ne (by decide))]
  show (clause? _ _ _ _).bind _ = _
  rw [clause?_clauseMarks "WHERE" hcondition (hrest.head?_ne (by decide))
    (hrest.head?_ne (by decide))]
  show some (({ columns := s.columns, quantity := none, sources := s.sources
                conditions := s.conditions } : Selection Double), rest) = _
  rw [← h.quantity]

/-- **The marks of a statement are read** as the statement. -/
theorem Statement.read_marks {s : Statement Double} (hne : s ≠ []) (h : ∀ sel ∈ s, sel.Readable) :
    parts? Selection.read? (.word "UNION") s.marks = some (s, []) := by
  have hselection : ∀ sel ∈ s, ∀ rest, StartsIn ["UNION"] rest →
      Selection.read? (sel.marks ++ rest) = some (sel, rest) := fun sel hsel rest =>
    Selection.read?_marks (h sel hsel)
  have hunion : ∀ ms, StartsIn ["UNION"] (.word "UNION" :: ms) := fun ms m hm =>
    ⟨"UNION", List.mem_cons_self, (Option.some.inj hm).symm⟩
  have hnil : StartsIn ["UNION"] [] := fun m hm => (Option.not_mem_none m hm).elim
  rw [← List.append_nil s.marks]
  exact parts?_intercalate hne hselection hunion hnil nofun

/-! ### The text has these marks -/

theorem joins_comma : Joins ", " .comma where
  breaks := ⟨',', [' '], rfl, rfl⟩
  closes rest := by
    show marks? (',' :: ' ' :: rest) = _
    rw [marks?_sign rfl, marks?_sign rfl, Option.map_map]
    rfl

/-- A keyword between blanks stands between other texts. -/
theorem joins_word {separator word : String} (htext : separator.toList = ' ' :: spaced [word])
    (hword : IsName word) : Joins separator (.word word) where
  breaks := ⟨' ', spaced [word], htext, rfl⟩
  closes rest := by
    rw [htext, List.cons_append, marks?_sign rfl,
      closesMarks_spaced (List.forall_mem_singleton.mpr hword), Option.map_map]
    rfl

theorem joins_and : Joins " AND " (.word "AND") := joins_word rfl (by decide)

theorem joins_union : Joins " UNION " (.word "UNION") := joins_word rfl (by decide)

theorem isLetter_of_isDigit {c : Char} (h : c.isDigit = true) : isLetter c = true := by
  rw [isLetter, Bool.and_eq_true, decide_eq_true_eq]
  constructor
  · rintro rfl
    cases h
  · unfold sign?
    split
    · cases h
    · cases h
    · cases h
    · cases h
    · rfl

theorem IsAlias.isName {label : String} (h : IsAlias label) : IsName label := by
  obtain ⟨d, digits, hlabel, hd, hdigits⟩ := h.exists_cons
  have hletter : isLetter d = true := by rcases hd with rfl | rfl <;> rfl
  rw [IsName, hlabel, List.all_eq_true]
  exact ⟨List.cons_ne_nil d digits, List.forall_mem_cons.mpr
    ⟨hletter, fun c hc => isLetter_of_isDigit (hdigits c hc)⟩⟩

theorem Column.isName_write {c : Column} (h : c.Readable) : IsName c.write := by
  obtain ⟨hne, hlabel⟩ := h.label.isName
  rw [IsName, toList_write, List.all_append, hlabel, List.all_cons, h.name.2]
  exact ⟨List.append_ne_nil_of_left_ne_nil hne _, rfl⟩

/-- **A written value is one mark.** -/
theorem Operand.hasMarks_write {o : Operand Double} (h : o.Readable) :
    HasMarks o.write.toList [o.mark] := by
  match o, h with
  | .column c, h => exact hasMarks_word (Column.isName_write h)
  | .literal (.integer n), _ =>
    refine hasMarks_word ⟨?_, List.all_eq_true.mpr fun c hc => ?_⟩
    · intro hnil
      have hread := Numeral.integer?_toString n
      have htext : (toString n).toList = [] := hnil
      rw [htext] at hread
      cases hread
    · rcases Numeral.of_mem_toString hc with hdigit | rfl
      · exact isLetter_of_isDigit hdigit
      · rfl
  | .literal (.real v), h =>
    refine hasMarks_word ⟨?_, List.all_eq_true.mpr fun c hc => ?_⟩
    · intro hnil
      have hread := Double.number?_text h
      have htext : (Scalar.text v).toList = [] := hnil
      rw [htext] at hread
      cases hread
    · have hletters : ['-', '.', 'e', 'i', 'n', 'f'].all isLetter = true := by decide
      exact (Double.of_mem_text h hc).elim isLetter_of_isDigit (List.all_eq_true.mp hletters c)
  | .literal (.text s), _ => exact hasMarks_quote s

theorem Source.hasMarks_write {s : Source} (h : s.Readable) : HasMarks s.write.toList s.marks :=
  (hasMarks_word h.table).between ["AS"] rfl (by decide) (hasMarks_word h.label.isName)

theorem hasMarks_item {p : Column × Symbol} (h : p.1.Readable) (h' : IsName p.2.name) :
    HasMarks (p.1.write ++ " AS " ++ p.2.name).toList (itemMarks p) :=
  (hasMarks_word (Column.isName_write h)).between ["AS"] rfl (by decide) (hasMarks_word h')

theorem hasMarks_equation {p : Column × Operand Double} (h : p.1.Readable) (h' : p.2.Readable) :
    HasMarks (p.1.write ++ " = " ++ p.2.write).toList (equationMarks p) :=
  (hasMarks_word (Column.isName_write h)).between ["="] rfl (by decide)
    (Operand.hasMarks_write h')

/-- The first words of an absence close a parenthesis of their own. -/
theorem closesMarks_absence : ClosesMarks "NOT EXISTS (SELECT 1 FROM ".toList
    [.word "NOT", .word "EXISTS", .opening, .word "SELECT", .word "1", .word "FROM"] := by
  have hexists : ∀ w ∈ ["NOT", "EXISTS"], IsName w := by decide
  have hselect : ∀ w ∈ ["SELECT", "1", "FROM"], IsName w := by decide
  exact (closesMarks_spaced hexists).trans ((closesMarks_sign (c := '(') rfl).trans
    (closesMarks_spaced hselect))

/-- A comparison with the blanks around its operator. -/
theorem Condition.write_compare (left : Operand Double) (op : CompareOp) (right : Operand Double) :
    (compare left op right).write = left.write ++ (" " ++ operator op ++ " ") ++ right.write := by
  have htext : (compare left op right).write
      = left.write ++ " " ++ operator op ++ " " ++ right.write := rfl
  simpa only [String.append_assoc] using htext

/-- An absence with the selection between its parentheses. -/
theorem Condition.write_absent (source : Source) (values : List (Column × Operand Double)) :
    (absent source values).write = "NOT EXISTS (SELECT 1 FROM " ++ (source.write ++ " WHERE "
      ++ " AND ".intercalate (values.map fun p => p.1.write ++ " = " ++ p.2.write) ++ ")") := by
  have htext : (absent source values).write = "NOT EXISTS (SELECT 1 FROM " ++ source.write ++ " WHERE "
      ++ " AND ".intercalate (values.map fun p => p.1.write ++ " = " ++ p.2.write) ++ ")" := rfl
  rw [htext, String.append_assoc, String.append_assoc, String.append_assoc, String.append_assoc,
    String.append_assoc]

/-- **The text of a condition has its marks.** -/
theorem Condition.hasMarks_write {c : Condition Double} (h : c.Readable) :
    HasMarks c.write.toList c.marks := by
  cases c with
  | compare left op right =>
    have hoperator : ∀ w ∈ [operator op], IsName w := by cases op <;> decide
    have hblanks : (" " ++ operator op ++ " ").toList = ' ' :: spaced [operator op] := by
      simp [spaced]
    have hmarks := (Operand.hasMarks_write h.1).between [operator op] hblanks hoperator
      (Operand.hasMarks_write h.2)
    rw [write_compare]
    exact hmarks
  | absent source values =>
    obtain ⟨hsource, -, hvalues⟩ := h
    have hequations := HasMarks.intercalate joins_and fun p hp =>
      hasMarks_equation (hvalues p hp).1 (hvalues p hp).2
    have hwhere : " WHERE ".toList = ' ' :: spaced ["WHERE"] := rfl
    have hbreaks : Breaks ")".toList := fun c hc => (Option.some.inj hc) ▸ rfl
    have hinner := ((Source.hasMarks_write hsource).between ["WHERE"] hwhere (by decide)
      hequations).append hbreaks (closesMarks_sign (c := ')') rfl).hasMarks
    rw [List.append_assoc] at hinner
    rw [write_absent, String.toList_append, String.toList_append]
    exact closesMarks_absence.append hinner

/-- Parts behind a keyword have the marks of the clause, and end the word before them. -/
theorem hasMarks_clause {α : Type} (keyword opening : String) {separator : String} {m : Mark}
    (hopening : opening.toList = ' ' :: spaced [keyword]) (hkeyword : IsName keyword)
    (hjoins : Joins separator m) {write : α → String} {marks : α → List Mark} {xs : List α}
    (h : ∀ x ∈ xs, HasMarks (write x).toList (marks x)) :
    Breaks (if xs.isEmpty then "" else opening ++ separator.intercalate (xs.map write)).toList
      ∧ HasMarks (if xs.isEmpty then "" else opening ++ separator.intercalate (xs.map write)).toList
        (clauseMarks keyword m marks xs) := by
  rw [clauseMarks]
  split
  · exact ⟨fun c hc => (Option.not_mem_none c hc).elim, hasMarks_nil⟩
  · refine ⟨?_, ?_⟩
    · rw [String.toList_append, hopening]
      exact fun c hc => (Option.some.inj hc) ▸ rfl
    · rw [String.toList_append]
      exact (joins_word hopening hkeyword).closes.append (HasMarks.intercalate hjoins h)

/-- A selection without a computed value, clause by clause. -/
theorem Selection.write_eq {s : Selection Double} (h : s.quantity = none) :
    s.write = "SELECT DISTINCT " ++ (", ".intercalate (if s.columns.isEmpty then ["1"]
        else s.columns.map fun p => p.1.write ++ " AS " ++ p.2.name)
      ++ ((if s.sources.isEmpty then "" else " FROM " ++ ", ".intercalate (s.sources.map Source.write))
      ++ (if s.conditions.isEmpty then ""
        else " WHERE " ++ " AND ".intercalate (s.conditions.map Condition.write)))) := by
  have hitems : (s.columns.map fun p => p.1.write ++ " AS " ++ p.2.name)
      ++ (s.quantity.map Quantity.write).toList
        = s.columns.map fun p => p.1.write ++ " AS " ++ p.2.name := by
    rw [h]
    exact List.append_nil _
  unfold Selection.write
  dsimp only
  rw [hitems, List.isEmpty_map, String.append_assoc, String.append_assoc]

/-- **The text of a selection has its marks.** -/
theorem Selection.hasMarks_write {s : Selection Double} (h : s.Readable) :
    HasMarks s.write.toList s.marks := by
  obtain ⟨hbreaks, hwhere⟩ := hasMarks_clause "WHERE" " WHERE " rfl (by decide) joins_and
    fun c hc => Condition.hasMarks_write (h.conditions c hc)
  obtain ⟨hbreaks', hfrom⟩ := hasMarks_clause "FROM" " FROM " rfl (by decide) joins_comma
    fun t ht => Source.hasMarks_write (h.sources t ht)
  have hitems : HasMarks (", ".intercalate (if s.columns.isEmpty then ["1"]
      else s.columns.map fun p => p.1.write ++ " AS " ++ p.2.name)).toList
      (if s.columns.isEmpty then [.word "1"] else [.comma].intercalate (s.columns.map itemMarks)) := by
    split
    · exact hasMarks_word (by decide)
    · exact HasMarks.intercalate joins_comma fun p hp =>
        hasMarks_item (h.columns p hp).1 (h.columns p hp).2
  have hkeywords : ∀ w ∈ ["SELECT", "DISTINCT"], IsName w := by decide
  rw [write_eq h.quantity, String.toList_append, String.toList_append, String.toList_append]
  exact (closesMarks_spaced hkeywords).append
    (hitems.append (hbreaks'.append hbreaks) (hfrom.append hbreaks hwhere))

/-- **A written statement is read** as itself. -/
theorem Statement.read?_write {s : Statement Double} (hne : s ≠ []) (h : ∀ sel ∈ s, sel.Readable) :
    Statement.read? (Statement.write s) = some s := by
  have hmarks : HasMarks (Statement.write s).toList (Statement.marks s) :=
    HasMarks.intercalate joins_union fun sel hsel => Selection.hasMarks_write (h sel hsel)
  have hscan := hmarks [] fun c hc => (Option.not_mem_none c hc).elim
  rw [List.append_nil, marks?, Option.map_some, List.append_nil] at hscan
  rw [Statement.read?, hscan, Option.bind_some, Statement.read_marks hne h]

end Sql

end RelationalLP
