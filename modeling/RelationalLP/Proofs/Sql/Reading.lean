import Mathlib
import RelationalLP.Proofs.Number.ReadReals
import RelationalLP.Proofs.Sql.Literals

/-! # Reading statements

How the text of a statement is read. The text is split into words, quoted texts and signs; a blank, a comma or
a parenthesis ends a word. The marks are read by the grammar of statements: selections of named columns, or of
the number one, from aliased tables, under conditions that compare two values or say that a table has no row
with some values. A word that is no numeral is a column behind the alias of its table. -/

namespace RelationalLP

namespace Sql

/-! ### Marks -/

/-- A mark of a statement. -/
inductive Mark where
  /-- A keyword, an operator, a numeral or a name. -/
  | word (letters : String)
  /-- A text between quotes. -/
  | text (s : String)
  /-- A comma. -/
  | comma
  /-- An opening parenthesis. -/
  | opening
  /-- A closing parenthesis. -/
  | closing
  deriving DecidableEq

/-- The marks that a character is, which ends the word before it; a blank is none. -/
def sign? : Char → Option (List Mark)
  | ' ' => some []
  | ',' => some [.comma]
  | '(' => some [.opening]
  | ')' => some [.closing]
  | _ => none

/-- Whether a character belongs to words. -/
def isLetter (c : Char) : Bool := c ≠ '\'' && (sign? c).isNone

/-- **The marks of a text**; none if a quoted text is not closed. -/
def marks? : List Char → Option (List Mark)
  | [] => some []
  | c :: cs =>
    if c = '\'' then
      match _hread : readText cs with
      | none => none
      | some (text, rest) => (marks? rest).map (.text (String.ofList text) :: ·)
    else
      match sign? c with
      | some ms => (marks? cs).map (ms ++ ·)
      | none =>
        (marks? (cs.dropWhile isLetter)).map (.word (String.ofList (c :: cs.takeWhile isLetter)) :: ·)
termination_by cs => cs.length
decreasing_by
  · exact (length_lt_of_readText _hread).trans (Nat.lt_succ_self _)
  · exact Nat.lt_succ_self _
  · exact Nat.lt_succ_of_le (List.dropWhile_suffix _).length_le

/-! ### The marks of joined texts -/

/-- **A name that is one word**: it has a letter, and neither blanks, commas, parentheses nor quotes. -/
def IsName (s : String) : Prop := s.toList ≠ [] ∧ s.toList.all isLetter = true

instance (s : String) : Decidable (IsName s) :=
  inferInstanceAs (Decidable (s.toList ≠ [] ∧ s.toList.all isLetter = true))

/-- What follows ends a word and a quoted text. -/
def Breaks (rest : List Char) : Prop := ∀ c ∈ rest.head?, (sign? c).isSome = true

/-- **A text has some marks** in front of whatever ends a word. -/
def HasMarks (cs : List Char) (ms : List Mark) : Prop :=
  ∀ rest, Breaks rest → marks? (cs ++ rest) = (marks? rest).map (ms ++ ·)

/-- A text that ends its last word itself has some marks whatever follows. -/
def ClosesMarks (cs : List Char) (ms : List Mark) : Prop :=
  ∀ rest, marks? (cs ++ rest) = (marks? rest).map (ms ++ ·)

variable {c : Char} {cs ds : List Char} {ms ns : List Mark}

theorem marks?_sign (h : sign? c = some ms) (cs : List Char) :
    marks? (c :: cs) = (marks? cs).map (ms ++ ·) := by
  have hc : c ≠ '\'' := by
    rintro rfl
    cases h
  rw [marks?, if_neg hc, h]

theorem marks?_word (h : isLetter c = true) (cs : List Char) : marks? (c :: cs)
    = (marks? (cs.dropWhile isLetter)).map (.word (String.ofList (c :: cs.takeWhile isLetter)) :: ·) := by
  rw [isLetter, Bool.and_eq_true, decide_eq_true_eq, Option.isNone_iff_eq_none] at h
  rw [marks?, if_neg h.1, h.2]

theorem isLetter_eq_false (h : (sign? c).isSome = true) : isLetter c = false := by
  rw [isLetter, Option.isNone_eq_false_iff.mpr h, Bool.and_false]

theorem Breaks.head?_ne_quote (h : Breaks cs) : cs.head? ≠ some '\'' := by
  intro hquote
  exact absurd (h _ hquote) (by decide)

theorem Breaks.append (h : Breaks cs) (h' : Breaks ds) : Breaks (cs ++ ds) := by
  cases cs with
  | nil => exact h'
  | cons c cs => exact h

/-- A name is one word. -/
theorem hasMarks_word {s : String} (h : IsName s) : HasMarks s.toList [.word s] := by
  intro rest hrest
  obtain ⟨hne, hletters⟩ := h
  rw [List.all_eq_true] at hletters
  obtain ⟨c, cs, hcs⟩ := List.exists_cons_of_ne_nil hne
  have hs : String.ofList (c :: cs) = s := by rw [← hcs, String.ofList_toList]
  rw [hcs] at hletters ⊢
  obtain ⟨hc, hletters⟩ := List.forall_mem_cons.mp hletters
  obtain ⟨htake, hdrop⟩ := Token.takeWhile_dropWhile_append hletters fun d hd =>
    isLetter_eq_false (hrest d hd)
  rw [List.cons_append, marks?_word hc, htake, hdrop, hs]
  rfl

/-- A quoted text is one mark. -/
theorem hasMarks_quote (s : String) : HasMarks (quote s).toList [.text s] := by
  intro rest hrest
  obtain ⟨cs, hcs, hread⟩ := exists_toList_quote_append s hrest.head?_ne_quote
  rw [hcs, marks?, if_pos rfl]
  split
  · rename_i hnone
    rw [hread] at hnone
    cases hnone
  · rename_i text rest' hsome
    obtain ⟨rfl, rfl⟩ := Prod.mk.inj (Option.some.inj (hread.symm.trans hsome))
    rw [String.ofList_toList]
    rfl

theorem hasMarks_nil : HasMarks [] [] := fun _ _ => Option.map_id'.symm

theorem closesMarks_sign (h : sign? c = some ms) : ClosesMarks [c] ms := fun rest => marks?_sign h rest

theorem ClosesMarks.hasMarks (h : ClosesMarks cs ms) : HasMarks cs ms := fun rest _ => h rest

/-- Texts one behind the other have the marks of both, if the second starts with a sign. -/
theorem HasMarks.append (h : HasMarks cs ms) (hbreaks : Breaks ds) (h' : HasMarks ds ns) :
    HasMarks (cs ++ ds) (ms ++ ns) := by
  intro rest hrest
  rw [List.append_assoc, h _ (hbreaks.append hrest), h' rest hrest, Option.map_map]
  exact congrArg (fun f => (marks? rest).map f) (funext fun _ => (List.append_assoc _ _ _).symm)

/-- They do so if the first ends its last word. -/
theorem ClosesMarks.append (h : ClosesMarks cs ms) (h' : HasMarks ds ns) :
    HasMarks (cs ++ ds) (ms ++ ns) := by
  intro rest hrest
  rw [List.append_assoc, h, h' rest hrest, Option.map_map]
  exact congrArg (fun f => (marks? rest).map f) (funext fun _ => (List.append_assoc _ _ _).symm)

theorem ClosesMarks.trans (h : ClosesMarks cs ms) (h' : ClosesMarks ds ns) :
    ClosesMarks (cs ++ ds) (ms ++ ns) := by
  intro rest
  rw [List.append_assoc, h, h', Option.map_map]
  exact congrArg (fun f => (marks? rest).map f) (funext fun _ => (List.append_assoc _ _ _).symm)

/-- Words with a blank behind each. -/
def spaced (words : List String) : List Char := words.flatMap fun w => w.toList ++ [' ']

theorem closesMarks_spaced {words : List String} (h : ∀ w ∈ words, IsName w) :
    ClosesMarks (spaced words) (words.map .word) := by
  induction words with
  | nil => exact fun rest => Option.map_id'.symm
  | cons w words ih =>
    obtain ⟨hw, hwords⟩ := List.forall_mem_cons.mp h
    intro rest
    have hblank : Breaks (' ' :: (spaced words ++ rest)) := fun c hc => (Option.some.inj hc) ▸ rfl
    have htext : spaced (w :: words) ++ rest = w.toList ++ ' ' :: (spaced words ++ rest) := by
      simp [spaced]
    rw [htext, hasMarks_word hw _ hblank, marks?_sign rfl, ih hwords rest, Option.map_map, Option.map_map]
    rfl

/-- **Keywords between two texts** are marks between their marks. -/
theorem HasMarks.between {s t separator : String} (h : HasMarks s.toList ms) (words : List String)
    (hseparator : separator.toList = ' ' :: spaced words) (hwords : ∀ w ∈ words, IsName w)
    (h' : HasMarks t.toList ns) :
    HasMarks (s ++ separator ++ t).toList (ms ++ (words.map .word ++ ns)) := by
  have hblank : Breaks (' ' :: (spaced words ++ t.toList)) := fun c hc => (Option.some.inj hc) ▸ rfl
  rw [String.toList_append, String.toList_append, hseparator, List.append_assoc]
  exact h.append hblank ((closesMarks_sign (c := ' ') rfl).append ((closesMarks_spaced hwords).append h'))

/-- A text that stands as a mark between other texts. -/
structure Joins (separator : String) (m : Mark) : Prop where
  /-- It ends the word before it. -/
  breaks : ∃ c cs, separator.toList = c :: cs ∧ (sign? c).isSome = true
  /-- It has one mark, whatever follows. -/
  closes : ClosesMarks separator.toList [m]

/-- **Texts with a separator between them** have marks with its mark between them. -/
theorem HasMarks.intercalate {separator : String} {m : Mark} (hjoins : Joins separator m) {α : Type}
    {write : α → String} {marks : α → List Mark} {xs : List α}
    (h : ∀ x ∈ xs, HasMarks (write x).toList (marks x)) :
    HasMarks (separator.intercalate (xs.map write)).toList ([m].intercalate (xs.map marks)) := by
  induction xs with
  | nil => exact hasMarks_nil
  | cons x xs ih =>
    obtain ⟨hx, hxs⟩ := List.forall_mem_cons.mp h
    cases xs with
    | nil =>
      rw [List.map_singleton, List.map_singleton, String.intercalate_singleton,
        List.intercalate_singleton]
      exact hx
    | cons y ys =>
      obtain ⟨c, cs, hcs, hc⟩ := hjoins.breaks
      have hbreaks : Breaks (separator.toList ++ (separator.intercalate ((y :: ys).map write)).toList) := by
        rw [hcs]
        exact fun d hd => (Option.some.inj hd) ▸ hc
      rw [List.map_cons, List.map_cons, List.map_cons, List.map_cons, String.intercalate_cons_cons,
        List.intercalate_cons_cons, String.toList_append, String.toList_append, List.append_assoc,
        List.append_assoc]
      exact hx.append hbreaks (hjoins.closes.append (ih hxs))

example : marks? "a1.x <= 'o''neil' AND".toList
    = some [.word "a1.x", .word "<=", .text "o'neil", .word "AND"] := by decide +kernel

/-! ### The grammar -/

/-- Reads something from the front of some marks and gives what is left. -/
abbrev MarkReader (α : Type) := List Mark → Option (α × List Mark)

section Lists

variable {α : Type} (part? : MarkReader α) (separator : Mark)

/-- Reads at most `limit` parts with a separator between them. -/
def upTo? : ℕ → MarkReader (List α)
  | 0, _ => none
  | limit + 1, ms =>
    match part? ms with
    | none => none
    | some (x, rest) =>
      if rest.head? = some separator then
        (upTo? limit rest.tail).map fun (xs, rest) => (x :: xs, rest)
      else some ([x], rest)

/-- Reads parts with a separator between them, at least one. -/
def parts? : MarkReader (List α) := fun ms => upTo? part? separator (ms.length + 1) ms

/-- Reads parts behind a keyword; there are none without it. -/
def clause? (keyword : String) : MarkReader (List α)
  | .word s :: ms => if s = keyword then parts? part? separator ms else some ([], .word s :: ms)
  | ms => some ([], ms)

end Lists

/-- Reads an operator. -/
def operator? : String → Option CompareOp
  | "=" => some .eq
  | "<>" => some .ne
  | "<" => some .lt
  | "<=" => some .le
  | ">" => some .gt
  | ">=" => some .ge
  | _ => none

/-- Reads a column: the alias of its table up to the first point, and its name behind it. -/
def Column.read? (letters : String) : Option Column :=
  match letters.toList.dropWhile (· ≠ '.') with
  | [] => none
  | _ :: name => some ⟨String.ofList (letters.toList.takeWhile (· ≠ '.')), String.ofList name⟩

/-- Reads a value: a quoted text, a number, or else a column. -/
def Operand.read? : Mark → Option (Operand Double)
  | .text s => some (.literal (.text s))
  | .word letters =>
    match Numeral.number? letters.toList with
    | some c => some (.literal c)
    | none => (Column.read? letters).map .column
  | _ => none

/-- Reads a table with its alias. -/
def Source.read? : MarkReader Source
  | .word table :: .word "AS" :: .word label :: ms => some (⟨table, label⟩, ms)
  | _ => none

/-- Reads a selected column with its name. -/
def readItem? : MarkReader (Column × Symbol)
  | .word column :: .word "AS" :: .word name :: ms =>
    (Column.read? column).map fun c => ((c, ⟨name⟩), ms)
  | _ => none

/-- Reads what is selected: columns, or the number one. -/
def readItems? : MarkReader (List (Column × Symbol))
  | .word "1" :: ms => some ([], ms)
  | ms => parts? readItem? .comma ms

/-- Reads an equation of a column with a value. -/
def readEquation? : MarkReader (Column × Operand Double)
  | .word column :: .word "=" :: value :: ms => do
    return ((← Column.read? column, ← Operand.read? value), ms)
  | _ => none

/-- Reads a comparison of two values. -/
def readComparison? : MarkReader (Condition Double)
  | left :: .word op :: right :: ms => do
    return (.compare (← Operand.read? left) (← operator? op) (← Operand.read? right), ms)
  | _ => none

/-- Reads the absence of rows, behind its first words. -/
def readAbsence? (ms : List Mark) : Option (Condition Double × List Mark) := do
  let (source, rest) ← Source.read? ms
  match rest with
  | .word "WHERE" :: rest =>
    match ← parts? readEquation? (.word "AND") rest with
    | (values, .closing :: rest) => return (.absent source values, rest)
    | _ => none
  | _ => none

/-- Reads a condition. -/
def Condition.read? : MarkReader (Condition Double)
  | .word "NOT" :: .word "EXISTS" :: .opening :: .word "SELECT" :: .word "1" :: .word "FROM" :: ms =>
    readAbsence? ms
  | ms => readComparison? ms

/-- Reads a selection. -/
def Selection.read? : MarkReader (Selection Double)
  | .word "SELECT" :: .word "DISTINCT" :: ms => do
    let (columns, ms) ← readItems? ms
    let (sources, ms) ← clause? Source.read? .comma "FROM" ms
    let (conditions, ms) ← clause? Condition.read? (.word "AND") "WHERE" ms
    return ({ columns, quantity := none, sources, conditions }, ms)
  | _ => none

/-- **Reads the text of a statement** without computed values. -/
def Statement.read? (text : String) : Option (Statement Double) :=
  match (marks? text.toList).bind (parts? Selection.read? (.word "UNION")) with
  | some (s, []) => some s
  | _ => none

end Sql

end RelationalLP
