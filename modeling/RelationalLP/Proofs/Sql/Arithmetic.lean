import Mathlib
import RelationalLP.Proofs.Number.Exact
import RelationalLP.Proofs.Number.PlainNumerals
import RelationalLP.Sql.Statement

/-! # Reading arithmetic

How the text of a computed value is read. It is split into words, operators and parentheses; a product binds
tighter than a sum, and operators of one kind are read from the left. A numeral is the double that it rounds
to, and other words are names of numbers. A text has at most one value. -/

namespace RelationalLP

namespace Sql

/-! ### Lexemes -/

/-- A lexeme of arithmetic. -/
inductive Lexeme where
  /-- A numeral or a name. -/
  | word (text : List Char)
  /-- The sign of a sum. -/
  | plus
  /-- The sign of a product. -/
  | times
  /-- An opening parenthesis. -/
  | opening
  /-- A closing parenthesis. -/
  | closing
  deriving DecidableEq

/-- The text of a lexeme, operators with the blanks around them. -/
def Lexeme.text : Lexeme → List Char
  | word text => text
  | plus => " + ".toList
  | times => " * ".toList
  | opening => ['(']
  | closing => [')']

/-- The text of some lexemes. -/
def textOf (ls : List Lexeme) : List Char := ls.flatMap Lexeme.text

theorem textOf_append (ls rs : List Lexeme) : textOf (ls ++ rs) = textOf ls ++ textOf rs :=
  List.flatMap_append

theorem textOf_cons (l : Lexeme) (ls : List Lexeme) : textOf (l :: ls) = l.text ++ textOf ls := rfl

/-- The lexemes that a character is, which ends the word before it; a blank is none. -/
def mark? : Char → Option (List Lexeme)
  | ' ' => some []
  | '+' => some [.plus]
  | '*' => some [.times]
  | '(' => some [.opening]
  | ')' => some [.closing]
  | _ => none

/-- The lexeme of the characters of a word. -/
def wordOf (letters : List Char) : List Lexeme := if letters = [] then [] else [.word letters]

/-- The lexemes of a text behind the first letters of a word. -/
def scanAfter (letters : List Char) : List Char → List Lexeme
  | [] => wordOf letters
  | c :: cs =>
    match mark? c with
    | some mark => wordOf letters ++ mark ++ scanAfter [] cs
    | none => scanAfter (letters ++ [c]) cs

/-- **The lexemes of a text.** -/
def scan (text : List Char) : List Lexeme := scanAfter [] text

/-! ### The grammar -/

/-- The levels of precedence. -/
inductive Level where
  /-- Products with signs of a sum between them. -/
  | sum
  /-- Factors with signs of a product between them. -/
  | product
  /-- A word, or a sum in parentheses. -/
  | factor

/-- **The value of lexemes by the usual precedence**, given the values of words. -/
inductive Reads (value : List Char → ℚ → Prop) : Level → List Lexeme → ℚ → Prop where
  /-- A word is a factor. -/
  | word {text : List Char} {x : ℚ} (h : value text x) : Reads value .factor [.word text] x
  /-- A sum in parentheses is a factor. -/
  | group {ls : List Lexeme} {x : ℚ} (h : Reads value .sum ls x) :
      Reads value .factor (.opening :: (ls ++ [.closing])) x
  /-- A factor is a product. -/
  | factor {ls : List Lexeme} {x : ℚ} (h : Reads value .factor ls x) : Reads value .product ls x
  /-- A product times a factor is a product. -/
  | times {ls rs : List Lexeme} {x y : ℚ} (h : Reads value .product ls x)
      (h' : Reads value .factor rs y) : Reads value .product (ls ++ .times :: rs) (x * y)
  /-- A product is a sum. -/
  | product {ls : List Lexeme} {x : ℚ} (h : Reads value .product ls x) : Reads value .sum ls x
  /-- A sum plus a product is a sum. -/
  | plus {ls rs : List Lexeme} {x y : ℚ} (h : Reads value .sum ls x)
      (h' : Reads value .product rs y) : Reads value .sum (ls ++ .plus :: rs) (x + y)

variable {value : List Char → ℚ → Prop}

/-- Products are multiplied in whichever order they are read. -/
theorem Reads.mul {ls rs : List Lexeme} {x y : ℚ} (h : Reads value .product ls x)
    (h' : Reads value .product rs y) : Reads value .product (ls ++ .times :: rs) (x * y) := by
  generalize hlevel : Level.product = level at h'
  induction h' with
  | word _ => cases hlevel
  | group _ => cases hlevel
  | factor h' => exact h.times h'
  | @times ls' rs' x' y' _ hfactor ih _ =>
    have htimes := (ih rfl).times hfactor
    rwa [List.append_assoc, List.cons_append, mul_assoc] at htimes
  | product _ => cases hlevel
  | plus _ _ => cases hlevel

/-- Factors with signs of a product between them have the product of their values. -/
theorem Reads.prod {parts : List (List Lexeme)} {xs : List ℚ} (hne : parts ≠ [])
    (h : List.Forall₂ (Reads value .product) parts xs) :
    Reads value .product ([.times].intercalate parts) xs.prod := by
  induction h with
  | nil => exact absurd rfl hne
  | @cons part x parts xs hpart hparts ih =>
    cases hparts with
    | nil => simpa using hpart
    | cons hnext hmore =>
      rw [List.intercalate_cons_cons, List.prod_cons, List.append_assoc]
      exact hpart.mul (ih (List.cons_ne_nil _ _))

/-- Sums are added in whichever order they are read. -/
theorem Reads.add {ls rs : List Lexeme} {x y : ℚ} (h : Reads value .product ls x)
    (h' : Reads value .sum rs y) : Reads value .sum (ls ++ .plus :: rs) (x + y) := by
  generalize hlevel : Level.sum = level at h'
  induction h' with
  | word _ => cases hlevel
  | group _ => cases hlevel
  | factor _ => cases hlevel
  | times _ _ => cases hlevel
  | product h' => exact h.product.plus h'
  | @plus ls' rs' x' y' _ hproduct ih _ =>
    have hplus := (ih rfl).plus hproduct
    rwa [List.append_assoc, List.cons_append, add_assoc] at hplus

/-- Products with signs of a sum between them have the sum of their values. -/
theorem Reads.sum {parts : List (List Lexeme)} {xs : List ℚ} (hne : parts ≠ [])
    (h : List.Forall₂ (Reads value .product) parts xs) :
    Reads value .sum ([.plus].intercalate parts) xs.sum := by
  induction h with
  | nil => exact absurd rfl hne
  | @cons part x parts xs hpart hparts ih =>
    cases hparts with
    | nil => simpa using hpart.product
    | cons hnext hmore =>
      rw [List.intercalate_cons_cons, List.sum_cons, List.append_assoc]
      exact hpart.add (ih (List.cons_ne_nil _ _))

/-! ### One value -/

/-- A step of an evaluation from the left. For each parenthesis that is open, the innermost first, and for
the text itself, the state has the sum of the products before and the product of the factors before. -/
def weighLexeme (f : List Char → ℚ) : List (ℚ × ℚ) → Lexeme → List (ℚ × ℚ)
  | (s, p) :: frames, .word text => (s, p * f text) :: frames
  | (s, p) :: frames, .plus => (s + p, 1) :: frames
  | frames, .opening => (0, 1) :: frames
  | (s, p) :: (s', p') :: frames, .closing => (s', p' * (s + p)) :: frames
  | frames, _ => frames

/-- **The evaluation from the left finds the value** of what it reads: a factor and a product multiply the
product before them, and a sum adds to the sum before it. -/
theorem Reads.foldl_weighLexeme {f : List Char → ℚ} (hf : ∀ text x, value text x → f text = x)
    {level : Level} {ls : List Lexeme} {x : ℚ} (h : Reads value level ls x) (s p : ℚ)
    (frames : List (ℚ × ℚ)) :
    (level ≠ .sum → ls.foldl (weighLexeme f) ((s, p) :: frames) = (s, p * x) :: frames)
    ∧ (level = .sum → ∃ s' p', ls.foldl (weighLexeme f) ((s, 1) :: frames) = (s', p') :: frames
      ∧ s' + p' = s + x) := by
  -- the frames are the groups that are still open, each with the sum and the product before it
  induction h generalizing s p frames with
  | @word text x h =>
    refine ⟨fun _ => ?_, nofun⟩
    rw [← hf text x h]
    rfl
  | @group ls x _ ih =>
    refine ⟨fun _ => ?_, nofun⟩
    obtain ⟨s', p', hrun, hsum⟩ := (ih 0 1 ((s, p) :: frames)).2 rfl
    rw [zero_add] at hsum
    rw [List.foldl_cons, List.foldl_append, weighLexeme, hrun, List.foldl_cons, List.foldl_nil,
      weighLexeme, hsum]
  | factor _ ih => exact ⟨fun _ => (ih s p frames).1 nofun, nofun⟩
  | @times ls rs x y _ _ ih ih' =>
    refine ⟨fun _ => ?_, nofun⟩
    rw [List.foldl_append, (ih s p frames).1 nofun, List.foldl_cons]
    exact ((ih' s (p * x) frames).1 nofun).trans (by rw [mul_assoc])
  | @product ls x _ ih =>
    refine ⟨nofun, fun _ => ⟨s, 1 * x, (ih s 1 frames).1 nofun, by rw [one_mul]⟩⟩
  | @plus ls rs x y _ _ ih ih' =>
    refine ⟨nofun, fun _ => ?_⟩
    obtain ⟨s', p', hrun, hsum⟩ := (ih s p frames).2 rfl
    refine ⟨s' + p', 1 * y, ?_, by rw [hsum, one_mul, add_assoc]⟩
    rw [List.foldl_append, hrun, List.foldl_cons]
    exact (ih' (s' + p') 1 frames).1 nofun

/-- **Lexemes have at most one value**, when words have. -/
theorem Reads.unique (hvalue : ∀ text x y, value text x → value text y → x = y) {ls : List Lexeme}
    {x y : ℚ} (h : Reads value .sum ls x) (h' : Reads value .sum ls y) : x = y := by
  have hword : ∀ text, ∃ x, ∀ y, value text y → x = y := by
    intro text
    by_cases hex : ∃ x, value text x
    · exact hex.imp fun x hx y => hvalue text x y hx
    · exact ⟨0, fun y hy => absurd ⟨y, hy⟩ hex⟩
  choose f hf using hword
  obtain ⟨s, p, hrun, hsum⟩ := (h.foldl_weighLexeme hf 0 1 []).2 rfl
  obtain ⟨s', p', hrun', hsum'⟩ := (h'.foldl_weighLexeme hf 0 1 []).2 rfl
  rw [hrun, List.cons.injEq, Prod.mk.injEq] at hrun'
  rw [hrun'.1.1, hrun'.1.2, hsum', zero_add, zero_add] at hsum
  exact hsum.symm

/-! ### Scanning -/

/-- A text that can be a word: it has letters, and none of them ends a word. -/
structure IsWord (text : List Char) : Prop where
  /-- It has letters. -/
  ne_nil : text ≠ []
  /-- They do not end a word. -/
  mark?_eq_none : ∀ c ∈ text, mark? c = none

/-- A text before which a word ends. -/
def EndsWord (text : List Char) : Prop := ∀ c ∈ text.head?, mark? c ≠ none

theorem scanAfter_append {text : List Char} (htext : ∀ c ∈ text, mark? c = none)
    (letters rest : List Char) : scanAfter letters (text ++ rest) = scanAfter (letters ++ text) rest := by
  induction text generalizing letters with
  | nil => rw [List.nil_append, List.append_nil]
  | cons c text ih =>
    obtain ⟨hc, htext⟩ := List.forall_mem_cons.mp htext
    rw [List.cons_append, scanAfter, hc]
    dsimp only
    rw [ih htext, List.append_assoc, List.singleton_append]

/-- A word ends where the text behind it does not go on with a letter. -/
theorem scanAfter_of_endsWord {rest : List Char} (hrest : EndsWord rest) (letters : List Char) :
    scanAfter letters rest = wordOf letters ++ scanAfter [] rest := by
  cases rest with
  | nil => exact (List.append_nil _).symm
  | cons c cs =>
    rw [scanAfter, scanAfter]
    cases hc : mark? c with
    | none => exact absurd hc (hrest c rfl)
    | some mark =>
      dsimp only
      rw [List.append_assoc]
      rfl

/-- The words among some lexemes are words. -/
def HaveWords (ls : List Lexeme) : Prop := ∀ text, .word text ∈ ls → IsWord text

theorem HaveWords.split {ls rs : List Lexeme} {operator : Lexeme}
    (h : HaveWords (ls ++ operator :: rs)) : HaveWords ls ∧ HaveWords rs :=
  ⟨fun text htext => h text (List.mem_append_left _ htext),
    fun text htext => h text (List.mem_append_right _ (List.mem_cons_of_mem _ htext))⟩

/-- Lexemes are split where an operator stands between them. -/
theorem scanAfter_operator {ls rs : List Lexeme} {operator : Lexeme} {rest : List Char}
    (hoperator : operator = .plus ∨ operator = .times)
    (hls : ∀ rest, EndsWord rest → scanAfter [] (textOf ls ++ rest) = ls ++ scanAfter [] rest)
    (hrs : scanAfter [] (textOf rs ++ rest) = rs ++ scanAfter [] rest) :
    scanAfter [] (textOf (ls ++ operator :: rs) ++ rest)
      = ls ++ operator :: rs ++ scanAfter [] rest := by
  have hends : EndsWord (operator.text ++ (textOf rs ++ rest)) := by
    rintro c hc
    rcases hoperator with rfl | rfl <;> obtain rfl := Option.some.inj hc <;> exact nofun
  have hscan : scanAfter [] (operator.text ++ (textOf rs ++ rest))
      = operator :: scanAfter [] (textOf rs ++ rest) := by
    rcases hoperator with rfl | rfl <;> rfl
  rw [textOf_append, textOf_cons, List.append_assoc, List.append_assoc, hls _ hends, hscan, hrs,
    List.append_assoc, List.cons_append]

/-- **The text of lexemes that are read is split into these lexemes again**, when their words are words. -/
theorem Reads.scanAfter_eq {level : Level} {ls : List Lexeme} {x : ℚ} (h : Reads value level ls x)
    (hwords : HaveWords ls) {rest : List Char} (hrest : EndsWord rest) :
    scanAfter [] (textOf ls ++ rest) = ls ++ scanAfter [] rest := by
  -- a word ends at the next operator, so the rest cannot change it
  induction h generalizing rest with
  | @word text x _ =>
    obtain ⟨hne, hletters⟩ := hwords text List.mem_cons_self
    rw [textOf_cons, List.append_assoc, Lexeme.text, scanAfter_append hletters, List.nil_append]
    change scanAfter text rest = _
    rw [scanAfter_of_endsWord hrest, wordOf, if_neg hne]
  | @group ls x _ ih =>
    have hinner : HaveWords ls := fun text htext =>
      hwords text (List.mem_cons_of_mem _ (List.mem_append_left _ htext))
    have hclosing : EndsWord (')' :: rest) := fun c hc => by
      obtain rfl := Option.some.inj hc
      exact nofun
    rw [textOf_cons, textOf_append, List.append_assoc, List.append_assoc]
    change .opening :: scanAfter [] (textOf ls ++ ')' :: rest) = _
    rw [ih hinner hclosing, List.cons_append, List.append_assoc]
    rfl
  | factor _ ih => exact ih hwords hrest
  | times _ _ ih ih' =>
    obtain ⟨hleft, hright⟩ := hwords.split
    exact scanAfter_operator (.inr rfl) (fun _ => ih hleft) (ih' hright hrest)
  | product _ ih => exact ih hwords hrest
  | plus _ _ ih ih' =>
    obtain ⟨hleft, hright⟩ := hwords.split
    exact scanAfter_operator (.inl rfl) (fun _ => ih hleft) (ih' hright hrest)

/-- A text is split into the lexemes that it was written from. -/
theorem Reads.scan_textOf {ls : List Lexeme} {x : ℚ} (h : Reads value .sum ls x)
    (hwords : HaveWords ls) : scan (textOf ls) = ls := by
  have hnothing : EndsWord [] := fun c hc => nomatch hc
  have hscan := h.scanAfter_eq hwords hnothing
  rw [List.append_nil] at hscan
  exact hscan.trans (List.append_nil ls)

end Sql

end RelationalLP
