import Mathlib
import RelationalLP.Sql.Statement

/-! # Literals in written texts

A text is read as a sequence of pieces: text constants, written as literals, and single characters of code.
A literal goes from its quote to the first quote without a partner. A text that is joined from quoted
constants and code by separators is read as exactly these constants and this code. -/

namespace RelationalLP

namespace Sql

/-! ### Reading a literal -/

/-- Reads a text after its opening quote: two quotes stand for one, and the first quote without a partner
closes the text. Gives the text and what follows it. -/
def readText : List Char → Option (List Char × List Char)
  | [] => none
  | '\'' :: '\'' :: cs => (readText cs).map fun (text, rest) => ('\'' :: text, rest)
  | '\'' :: cs => some ([], cs)
  | c :: cs => (readText cs).map fun (text, rest) => (c :: text, rest)

theorem readText_closing {rest : List Char} (h : rest.head? ≠ some '\'') :
    readText ('\'' :: rest) = some ([], rest) := by
  cases rest with
  | nil => rfl
  | cons c cs =>
    refine readText.eq_3 (c :: cs) fun _ heq => h ?_
    rw [(List.cons.inj heq).1]
    rfl

theorem readText_cons {c : Char} (h : c ≠ '\'') (cs : List Char) :
    readText (c :: cs) = (readText cs).map fun (text, rest) => (c :: text, rest) :=
  readText.eq_4 c cs (fun _ hc _ => h hc) h

/-- What follows a text is shorter than what it was read from. -/
theorem length_lt_of_readText {cs text rest : List Char} (h : readText cs = some (text, rest)) :
    rest.length < cs.length := by
  induction cs using readText.induct generalizing text with
  | case1 => cases h
  | case2 cs ih =>
    obtain ⟨⟨inner, _⟩, hinner, heq⟩ := Option.map_eq_some_iff.mp h
    obtain ⟨-, rfl⟩ := Prod.mk.inj heq
    exact (ih hinner).trans (by simp)
  | case3 cs hpair =>
    rw [readText.eq_3 cs hpair] at h
    obtain ⟨-, rfl⟩ := Prod.mk.inj (Option.some.inj h)
    exact Nat.lt_succ_self _
  | case4 c cs hpair hquote ih =>
    rw [readText_cons hquote] at h
    obtain ⟨⟨inner, _⟩, hinner, heq⟩ := Option.map_eq_some_iff.mp h
    obtain ⟨-, rfl⟩ := Prod.mk.inj heq
    exact (ih hinner).trans (Nat.lt_succ_self _)

/-- **Doubled quotes cannot close a text**, however many of them stand beside each other. -/
theorem readText_doubleQuotes (text : List Char) {rest : List Char} (h : rest.head? ≠ some '\'') :
    readText (doubleQuotes text ++ '\'' :: rest) = some (text, rest) := by
  -- quotes come in pairs up to the closing one, which has no partner in what follows
  induction text with
  | nil => exact readText_closing h
  | cons c cs ih =>
    by_cases hc : c = '\''
    · rw [doubleQuotes, if_pos hc, List.cons_append, List.cons_append, readText, ih, hc]
      rfl
    · rw [doubleQuotes, if_neg hc, List.cons_append, readText_cons hc, ih]
      rfl

/-- Reads a literal, which starts with a quote, and gives its text and what follows it. -/
def readLiteral? : List Char → Option (String × List Char)
  | '\'' :: cs => (readText cs).map fun (text, rest) => (String.ofList text, rest)
  | _ => none

theorem toList_quote (s : String) :
    (quote s).toList = '\'' :: (doubleQuotes s.toList ++ ['\'']) := by
  simp [quote]

/-- A quoted text is read to its end behind its opening quote. -/
theorem exists_toList_quote_append (s : String) {rest : List Char} (h : rest.head? ≠ some '\'') :
    ∃ cs, (quote s).toList ++ rest = '\'' :: cs ∧ readText cs = some (s.toList, rest) :=
  ⟨doubleQuotes s.toList ++ '\'' :: rest, by simp [toList_quote], readText_doubleQuotes s.toList h⟩

/-- **A quoted text is read as itself** and no further, unless another quote follows. -/
theorem readLiteral?_quote (s : String) {rest : List Char} (h : rest.head? ≠ some '\'') :
    readLiteral? ((quote s).toList ++ rest) = some (s, rest) := by
  obtain ⟨cs, hcs, hread⟩ := exists_toList_quote_append s h
  rw [hcs, readLiteral?, hread]
  exact congrArg (fun text => some (text, rest)) String.ofList_toList

example : readLiteral? "'o''neil' AND".toList = some ("o'neil", " AND".toList) := by decide

/-! ### Pieces of a text -/

/-- A piece of a text. -/
inductive Piece where
  /-- A character outside of literals. -/
  | code (c : Char)
  /-- A text constant, written as a literal. -/
  | literal (s : String)

namespace Piece

/-- The characters of a piece. -/
def spell : Piece → List Char
  | code c => [c]
  | literal s => (quote s).toList

/-- The text constant that a piece is. -/
def text? : Piece → Option String
  | code _ => none
  | literal s => some s

/-- A piece may be followed by another one: after a literal there is no quote. -/
def Precedes (p q : Piece) : Prop := p.text? = none ∨ q.spell.head? ≠ some '\''

end Piece

/-- The characters of some pieces. -/
def spell (ps : List Piece) : List Char := ps.flatMap Piece.spell

/-- The characters of a text without literals, as pieces. -/
def code (text : String) : List Piece := text.toList.map .code

/-- Reads a text piece by piece, a literal at each quote; none if a literal is not closed. -/
def pieces? : List Char → Option (List Piece)
  | [] => some []
  | c :: cs =>
    if c = '\'' then
      match _hread : readText cs with
      | none => none
      | some (text, rest) => (pieces? rest).map (.literal (String.ofList text) :: ·)
    else (pieces? cs).map (.code c :: ·)
termination_by cs => cs.length
decreasing_by
  · exact (length_lt_of_readText _hread).trans (Nat.lt_succ_self _)
  · exact Nat.lt_succ_self _

theorem pieces?_code {c : Char} (h : c ≠ '\'') (cs : List Char) :
    pieces? (c :: cs) = (pieces? cs).map (.code c :: ·) := by
  rw [pieces?, if_neg h]

theorem pieces?_quote (s : String) {rest : List Char} (h : rest.head? ≠ some '\'') :
    pieces? ((quote s).toList ++ rest) = (pieces? rest).map (.literal s :: ·) := by
  obtain ⟨cs, hcs, hread⟩ := exists_toList_quote_append s h
  rw [hcs, pieces?, if_pos rfl]
  split
  · rename_i hnone
    rw [hread] at hnone
    cases hnone
  · rename_i text rest' hsome
    obtain ⟨rfl, rfl⟩ := Prod.mk.inj (Option.some.inj (hread.symm.trans hsome))
    rw [String.ofList_toList]

/-! ### Texts joined from code and literals -/

@[simp] theorem spell_nil : spell [] = [] := rfl

@[simp] theorem spell_cons (p : Piece) (ps : List Piece) : spell (p :: ps) = p.spell ++ spell ps := rfl

@[simp] theorem spell_append (ps qs : List Piece) : spell (ps ++ qs) = spell ps ++ spell qs :=
  List.flatMap_append

@[simp] theorem spell_code (text : String) : spell (code text) = text.toList := by
  rw [spell, code, List.flatMap_map]
  exact List.flatMap_singleton' _

@[simp] theorem filterMap_text?_code (text : String) : (code text).filterMap Piece.text? = [] := by
  rw [code, List.filterMap_map]
  exact List.filterMap_eq_nil_iff.mpr fun _ _ => rfl

theorem head?_spell (ps : List Piece) : (spell ps).head? = ps.head?.bind fun p => p.spell.head? := by
  rcases ps with _ | ⟨c | s, ps⟩
  · rfl
  · rfl
  · rw [spell_cons, List.head?_cons, Option.bind_some, Piece.spell, toList_quote]
    rfl

/-- **A text joined from code and literals**: pieces spell it whose text constants are the given ones, none
of them is followed by a quote, and no quote is code when `plain` holds. -/
structure Joined (plain : Prop) (text : String) (texts : List String) (ps : List Piece) : Prop where
  /-- The pieces spell the text. -/
  spelled : text.toList = spell ps
  /-- The text constants are the given ones. -/
  texts_eq : ps.filterMap Piece.text? = texts
  /-- Literals are parted from what follows them. -/
  parted : ps.IsChain Piece.Precedes
  /-- Quotes belong to literals. -/
  clean : plain → .code '\'' ∉ ps

/-- A text that is joined from code and from some text constants. -/
def Writes (plain : Prop) (text : String) (texts : List String) : Prop :=
  ∃ ps, Joined plain text texts ps

/-- A text without quotes. -/
def Plain (text : String) : Prop := '\'' ∉ text.toList

instance (text : String) : Decidable (Plain text) := inferInstanceAs (Decidable ('\'' ∉ text.toList))

theorem Plain.append {s t : String} (hs : Plain s) (ht : Plain t) : Plain (s ++ t) := by
  rw [Plain, String.toList_append]
  exact List.not_mem_append hs ht

theorem Plain.intercalate {separator : String} (hseparator : Plain separator) {texts : List String}
    (h : ∀ t ∈ texts, Plain t) : Plain (separator.intercalate texts) := by
  induction texts with
  | nil => exact List.not_mem_nil
  | cons text texts ih =>
    obtain ⟨htext, htexts⟩ := List.forall_mem_cons.mp h
    cases texts with
    | nil => rwa [String.intercalate_singleton]
    | cons next texts =>
      rw [String.intercalate_cons_cons]
      exact (htext.append hseparator).append (ih htexts)

/-- A text that may stand after a literal: it has a first character, and no quotes. -/
def Separates (text : String) : Prop := text.toList ≠ [] ∧ Plain text

instance (text : String) : Decidable (Separates text) :=
  inferInstanceAs (Decidable (text.toList ≠ [] ∧ Plain text))

variable {plain : Prop} {text text' : String} {texts texts' : List String}

/-- A quote is a piece of code only where the text has one. -/
theorem notMem_code (h : Plain text) : .code '\'' ∉ code text := by
  intro hmem
  obtain ⟨c, hc, heq⟩ := List.mem_map.mp hmem
  exact h (Piece.code.inj heq ▸ hc)

/-- Code is parted from all that follows it. -/
theorem parted_code_append (text : String) {ps : List Piece} (h : ps.IsChain Piece.Precedes) :
    (code text ++ ps).IsChain Piece.Precedes := by
  refine List.isChain_append.mpr ⟨?_, h, fun p hp _ _ => .inl ?_⟩
  · exact (List.pairwise_map.mpr (List.pairwise_of_forall fun _ _ => .inl rfl)).isChain
  · obtain ⟨c, -, rfl⟩ := List.mem_map.mp (List.mem_of_mem_getLast? hp)
    rfl

namespace Writes

theorem code (h : plain → Plain text) : Writes plain text [] := by
  refine ⟨Sql.code text, (spell_code text).symm, filterMap_text?_code text, ?_, fun hplain =>
    notMem_code (h hplain)⟩
  simpa using parted_code_append text List.isChain_nil

theorem quote (s : String) : Writes plain (Sql.quote s) [s] :=
  ⟨[.literal s], (List.append_nil _).symm, rfl, List.isChain_singleton _, fun _ hmem => nomatch hmem⟩

/-- **Two texts with a separator between them** show the text constants of both. -/
theorem join (h : Writes plain text texts) (separator : String) (hseparator : Separates separator)
    (h' : Writes plain text' texts') :
    Writes plain (text ++ separator ++ text') (texts ++ texts') := by
  obtain ⟨ps, hps⟩ := h
  obtain ⟨qs, hqs⟩ := h'
  refine ⟨ps ++ (Sql.code separator ++ qs), ?_, ?_, ?_, fun hplain => ?_⟩
  · rw [String.toList_append, String.toList_append, hps.spelled, hqs.spelled, spell_append,
      spell_append, spell_code, List.append_assoc]
  · rw [List.filterMap_append, List.filterMap_append, hps.texts_eq, hqs.texts_eq,
      filterMap_text?_code, List.nil_append]
  · refine List.isChain_append.mpr
      ⟨hps.parted, parted_code_append separator hqs.parted, fun _ _ q hq => .inr ?_⟩
    -- the first character of the separator follows, and it is no quote
    obtain ⟨c, cs, hcs⟩ := List.exists_cons_of_ne_nil hseparator.1
    have hc : c ≠ '\'' := by
      rintro rfl
      exact hseparator.2 (hcs ▸ List.mem_cons_self)
    rw [Sql.code, hcs] at hq
    obtain rfl := Option.some.inj hq
    exact fun heq => hc (Option.some.inj heq)
  · exact List.not_mem_append (hps.clean hplain)
      (List.not_mem_append (notMem_code hseparator.2) (hqs.clean hplain))

/-- Texts with separators between them show the text constants of all. -/
theorem intercalate {α : Type} {separator : String} (hseparator : Separates separator) {xs : List α}
    {write : α → String} {textsOf : α → List String} (h : ∀ x ∈ xs, Writes plain (write x) (textsOf x)) :
    Writes plain (separator.intercalate (xs.map write)) (xs.flatMap textsOf) := by
  induction xs with
  | nil => exact code fun _ => List.not_mem_nil
  | cons x xs ih =>
    obtain ⟨hx, hxs⟩ := List.forall_mem_cons.mp h
    cases xs with
    | nil =>
      rw [List.map_singleton, String.intercalate_singleton, List.flatMap_singleton]
      exact hx
    | cons next xs =>
      rw [List.map_cons, List.map_cons, String.intercalate_cons_cons, List.flatMap_cons]
      exact hx.join separator hseparator (ih hxs)

end Writes

/-! ### Reading them -/

/-- **What a text shows**: it is spelled by pieces whose text constants are the given ones, in order, and a
reader of literals that is put on any of them reads it and stops right behind it. -/
structure Shows (text : String) (texts : List String) (ps : List Piece) : Prop where
  /-- The pieces spell the text. -/
  spelled : text.toList = spell ps
  /-- The text constants are the given ones. -/
  texts_eq : ps.filterMap Piece.text? = texts
  /-- Each text constant is read at its place. -/
  reads : ∀ before s after, ps = before ++ .literal s :: after →
    readLiteral? (spell (.literal s :: after)) = some (s, spell after)

/-- What follows a literal does not start with a quote. -/
theorem head?_spell_of_parted {s : String} {ps : List Piece}
    (h : (Piece.literal s :: ps).IsChain Piece.Precedes) : (spell ps).head? ≠ some '\'' := by
  rw [head?_spell]
  intro heq
  obtain ⟨p, hp, hquote⟩ := Option.bind_eq_some_iff.mp heq
  rcases (List.isChain_cons.mp h).1 p hp with hnone | hne
  · cases hnone
  · exact hne hquote

/-- Each literal of a joined text is read at its place. -/
theorem Joined.shows {ps : List Piece} (h : Joined plain text texts ps) : Shows text texts ps where
  spelled := h.spelled
  texts_eq := h.texts_eq
  reads _ s _ heq :=
    readLiteral?_quote s (head?_spell_of_parted (heq ▸ h.parted).right_of_append)

/-- **Pieces are read back** when literals are parted from what follows them and hold all quotes. -/
theorem pieces?_spell {ps : List Piece} (hparted : ps.IsChain Piece.Precedes)
    (hclean : .code '\'' ∉ ps) : pieces? (spell ps) = some ps := by
  induction ps with
  | nil => rw [spell_nil, pieces?]
  | cons p ps ih =>
    have hrest : pieces? (spell ps) = some ps :=
      ih hparted.tail fun hmem => hclean (List.mem_cons_of_mem _ hmem)
    cases p with
    | code c =>
      have hc : c ≠ '\'' := by
        rintro rfl
        exact hclean List.mem_cons_self
      rw [spell_cons, Piece.spell, List.singleton_append, pieces?_code hc, hrest]
      rfl
    | literal s =>
      rw [spell_cons, Piece.spell, pieces?_quote s (head?_spell_of_parted hparted), hrest]
      rfl

/-- **A text joined from code and literals shows its text constants**, and is read as its pieces if no quote
is code. -/
theorem Writes.exists_shows (h : Writes plain text texts) :
    ∃ ps, Shows text texts ps ∧ (plain → pieces? text.toList = some ps) := by
  obtain ⟨ps, hps⟩ := h
  exact ⟨ps, hps.shows, fun hplain => hps.spelled ▸ pieces?_spell hps.parted (hps.clean hplain)⟩

end Sql

end RelationalLP
