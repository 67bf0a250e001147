import Mathlib
import RelationalLP.Proofs.Logic.Parsing
import RelationalLP.Proofs.Logic.Terms
import RelationalLP.Proofs.Number.WrittenReals

/-! # Written formulas

The written form of a formula that was parsed is scanned as the tokens of the formula and so is parsed as
the formula again. Words and quoted texts may be written differently from how they were read: blanks and
needless parentheses are not kept, and lower-case words come back in quotes. -/

namespace RelationalLP

variable {K : Type} [Scalar K]

namespace Token

variable {cs : List Char} {ts : List (Token K)}

/-- A closing parenthesis ends every word. -/
theorem LexesTo.closing (h : LexesTo cs ts) : LexesTo (cs ++ [')']) (ts ++ [closing]) :=
  h.append (ends_cons rfl (by decide) []) (lexes_nil.cons rfl fun _ => rfl)

/-- Texts with a separator between them are read as their tokens with a sign between them. -/
theorem lexes_intercalate (separator : String) (sign : Token K)
    (hends : ∀ cs, Ends (separator.toList ++ cs))
    (hsign : ∀ cs ts, LexesTo cs ts → LexesTo (separator.toList ++ cs) (sign :: ts))
    {texts : List String} {parts : List (List (Token K))}
    (h : List.Forall₂ (fun text part => LexesTo text.toList part) texts parts) :
    LexesTo (separator.intercalate texts).toList (joinParts sign parts) := by
  induction h with
  | nil => exact lexes_nil
  | @cons text part texts parts hhead htail ih =>
    cases htail with
    | nil =>
      rw [String.intercalate_singleton, joinParts, List.flatMap_nil, List.append_nil]
      exact hhead
    | cons hnext htail =>
      rw [String.intercalate_cons_cons, joinParts_cons_cons, String.toList_append, String.toList_append,
        List.append_assoc]
      exact hhead.append (hends _) (hsign _ _ ih)

end Token

open Token

/-- A word that a text can have, and a real that is written so that it is read again. -/
theorem Term.lexes_render {x : Term K} (hx : x.token.Scanned)
    (hreal : ∀ v, x = .const (.real v) → LexesTo (Scalar.text v).toList [constant (.real v)]) :
    LexesTo x.render.toList [x.token] := by
  match x with
  | .var s => exact lexes_upper hx
  | .const (.integer n) => exact lexes_integer hx
  | .const (.real v) => exact hreal v rfl
  | .const (.text s) =>
    have htext : (Term.const (.text s) : Term K).render.toList = '\'' :: (s.toList ++ ['\'']) := by
      show ("'" ++ s ++ "'").toList = _
      rw [String.toList_append, String.toList_append]
      rfl
    rw [htext]
    exact lexes_quoted hx

namespace Formula

variable {f : Formula K} {fs : List (Formula K)}

/-- The reals among some terms are written so that they are read again. -/
def RealsLex (terms : List (Term K)) : Prop :=
  ∀ v, .const (.real v) ∈ terms → LexesTo (Scalar.text v).toList [constant (.real v)]

/-- The written form of a part of a connective, in parentheses where these are needed. -/
theorem lexes_wrap (h : LexesTo f.render.toList f.tokens) :
    LexesTo (if f.isCompound then "(" ++ f.render ++ ")" else f.render).toList
      (wrap f.isCompound f.tokens) := by
  cases f.isCompound with
  | false => exact h
  | true =>
    show LexesTo ("(" ++ f.render ++ ")").toList (.opening :: (f.tokens ++ [.closing]))
    rw [String.toList_append, String.toList_append, List.append_assoc]
    exact h.closing.cons rfl fun _ => rfl

theorem lexes_atom {a : Atom K} (h : (atom a).Grammatical) (hreals : RealsLex a.arguments) :
    LexesTo a.render.toList (atom a).tokens := by
  obtain ⟨-, hname, -, hscanned⟩ := h
  have harguments : List.Forall₂ (fun text part => LexesTo text.toList part)
      (a.arguments.map Term.render) (a.arguments.map ([·.token])) := by
    rw [List.forall₂_map_left_iff, List.forall₂_map_right_iff, List.forall₂_same]
    exact fun x hx => Term.lexes_render (hscanned x hx) fun v hv => hreals v (hv ▸ hx)
  have hargs := lexes_intercalate ", " .comma (fun cs => ends_cons rfl (by decide) _)
    (fun cs ts h => h.blank.cons rfl fun _ => rfl) harguments
  have htext : a.render.toList
      = a.name.toList ++ '(' :: ((", ".intercalate (a.arguments.map Term.render)).toList ++ [')']) := by
    rw [Atom.render, String.toList_append, String.toList_append, String.toList_append, List.append_assoc,
      List.append_assoc]
    rfl
  rw [htext]
  exact (lexes_lower hname).append (ends_cons rfl (by decide) _) (hargs.closing.cons rfl fun _ => rfl)

theorem lexes_compare {c : Comparison K} (h : (compare c).Grammatical) (hreals : RealsLex c.terms) :
    LexesTo c.render.toList (compare c).tokens := by
  have hleft := Term.lexes_render h.1 fun v hv => hreals v (hv ▸ List.mem_cons_self)
  have hright := Term.lexes_render h.2 fun v hv => hreals v (hv ▸ List.mem_cons_of_mem _ List.mem_cons_self)
  have htext : c.render.toList
      = c.left.render.toList ++ ' ' :: (c.op.render.toList ++ ' ' :: c.right.render.toList) := by
    rw [Comparison.render, String.toList_append, String.toList_append, String.toList_append,
      String.toList_append, List.append_assoc, List.append_assoc, List.append_assoc]
    rfl
  rw [htext]
  exact hleft.append (ends_cons rfl (by decide) _) (hright.comparison c.op)

theorem startsWith_true : StartsWith Char.isLower "true" := ⟨'t', ['r', 'u', 'e'], rfl, rfl, List.all_eq_true.mp rfl⟩

theorem startsWith_false : StartsWith Char.isLower "false" :=
  ⟨'f', ['a', 'l', 's', 'e'], rfl, rfl, List.all_eq_true.mp rfl⟩

mutual

/-- **The written form of a formula is read as its tokens.** -/
theorem lexes_render : ∀ f : Formula K, f.Grammatical → RealsLex f.terms →
    LexesTo f.render.toList f.tokens
  | truth, _, _ => lexes_lower startsWith_true
  | falsity, _, _ => lexes_lower startsWith_false
  | atom _, h, hreals => lexes_atom h hreals
  | compare _, h, hreals => lexes_compare h hreals
  | neg f, h, hreals => by
    rw [render, String.toList_append]
    exact (lexes_wrap (lexes_render f h hreals)).cons rfl fun _ => rfl
  | conj fs, h, hreals => by
    rw [render]
    exact lexes_intercalate " & " .amp (fun _ => ends_cons rfl (by decide) _)
      (fun _ _ h => (h.blank.cons rfl fun _ => rfl).blank) (lexes_renderList fs h.2 hreals)
  | disj fs, h, hreals => by
    rw [render]
    exact lexes_intercalate " | " .bar (fun _ => ends_cons rfl (by decide) _)
      (fun _ _ h => (h.blank.cons rfl fun _ => rfl).blank) (lexes_renderList fs h.2 hreals)

theorem lexes_renderList : ∀ fs : List (Formula K), GrammaticalList fs → RealsLex (termsList fs) →
    List.Forall₂ (fun text part => LexesTo text.toList part) (renderList fs) (tokensList fs)
  | [], _, _ => .nil
  | f :: fs, h, hreals =>
    .cons (lexes_wrap (lexes_render f h.1 fun v hv => hreals v (List.mem_append_left _ hv)))
      (lexes_renderList fs h.2 fun v hv => hreals v (List.mem_append_right _ hv))

end

/-- **A formula that the grammar gives is parsed from its written form.** -/
theorem parse_render (h : f.Grammatical) (hreals : RealsLex f.terms) : parse f.render = .ok f := by
  have hscan : scan? f.render.toList = some f.tokens := by
    have hlex := lexes_render f h hreals [] ends_nil
    rwa [List.append_nil, scan?_nil, Option.map_some, List.append_nil] at hlex
  rw [parse, hscan, Option.bind_some, ofTokens?_tokens h]

/-- **A parsed formula is one that the grammar gives.** -/
theorem grammatical_of_parse {text : String} (h : parse text = .ok f) : f.Grammatical := by
  obtain ⟨ts, hts, hf⟩ := exists_tokens_of_parse h
  exact grammatical_of_ofTokens? (scanned_of_scan? hts) hf

/-- A finite real that is written without an exponent and is the value of its text is read again. -/
theorem lexes_real {v : Double} (hfinite : v.isFinite = true) (hplain : 'e' ∉ (Scalar.text v).toList)
    (hread : Numeral.double? (Scalar.text v) = some v) :
    LexesTo (Scalar.text v).toList [constant (.real v)] := by
  obtain ⟨negative, whole, fraction, htext⟩ := Double.exists_pointed_text hfinite hplain
  have hvalue : Numeral.decimal negative whole fraction = v :=
    Option.some.inj (htext.double?_eq.symm.trans hread)
  obtain ⟨c, cs, hwhole⟩ := List.exists_cons_of_ne_nil htext.whole_ne_nil
  rw [htext.text_eq, hwhole, List.cons_append]
  refine lexes_numeral (htext.whole_digits c (hwhole ▸ List.mem_cons_self)) fun rest hrest => ?_
  rw [← List.cons_append, ← hwhole, numeral_real negative htext.whole_digits htext.fraction_digits
    htext.fraction_ne_nil hrest]
  exact congrArg (fun w => (Constant.real w, rest)) hvalue

/-- **Printing a parsed formula and parsing it again gives the formula**, when its reals are finite,
are written without an exponent and are the values of their texts. -/
theorem parse_render_of_parse {text : String} {f : Formula Double} (h : parse text = .ok f)
    (hfinite : ∀ v, .const (.real v) ∈ f.terms → v.isFinite = true)
    (hplain : ∀ v, .const (.real v) ∈ f.terms → 'e' ∉ (Scalar.text v).toList)
    (hread : ∀ v, .const (.real v) ∈ f.terms → Numeral.double? (Scalar.text v) = some v) :
    parse f.render = .ok f :=
  parse_render (grammatical_of_parse h) fun v hv => lexes_real (hfinite v hv) (hplain v hv) (hread v hv)

/-- A formula with a negated disjunction, a real and a text. -/
def quotedWord : Formula Double :=
  .conj [.neg (.disj [.atom (relationAtom "a" [.var ⟨"X"⟩]),
      .compare ⟨.var ⟨"X"⟩, .le, .const (.integer 3)⟩]),
    .atom (relationAtom "c" [.const (.real ⟨0x4004000000000000⟩), .const (.text "x")])]

/-- Needless parentheses are not printed, and a word comes back in quotes. -/
theorem parse_render_of_parse_quotedWord :
    parse "~((a(X) | X<=3)) & (c(2.5, x))" = .ok quotedWord
      ∧ quotedWord.render = "~(a(X) | X <= 3) & c(2.5, 'x')"
      ∧ parse quotedWord.render = .ok quotedWord := by
  have hparse : parse "~((a(X) | X<=3)) & (c(2.5, x))" = .ok quotedWord := by
    have htokens : (scan? "~((a(X) | X<=3)) & (c(2.5, x))".toList).bind ofTokens? = some quotedWord := by
      decide +kernel
    rw [parse, htokens]
  have hreal : ∀ v, .const (.real v) ∈ quotedWord.terms → v = ⟨0x4004000000000000⟩ := by
    intro v hv
    simpa [quotedWord, terms, termsList, relationAtom, Comparison.terms] using hv
  refine ⟨hparse, by decide +kernel, parse_render_of_parse hparse ?_ ?_ ?_⟩
  · intro v hv
    rw [hreal v hv]
    decide
  · intro v hv
    rw [hreal v hv]
    decide +kernel
  · intro v hv
    rw [hreal v hv]
    decide +kernel

end Formula

end RelationalLP
