import Mathlib
import RelationalLP.Proofs.Sql.Arithmetic
import RelationalLP.Proofs.Sql.RefusedCoefficients
import RelationalLP.Proofs.Sql.WrittenAnswers

/-! # Coefficients as text

The text of a coefficient computes the coefficient. Sums are in parentheses and products are written one
behind the other, so that the text groups factors in another way than the expression, which changes no value. -/

namespace RelationalLP

namespace Sql

open RelationalLP.Expr (Arithmetic HasValue)

variable {K : Type} [Scalar K]

/-! ### Lexemes of computed values -/

namespace Quantity

mutual

/-- The lexemes of a computed value; sums are in parentheses. -/
def lexemes : Quantity K → List Lexeme
  | number v => [.word (Scalar.plainText v).toList]
  | column c => [.word c.write.toList]
  | add terms => .opening :: ([.plus].intercalate (lexemesAll terms) ++ [.closing])
  | mul factors => [.times].intercalate (lexemesAll factors)

/-- The lexemes of the parts of a sum or a product. -/
def lexemesAll : List (Quantity K) → List (List Lexeme)
  | [] => []
  | q :: qs => q.lexemes :: lexemesAll qs

end

theorem lexemesAll_eq_map (qs : List (Quantity K)) : lexemesAll qs = qs.map lexemes := by
  induction qs with
  | nil => rfl
  | cons q qs ih => rw [lexemesAll, ih, List.map_cons]

/-- Texts with an operator between them are the text of lexemes with the operator between them. -/
theorem toList_intercalate {separator : String} {operator : Lexeme}
    (hoperator : separator.toList = operator.text) {texts : List String} {parts : List (List Lexeme)}
    (h : List.Forall₂ (fun text part => text.toList = textOf part) texts parts) :
    (separator.intercalate texts).toList = textOf ([operator].intercalate parts) := by
  induction h with
  | nil => rfl
  | @cons text part texts parts hhead htail ih =>
    cases htail with
    | nil => rw [String.intercalate_singleton, List.intercalate_singleton, hhead]
    | cons hnext htail =>
      rw [String.intercalate_cons_cons, List.intercalate_cons_cons, String.toList_append,
        String.toList_append, ih, hhead, hoperator, textOf_append, textOf_append, textOf_cons]
      simp [textOf]

mutual

/-- **The text of a computed value is that of its lexemes.** -/
theorem toList_write : (q : Quantity K) → q.write.toList = textOf q.lexemes
  | number v => (List.append_nil _).symm
  | column c => (List.append_nil _).symm
  | add terms => by
    have hplus : " + ".toList = Lexeme.plus.text := rfl
    rw [write, lexemes, String.toList_append, String.toList_append,
      toList_intercalate hplus (forall₂_toList_writeAll terms), textOf_cons, textOf_append]
    rfl
  | mul factors => toList_intercalate rfl (forall₂_toList_writeAll factors)

theorem forall₂_toList_writeAll : (qs : List (Quantity K)) →
    List.Forall₂ (fun text part => text.toList = textOf part) (writeAll qs) (lexemesAll qs)
  | [] => .nil
  | q :: qs => .cons q.toList_write (forall₂_toList_writeAll qs)

end

end Quantity

/-! ### Words of coefficients -/

theorem mark?_of_isDigit {ch : Char} (h : ch.isDigit = true) : mark? ch = none := by
  unfold mark?
  split <;> simp_all

/-- A numeral is a word. -/
theorem isWord_of_positional {text : List Char} {negative : Bool} {whole fraction : List Char}
    (h : Numeral.Positional text negative whole fraction) : IsWord text := by
  have hwhole : ∀ ch ∈ whole, mark? ch = none := fun ch hch => mark?_of_isDigit (h.whole_digits ch hch)
  have hfraction : ∀ ch ∈ Numeral.pointed fraction, mark? ch = none := by
    intro ch hch
    rw [Numeral.pointed] at hch
    split at hch
    · cases hch
    · rcases List.mem_cons.mp hch with rfl | hch
      · rfl
      · exact mark?_of_isDigit (h.fraction_digits ch hch)
  refine ⟨?_, ?_⟩
  · simp [h.text_eq, h.whole_ne_nil]
  · rw [h.text_eq]
    refine List.forall_mem_append.mpr ⟨?_, List.forall_mem_append.mpr ⟨hwhole, hfraction⟩⟩
    cases negative <;> simp [mark?]

/-- A column of the cross product is a word when its name has no blanks, operators or parentheses. -/
theorem Column.isWord_write {col : Column} (hlabel : ∃ i, col.label = sourceLabel i)
    (hname : ∀ ch ∈ col.name.toList, mark? ch = none) : IsWord col.write.toList := by
  obtain ⟨i, hi⟩ := hlabel
  have hdigits : ∀ ch ∈ (toString (i + 1)).toList, mark? ch = none := by
    intro ch hch
    have hmem : ch ∈ Nat.toDigits 10 (i + 1) := by simpa using hch
    exact mark?_of_isDigit (Nat.isDigit_of_mem_toDigits (by decide) (by decide) hmem)
  have ha : ∀ ch ∈ "a".toList, mark? ch = none := by simp [mark?]
  have hpoint : ∀ ch ∈ ".".toList, mark? ch = none := by simp [mark?]
  rw [write, hi, sourceLabel]
  simp only [String.toList_append]
  refine ⟨by simp, List.forall_mem_append.mpr ⟨List.forall_mem_append.mpr
    ⟨List.forall_mem_append.mpr ⟨ha, hdigits⟩, hpoint⟩, hname⟩⟩

/-- A column of the cross product is not a numeral. -/
theorem Column.not_positional_write {col : Column} (hlabel : ∃ i, col.label = sourceLabel i)
    {negative : Bool} {whole fraction : List Char} :
    ¬ Numeral.Positional col.write.toList negative whole fraction := by
  intro h
  obtain ⟨i, hi⟩ := hlabel
  obtain ⟨digit, digits, rfl⟩ := List.exists_cons_of_ne_nil h.whole_ne_nil
  have htext := h.text_eq
  rw [write, hi, sourceLabel, String.toList_append, String.toList_append, String.toList_append] at htext
  cases negative with
  | true => exact absurd (List.cons.inj htext).1 (by decide)
  | false =>
    have hdigit : 'a' = digit := (List.cons.inj htext).1
    exact absurd (hdigit ▸ h.whole_digits digit List.mem_cons_self) (by decide)

/-- **The value of a word**: a numeral is the double that it rounds to, and another word is the name of a
number. -/
inductive WordValue (env : String → ℚ) : List Char → ℚ → Prop where
  /-- A numeral. -/
  | numeral {text : List Char} {v : Double} (h : Numeral.RoundsTo text v) : WordValue env text v.exact
  /-- A name. -/
  | name {text : List Char} (h : ∀ negative whole fraction,
      ¬ Numeral.Positional text negative whole fraction) : WordValue env text (env (String.ofList text))

/-- A word has one value. -/
theorem WordValue.unique {env : String → ℚ} {text : List Char} {x y : ℚ} (hx : WordValue env text x)
    (hy : WordValue env text y) : x = y := by
  cases hx with
  | numeral hv =>
    cases hy with
    | numeral hw => rw [hv.unique hw]
    | name hname =>
      obtain ⟨-, whole, fraction, htext, -⟩ := hv
      exact absurd htext (hname _ whole fraction)
  | name hname =>
    cases hy with
    | numeral hw =>
      obtain ⟨-, whole, fraction, htext, -⟩ := hw
      exact absurd htext (hname _ whole fraction)
    | name _ => rfl

/-! ### Coefficients with a text -/

/-- Lexemes with an operator between them have words when their parts have. -/
theorem haveWords_intercalate {operator : Lexeme} (hoperator : ∀ text, operator ≠ .word text)
    {parts : List (List Lexeme)} (h : ∀ part ∈ parts, HaveWords part) :
    HaveWords ([operator].intercalate parts) := by
  intro text htext
  induction parts with
  | nil => cases htext
  | cons part parts ih =>
    obtain ⟨hpart, hparts⟩ := List.forall_mem_cons.mp h
    cases parts with
    | nil =>
      rw [List.intercalate_singleton] at htext
      exact hpart text htext
    | cons next parts =>
      rw [List.intercalate_cons_cons, List.append_assoc, List.mem_append, List.mem_append,
        List.mem_singleton] at htext
      rcases htext with htext | heq | htext
      · exact hpart text htext
      · exact absurd heq.symm (hoperator text)
      · exact ih hparts htext

section Text

variable {d : Draft Double} {c : Conjunction Double} {e : Expr Double} {q : Quantity Double}

/-- **The lexemes of a coefficient have words**, when the names of columns have no blanks, operators or
parentheses. -/
theorem Draft.Covers.haveWords (h : d.Covers c) (he : Arithmetic e)
    (hnames : ∀ cell ∈ d.cells, ∀ ch ∈ cell.1.name.toList, mark? ch = none)
    (hq : d.quantity e = .ok q) : HaveWords q.lexemes := by
  have hparts : ∀ {es : List (Expr Double)} {qs : List (Quantity Double)},
      (∀ e ∈ es, ∀ q, d.quantity e = .ok q → HaveWords q.lexemes) → d.quantities es = .ok qs →
      ∀ part ∈ Quantity.lexemesAll qs, HaveWords part := by
    intro es qs hes hqs part hpart
    rw [Quantity.lexemesAll_eq_map] at hpart
    obtain ⟨q, hmem, rfl⟩ := List.mem_map.mp hpart
    obtain ⟨e, he, hq⟩ := exists_of_forall₂_right (Draft.quantities_eq_ok_iff.mp hqs) hmem
    exact hes e he q hq
  induction he generalizing q with
  | constant hfinite =>
    obtain rfl := Except.ok.inj hq
    obtain ⟨-, whole, fraction, htext, -⟩ := Double.roundsTo_plainText hfinite
    intro text hmem
    obtain rfl := Lexeme.word.inj (List.mem_singleton.mp hmem)
    exact isWord_of_positional htext
  | symbol s =>
    obtain ⟨col, hcol, rfl⟩ := map_eq_ok_iff.mp hq
    have hcell := mem_cells_of_lookup (firstColumn_eq_ok_iff.mp hcol)
    intro text hmem
    obtain rfl := Lexeme.word.inj (List.mem_singleton.mp hmem)
    exact Column.isWord_write (h.label _ hcell) (hnames _ hcell)
  | add _ _ ih =>
    obtain ⟨qs, hqs, rfl⟩ := map_eq_ok_iff.mp hq
    intro text hmem
    rw [Quantity.lexemes, List.mem_cons, List.mem_append, List.mem_singleton] at hmem
    rcases hmem with hmem | hmem | hmem
    · cases hmem
    · have hplus : ∀ text, Lexeme.plus ≠ .word text := nofun
      exact haveWords_intercalate hplus (hparts (fun e he q hq => ih e he hq) hqs) text hmem
    · cases hmem
  | mul _ _ ih =>
    obtain ⟨qs, hqs, rfl⟩ := map_eq_ok_iff.mp hq
    have htimes : ∀ text, Lexeme.times ≠ .word text := nofun
    exact haveWords_intercalate htimes (hparts (fun e he q hq => ih e he hq) hqs)

theorem lexemesAll_ne_nil {es : List (Expr Double)} {qs : List (Quantity Double)} (hne : es ≠ [])
    (hqs : List.Forall₂ (fun e q => d.quantity e = .ok q) es qs) : Quantity.lexemesAll qs ≠ [] := by
  intro hnil
  rw [Quantity.lexemesAll_eq_map, List.map_eq_nil_iff] at hnil
  exact hne (List.forall₂_nil_right_iff.mp (hnil ▸ hqs))

/-- The parts of a sum or a product have values that their lexemes read. -/
theorem exists_values_of_forall₂ {b : Binding ℚ} {value : List Char → ℚ → Prop}
    {es : List (Expr Double)} {qs : List (Quantity Double)} {xs : List (Expr ℚ)}
    (h : ∀ e ∈ es, ∀ q x, d.quantity e = .ok q → e.unrounded? = some x →
      ∃ v, HasValue b x v ∧ Reads value .product q.lexemes v)
    (hqs : List.Forall₂ (fun e q => d.quantity e = .ok q) es qs)
    (hxs : List.Forall₂ (fun e x => e.unrounded? = some x) es xs) :
    ∃ vs, List.Forall₂ (HasValue b) xs vs
      ∧ List.Forall₂ (Reads value .product) (Quantity.lexemesAll qs) vs := by
  induction hqs generalizing xs with
  | nil =>
    cases hxs
    exact ⟨[], .nil, .nil⟩
  | cons hq _ ih =>
    obtain ⟨h, hes⟩ := List.forall_mem_cons.mp h
    obtain ⟨x, xs', hx, hxs', rfl⟩ := List.forall₂_cons_left_iff.mp hxs
    obtain ⟨v, hv, hread⟩ := h _ x hq hx
    obtain ⟨vs, hvs, hreads⟩ := ih hes hxs'
    exact ⟨v :: vs, .cons hv hvs, .cons hread hreads⟩

/-- **The lexemes of a coefficient read its value**, where columns are the values of their symbols. -/
theorem Draft.Covers.exists_value (h : d.Covers c) (he : Arithmetic e) {x : Expr ℚ}
    (hq : d.quantity e = .ok q) (hx : e.unrounded? = some x) (env : String → ℚ) {b : Binding ℚ}
    (hcolumns : ∀ s col, (Expr.symbol s).PartOf e → d.firstColumn s = .ok col →
      Expr.symbolValue b s = .ok (env col.write)) :
    ∃ v, HasValue b x v ∧ Reads (WordValue env) .product q.lexemes v := by
  induction he generalizing q x with
  | @constant v hfinite =>
    obtain rfl := Except.ok.inj hq
    obtain rfl := Option.some.inj hx
    exact ⟨v.exact, fun i => rfl, .factor (.word (.numeral (Double.roundsTo_plainText hfinite)))⟩
  | symbol s =>
    obtain ⟨col, hcol, rfl⟩ := map_eq_ok_iff.mp hq
    obtain rfl := Option.some.inj hx
    have hlabel := h.label _ (mem_cells_of_lookup (firstColumn_eq_ok_iff.mp hcol))
    have hname : WordValue env col.write.toList (env (String.ofList col.write.toList)) :=
      .name fun _ _ _ => Column.not_positional_write hlabel
    rw [String.ofList_toList] at hname
    refine ⟨env col.write, fun i => ?_, .factor (.word hname)⟩
    rw [Expr.evaluate, hcolumns s col .self hcol]
    rfl
  | @add es hne _ ih =>
    obtain ⟨qs, hqs, rfl⟩ := map_eq_ok_iff.mp hq
    obtain ⟨xs, hxs, rfl⟩ := Option.map_eq_some_iff.mp hx
    have hqs := Draft.quantities_eq_ok_iff.mp hqs
    obtain ⟨vs, hvs, hreads⟩ := exists_values_of_forall₂
      (fun e he q x hq hx => ih e he hq hx fun s col hs => hcolumns s col (.add he hs))
      hqs (Expr.unroundedAll?_eq_some_iff.mp hxs)
    -- the parentheses make a sum a factor, whatever the expression around it is
    have hsum := Reads.sum (lexemesAll_ne_nil hne hqs) hreads
    exact ⟨vs.sum, HasValue.add hvs, .factor (.group hsum)⟩
  | @mul es hne _ ih =>
    obtain ⟨qs, hqs, rfl⟩ := map_eq_ok_iff.mp hq
    obtain ⟨xs, hxs, rfl⟩ := Option.map_eq_some_iff.mp hx
    have hqs := Draft.quantities_eq_ok_iff.mp hqs
    obtain ⟨vs, hvs, hreads⟩ := exists_values_of_forall₂
      (fun e he q x hq hx => ih e he hq hx fun s col hs => hcolumns s col (.mul he hs))
      hqs (Expr.unroundedAll?_eq_some_iff.mp hxs)
    -- a product without parentheses is part of the product around it
    exact ⟨vs.prod, HasValue.mul hvs, Reads.prod (lexemesAll_ne_nil hne hqs) hreads⟩

theorem lookup_map_snd {α β γ : Type} [BEq α] (f : β → γ) (l : List (α × β)) (a : α) :
    (l.map fun p => (p.1, f p.2)).lookup a = (l.lookup a).map f := by
  induction l with
  | nil => rfl
  | cons p l ih =>
    rw [List.map_cons, List.lookup_cons, List.lookup_cons, ih]
    cases a == p.1 <;> rfl

/-- **Some binding agrees with columns**, whatever numbers they are. -/
theorem Draft.exists_binding (d : Draft Double) (env : String → ℚ) : ∃ b : Binding ℚ, ∀ s col,
    d.firstColumn s = .ok col → Expr.symbolValue b s = .ok (env col.write) := by
  refine ⟨⟨d.symbolColumns.map fun p => (p.1, .real (env p.2.write))⟩, fun s col hcol => ?_⟩
  have hlookup := firstColumn_eq_ok_iff.mp hcol
  rw [Expr.symbolValue, Binding.get?,
    lookup_map_snd (fun col : Column => Constant.real (env col.write)), hlookup]
  rfl

/-- Arithmetic on symbols of positive atoms has a text. -/
theorem Draft.Covers.exists_quantity (h : d.Covers c) (he : Arithmetic e)
    (hplaces : ∀ s, (Expr.symbol s).PartOf e → c.Places s) : ∃ q, d.quantity e = .ok q := by
  cases hq : d.quantity e with
  | ok q => exact ⟨q, rfl⟩
  | error err =>
    obtain ⟨part, hpart, hrefused⟩ := h.exists_refused e err hq
    have harithmetic := he.of_partOf hpart
    cases hrefused with
    | atom a => cases harithmetic
    | sum q body => cases harithmetic
    | symbol hs => exact absurd (hplaces _ hpart) hs

end Text

/-- **The text of a coefficient computes the coefficient.** For the draft of a conjunction: a coefficient
has no text exactly when it has a part that is an atom, a sum over answers or a symbol that no positive atom
binds, and the error is about such a part. Arithmetic on symbols of positive atoms has a text; its lexemes
are found again in the text, when names of columns have no blanks, operators or parentheses; and by the
usual precedence they have one value, that of the expression in exact arithmetic, wherever columns are the
values of their symbols. -/
theorem coefficient_text_computes {schema : SchemaSource Id} {c : Conjunction Double} {d : Draft Double}
    {cache cache' : ColumnCache} (hd : Compile.Runs (Draft.ofConjunction schema c) cache d cache')
    (e : Expr Double) :
    ((∃ err, d.quantity e = .error err) ↔ ∃ part err, part.PartOf e ∧ Refuses c part err)
    ∧ (∀ err, d.quantity e = .error err → ∃ part, part.PartOf e ∧ Refuses c part err)
    ∧ (Arithmetic e → (∀ s, (Expr.symbol s).PartOf e → c.Places s) →
      ∃ q x, d.quantity e = .ok q ∧ e.unrounded? = some x
        ∧ q.write.toList = textOf q.lexemes
        ∧ ((∀ cell ∈ d.cells, ∀ ch ∈ cell.1.name.toList, mark? ch = none) →
          scan q.write.toList = q.lexemes)
        ∧ ∀ (env : String → ℚ) (b : Binding ℚ),
          (∀ s col, (Expr.symbol s).PartOf e → d.firstColumn s = .ok col →
            Expr.symbolValue b s = .ok (env col.write)) →
          ∃ v, HasValue b x v ∧ ∀ w, Reads (WordValue env) .sum q.lexemes w ↔ w = v) := by
  have h := Draft.covers_of_runs hd
  refine ⟨⟨?_, ?_⟩, h.exists_refused e, fun he hplaces => ?_⟩
  · rintro ⟨err, herr⟩
    obtain ⟨part, hpart⟩ := h.exists_refused e err herr
    exact ⟨part, err, hpart⟩
  · rintro ⟨part, err, hpart, hrefused⟩
    exact h.exists_error_of_partOf hpart hrefused
  obtain ⟨q, hq⟩ := h.exists_quantity he hplaces
  obtain ⟨x, hx⟩ := he.exists_unrounded
  refine ⟨q, x, hq, hx, q.toList_write, fun hnames => ?_, fun env b hcolumns => ?_⟩
  · -- the lexemes do not depend on what columns stand for, so that any binding shows how they are split
    obtain ⟨b, hb⟩ := d.exists_binding fun _ => 0
    obtain ⟨v, -, hread⟩ := h.exists_value he hq hx (fun _ => 0) fun s col _ => hb s col
    rw [q.toList_write]
    exact hread.product.scan_textOf (h.haveWords he hnames hq)
  · obtain ⟨v, hv, hread⟩ := h.exists_value he hq hx env hcolumns
    refine ⟨v, hv, fun w => ⟨fun hw => ?_, ?_⟩⟩
    · have hvalue : ∀ text x y, WordValue env text x → WordValue env text y → x = y :=
        fun _ _ _ hx hy => hx.unique hy
      exact Reads.unique hvalue hw hread.product
    · rintro rfl
      exact hread.product

/-- `road(X, Y, L) & road(Y, Z, M)`. -/
def twoRoads : Conjunction Double :=
  [.positive ⟨⟨"road", 3, .boolean, false⟩, [.var ⟨"X"⟩, .var ⟨"Y"⟩, .var ⟨"L"⟩]⟩,
    .positive ⟨⟨"road", 3, .boolean, false⟩, [.var ⟨"Y"⟩, .var ⟨"Z"⟩, .var ⟨"M"⟩]⟩]

/-- The draft of two roads. -/
def twoRoadsDraft : Draft Double where
  sources := [⟨"road", "a1"⟩, ⟨"road", "a2"⟩]
  cells := [(⟨"a1", "start"⟩, .var ⟨"X"⟩), (⟨"a1", "stop"⟩, .var ⟨"Y"⟩), (⟨"a1", "length"⟩, .var ⟨"L"⟩),
    (⟨"a2", "start"⟩, .var ⟨"Y"⟩), (⟨"a2", "stop"⟩, .var ⟨"Z"⟩), (⟨"a2", "length"⟩, .var ⟨"M"⟩)]

/-- `(-2.5 + L) * (M * (0.5 + L * M))`. -/
def detourCost : Expr Double :=
  .mul [.add [.constant ⟨0xc004000000000000⟩, .symbol ⟨"L"⟩],
    .mul [.symbol ⟨"M"⟩, .add [.constant ⟨0x3fe0000000000000⟩, .mul [.symbol ⟨"L"⟩, .symbol ⟨"M"⟩]]]]

/-- The first road has length 3, the second has length 2. -/
def roadLengths (column : String) : ℚ := if column = "a1.length" then 3 else 2

/-- The binding of the lengths. -/
def roadBinding : Binding ℚ := ⟨[(⟨"L"⟩, .integer 3), (⟨"M"⟩, .integer 2)]⟩

theorem arithmetic_detourCost : Arithmetic detourCost := by
  have hpair : ∀ {e e' : Expr Double}, Arithmetic e → Arithmetic e' → ∀ x ∈ [e, e'], Arithmetic x :=
    fun h h' => by simp [h, h']
  exact .mul nofun (hpair (.add nofun (hpair (.constant (by decide +kernel)) (.symbol _)))
    (.mul nofun (hpair (.symbol _) (.add nofun (hpair (.constant (by decide +kernel))
      (.mul nofun (hpair (.symbol _) (.symbol _))))))))

theorem symbol_of_partOf_detourCost {s : Symbol} (hs : (Expr.symbol s).PartOf detourCost) :
    s = ⟨"L"⟩ ∨ s = ⟨"M"⟩ := by
  simp [detourCost] at hs
  tauto

/-- The lengths of the roads are bound to the symbols that stand in their columns. -/
theorem symbolValue_roadBinding {s : Symbol} {col : Column}
    (hs : (Expr.symbol s).PartOf detourCost) (hcol : twoRoadsDraft.firstColumn s = .ok col) :
    Expr.symbolValue roadBinding s = .ok (roadLengths col.write) := by
  have hfirst : twoRoadsDraft.firstColumn ⟨"L"⟩ = .ok ⟨"a1", "length"⟩ := by decide +kernel
  have hsecond : twoRoadsDraft.firstColumn ⟨"M"⟩ = .ok ⟨"a2", "length"⟩ := by decide +kernel
  rcases symbol_of_partOf_detourCost hs with rfl | rfl
  · rw [hfirst] at hcol
    obtain rfl := Except.ok.inj hcol
    decide +kernel
  · rw [hsecond] at hcol
    obtain rfl := Except.ok.inj hcol
    decide +kernel

/-- The product in the product has no parentheses: where the first road has length 3 and the second has
length 2, the text computes 6.5 as the expression does. A symbol that is in no road leaves no text. -/
theorem coefficient_text_computes_roads :
    Compile.Runs (Draft.ofConjunction roadSchema twoRoads) [] twoRoadsDraft
        [("road", ["start", "stop", "length"])]
      ∧ (∃ q, twoRoadsDraft.quantity detourCost = .ok q
        ∧ q.write = "(-2.5 + a1.length) * a2.length * (0.5 + a1.length * a2.length)"
        ∧ ∀ w, Reads (WordValue roadLengths) .sum (scan q.write.toList) w ↔ w = 13 / 2)
      ∧ ∃ err, twoRoadsDraft.quantity (.add [detourCost, .symbol ⟨"N"⟩]) = .error err := by
  have hmade : Compile.Runs (Draft.ofConjunction roadSchema twoRoads) [] twoRoadsDraft
      [("road", ["start", "stop", "length"])] := rfl
  have hplaces : ∀ s, (Expr.symbol s).PartOf detourCost → twoRoads.Places s := by
    intro s hs
    rcases symbol_of_partOf_detourCost hs with rfl | rfl
    · exact ⟨_, List.mem_cons_self, by simp⟩
    · exact ⟨_, List.mem_cons_of_mem _ List.mem_cons_self, by simp⟩
  refine ⟨hmade, ?_, ?_⟩
  · obtain ⟨q, x, hq, hx, -, hscan, hvalue⟩ := (coefficient_text_computes hmade detourCost).2.2
      arithmetic_detourCost hplaces
    have hwrite : (twoRoadsDraft.quantity detourCost).map Quantity.write
        = .ok "(-2.5 + a1.length) * a2.length * (0.5 + a1.length * a2.length)" := by decide +kernel
    rw [hq] at hwrite
    have hscan := hscan (by simp [twoRoadsDraft, mark?])
    refine ⟨q, hq, Except.ok.inj hwrite, ?_⟩
    rw [hscan]
    obtain ⟨v, hv, hread⟩ := hvalue roadLengths roadBinding
      fun s col => symbolValue_roadBinding
    have hresult : (detourCost.unrounded?.map fun x =>
        (id (x.evaluate (m := Id) ⟨fun _ => pure 0, fun _ _ => pure []⟩ roadBinding).run :
          Except ExprError ℚ)) = some (.ok (13 / 2)) := by decide +kernel
    rw [hx, Option.map_some, hv] at hresult
    obtain rfl : v = 13 / 2 := Except.ok.inj (Option.some.inj hresult)
    exact hread
  · refine (coefficient_text_computes hmade _).1.mpr
      ⟨_, _, .add (e := .symbol ⟨"N"⟩) (by simp) .self, .symbol ?_⟩
    rintro ⟨a, ha, hs⟩
    have ha : a.arguments = [.var ⟨"X"⟩, .var ⟨"Y"⟩, .var ⟨"L"⟩]
        ∨ a.arguments = [.var ⟨"Y"⟩, .var ⟨"Z"⟩, .var ⟨"M"⟩] := by
      simp [twoRoads] at ha
      rcases ha with rfl | rfl <;> simp
    rcases ha with ha | ha <;> simp [ha] at hs

end Sql

end RelationalLP
