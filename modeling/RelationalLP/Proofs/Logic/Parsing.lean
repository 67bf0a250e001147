import Mathlib
import RelationalLP.Logic.Grammar
import RelationalLP.Proofs.Logic.Scanning
import RelationalLP.Proofs.Logic.Terms

/-! # Parsing

The tokens that a formula is written with are parsed as this formula, with every connective below another
one in parentheses. Conversely every formula that is parsed is of the form that can be written so: its
connectives have two parts at least, its atoms are those of relations with arguments, and its texts are
lower-case words or stand in quotes. -/

namespace RelationalLP

variable {K : Type}

/-! ### The tokens of a formula -/

/-- The token of a term; texts are quoted. -/
def Term.token : Term K → Token K
  | var s => .upper s.name
  | const c => .constant c

namespace Token

/-- Parts with a sign between them. -/
def joinParts (sign : Token K) : List (List (Token K)) → List (Token K)
  | [] => []
  | part :: parts => part ++ parts.flatMap (sign :: ·)

/-- Tokens in parentheses, where these are needed. -/
def wrap (compound : Bool) (ts : List (Token K)) : List (Token K) :=
  if compound then .opening :: (ts ++ [.closing]) else ts

theorem joinParts_cons_cons (sign : Token K) (part other : List (Token K))
    (parts : List (List (Token K))) :
    joinParts sign (part :: other :: parts) = part ++ sign :: joinParts sign (other :: parts) := by
  rw [joinParts, joinParts, List.flatMap_cons]
  rfl

end Token

namespace Formula

mutual

/-- **The tokens of a formula**, connectives below a connective in parentheses. -/
def tokens : Formula K → List (Token K)
  | truth => [.lower "true"]
  | falsity => [.lower "false"]
  | atom a =>
    .lower a.name :: .opening :: (Token.joinParts .comma (a.arguments.map ([·.token])) ++ [.closing])
  | compare c => [c.left.token, .op c.op, c.right.token]
  | neg f => .tilde :: Token.wrap f.isCompound f.tokens
  | conj fs => Token.joinParts .amp (tokensList fs)
  | disj fs => Token.joinParts .bar (tokensList fs)

/-- The tokens of the parts of a connective. -/
def tokensList : List (Formula K) → List (List (Token K))
  | [] => []
  | f :: fs => Token.wrap f.isCompound f.tokens :: tokensList fs

end

mutual

/-- **A formula that the grammar gives**: its connectives have two parts at least, its atoms are those of
relations with lower-case names and at least one argument, and a text can have its terms. -/
def Grammatical : Formula K → Prop
  | truth => True
  | falsity => True
  | atom a => a = relationAtom a.name a.arguments ∧ Token.StartsWith Char.isLower a.name
      ∧ a.arguments ≠ [] ∧ ∀ x ∈ a.arguments, x.token.Scanned
  | compare c => c.left.token.Scanned ∧ c.right.token.Scanned
  | neg f => f.Grammatical
  | conj fs => 2 ≤ fs.length ∧ GrammaticalList fs
  | disj fs => 2 ≤ fs.length ∧ GrammaticalList fs

/-- Each formula of a list is one that the grammar gives. -/
def GrammaticalList : List (Formula K) → Prop
  | [] => True
  | f :: fs => f.Grammatical ∧ GrammaticalList fs

end

/-! ### Parsing the tokens of a formula -/

variable {rest : List (Token K)} {depth : ℕ} {f : Formula K} {fs : List (Formula K)}

/-- A rest that ends a literal. -/
def EndsLiteral (rest : List (Token K)) : Prop := ∀ t ∈ rest.head?, t = .amp ∨ t = .bar ∨ t = .closing

/-- A rest that ends a conjunction. -/
def EndsConjunction (rest : List (Token K)) : Prop := ∀ t ∈ rest.head?, t = .bar ∨ t = .closing

/-- A rest that ends a disjunction. -/
def EndsDisjunction (rest : List (Token K)) : Prop := ∀ t ∈ rest.head?, t = .closing

theorem EndsDisjunction.conjunction (h : EndsDisjunction rest) : EndsConjunction rest :=
  fun t ht => .inr (h t ht)

theorem EndsConjunction.literal (h : EndsConjunction rest) : EndsLiteral rest :=
  fun t ht => .inr (h t ht)

theorem term?_token (t : Term K) : t.token.term? = some t := by
  cases t <;> rfl

/-- Arguments are parsed up to the closing parenthesis. -/
theorem arguments?_tokens {xs : List (Term K)} (hne : xs ≠ []) (rest : List (Token K)) :
    arguments? (Token.joinParts .comma (xs.map ([·.token])) ++ .closing :: rest) = some (xs, rest) := by
  induction xs with
  | nil => exact absurd rfl hne
  | cons x xs ih =>
    cases xs with
    | nil =>
      show arguments? (x.token :: .closing :: rest) = _
      rw [arguments?.eq_2, term?_token]
      rfl
    | cons y ys =>
      have hys := ih (List.cons_ne_nil y ys)
      rw [List.map_cons] at hys
      rw [List.map_cons, List.map_cons, Token.joinParts_cons_cons, List.append_assoc,
        List.singleton_append, List.cons_append, arguments?.eq_1, term?_token, hys]

/-- The formula is parsed as a part of a connective. -/
def ReadAsPart (f : Formula K) : Prop :=
  ∀ depth rest, EndsLiteral rest → 4 * (Token.wrap f.isCompound f.tokens).length ≤ depth →
    literal? depth (Token.wrap f.isCompound f.tokens ++ rest) = some (f, rest)

/-- The formula is parsed as a whole. -/
def ReadAsWhole (f : Formula K) : Prop :=
  ∀ depth rest, EndsDisjunction rest → 4 * f.tokens.length + 3 ≤ depth →
    disjunction? depth (f.tokens ++ rest) = some (f, rest)

theorem moreConjuncts?_nil (h : EndsConjunction rest) (hdepth : 1 ≤ depth) :
    moreConjuncts? depth rest = some ([], rest) := by
  obtain ⟨depth, rfl⟩ := Nat.exists_eq_add_of_le' hdepth
  refine moreConjuncts?.eq_3 rest depth ?_
  rintro ts rfl
  rcases h _ rfl with h | h <;> cases h

theorem moreDisjuncts?_nil (h : EndsDisjunction rest) (hdepth : 1 ≤ depth) :
    moreDisjuncts? depth rest = some ([], rest) := by
  obtain ⟨depth, rfl⟩ := Nat.exists_eq_add_of_le' hdepth
  refine moreDisjuncts?.eq_3 rest depth ?_
  rintro ts rfl
  cases h _ rfl

/-- The parts of a conjunction after the first are parsed one by one. -/
theorem moreConjuncts?_parts (hfs : ∀ f ∈ fs, f.ReadAsPart) (hrest : EndsConjunction rest) :
    ∀ depth, 4 * ((tokensList fs).flatMap (Token.amp :: ·)).length + 1 ≤ depth →
      moreConjuncts? depth ((tokensList fs).flatMap (Token.amp :: ·) ++ rest) = some (fs, rest) := by
  induction fs with
  | nil => exact fun depth hdepth => moreConjuncts?_nil hrest hdepth
  | cons f fs ih =>
    intro depth hdepth
    rw [List.forall_mem_cons] at hfs
    rw [tokensList, List.flatMap_cons] at hdepth ⊢
    obtain ⟨depth, rfl⟩ := Nat.exists_eq_add_of_le' (Nat.le_of_add_left_le hdepth)
    simp only [List.length_append, List.length_cons] at hdepth
    -- a part is followed by the sign of the next one, or by the rest
    have hends : EndsLiteral ((tokensList fs).flatMap (Token.amp :: ·) ++ rest) := by
      cases fs with
      | nil => exact hrest.literal
      | cons g gs =>
        rintro t ⟨⟩
        exact .inl rfl
    rw [List.append_assoc, List.cons_append, moreConjuncts?.eq_2, hfs.1 _ _ hends (by omega)]
    simp only [ih hfs.2 depth (by omega)]
    rfl

/-- A part of a connective is a conjunction by itself. -/
theorem ReadAsPart.conjunction? (h : f.ReadAsPart) (hrest : EndsConjunction rest)
    (hdepth : 4 * (Token.wrap f.isCompound f.tokens).length + 2 ≤ depth) :
    Formula.conjunction? depth (Token.wrap f.isCompound f.tokens ++ rest) = some (f, rest) := by
  obtain ⟨depth, rfl⟩ := Nat.exists_eq_add_of_le' (Nat.le_of_add_left_le hdepth)
  rw [Formula.conjunction?.eq_2, h _ _ hrest.literal (by omega)]
  simp only [moreConjuncts?_nil hrest (show 1 ≤ depth + 1 by omega)]
  rfl

/-- The parts of a disjunction after the first are parsed one by one. -/
theorem moreDisjuncts?_parts (hfs : ∀ f ∈ fs, f.ReadAsPart) (hrest : EndsDisjunction rest) :
    ∀ depth, 4 * ((tokensList fs).flatMap (Token.bar :: ·)).length + 1 ≤ depth →
      moreDisjuncts? depth ((tokensList fs).flatMap (Token.bar :: ·) ++ rest) = some (fs, rest) := by
  induction fs with
  | nil => exact fun depth hdepth => moreDisjuncts?_nil hrest hdepth
  | cons f fs ih =>
    intro depth hdepth
    rw [List.forall_mem_cons] at hfs
    rw [tokensList, List.flatMap_cons] at hdepth ⊢
    obtain ⟨depth, rfl⟩ := Nat.exists_eq_add_of_le' (Nat.le_of_add_left_le hdepth)
    simp only [List.length_append, List.length_cons] at hdepth
    have hends : EndsConjunction ((tokensList fs).flatMap (Token.bar :: ·) ++ rest) := by
      cases fs with
      | nil => exact hrest.conjunction
      | cons g gs =>
        rintro t ⟨⟩
        exact .inl rfl
    rw [List.append_assoc, List.cons_append, moreDisjuncts?.eq_2, hfs.1.conjunction? hends (by omega)]
    simp only [ih hfs.2 depth (by omega)]
    rfl

/-- A formula that needs no parentheses is parsed as a whole when it is parsed as a part. -/
theorem ReadAsPart.whole (h : f.ReadAsPart) (hf : f.isCompound = false) : f.ReadAsWhole := by
  intro depth rest hrest hdepth
  have hwrap : Token.wrap f.isCompound f.tokens = f.tokens := by rw [hf]; rfl
  obtain ⟨depth, rfl⟩ := Nat.exists_eq_add_of_le' (Nat.le_of_add_left_le hdepth)
  have hpart := h.conjunction? hrest.conjunction (show _ ≤ depth + 2 by rw [hwrap]; omega)
  rw [hwrap] at hpart
  rw [disjunction?.eq_2, hpart]
  simp only [moreDisjuncts?_nil hrest (show 1 ≤ depth + 2 by omega)]
  rfl

/-- A connective is parsed in parentheses when it is parsed as a whole. -/
theorem ReadAsWhole.part (h : f.ReadAsWhole) (hf : f.isCompound = true) : f.ReadAsPart := by
  intro depth rest hrest hdepth
  have hwrap : Token.wrap f.isCompound f.tokens = .opening :: (f.tokens ++ [.closing]) := by rw [hf]; rfl
  rw [hwrap] at hdepth ⊢
  simp only [List.length_append, List.length_cons, List.length_nil] at hdepth
  obtain ⟨depth, rfl⟩ := Nat.exists_eq_add_of_le' (show 1 ≤ depth by omega)
  rw [List.cons_append, List.append_assoc, literal?.eq_3, h _ _ ?_ (by omega)]
  · rfl
  · rintro t ⟨⟩
    rfl

/-! ### Literals -/

theorem EndsLiteral.ne_opening (h : EndsLiteral rest) (ts : List (Token K)) :
    rest = .opening :: ts → False := by
  rintro rfl
  rcases h _ rfl with h | h | h <;> cases h

theorem EndsLiteral.ne_op (h : EndsLiteral rest) (o : CompareOp) (t : Token K) (ts : List (Token K)) :
    rest = .op o :: t :: ts → False := by
  rintro rfl
  rcases h _ rfl with h | h | h <;> cases h

/-- What starts with neither a negation nor a parenthesis is a simple literal. -/
theorem literal?_simple {t : Token K} (htilde : t ≠ .tilde) (hopening : t ≠ .opening)
    (ts : List (Token K)) (depth : ℕ) : literal? (depth + 1) (t :: ts) = simpleLiteral? (t :: ts) := by
  refine literal?.eq_4 (t :: ts) depth ?_ ?_
  · rintro us ⟨⟩
    exact htilde rfl
  · rintro us ⟨⟩
    exact hopening rfl

/-- A formula whose tokens are a simple literal is parsed as a part. -/
theorem readAsPart_of_simple {t : Token K} {ts : List (Token K)}
    (htokens : Token.wrap f.isCompound f.tokens = t :: ts) (htilde : t ≠ .tilde) (hopening : t ≠ .opening)
    (h : ∀ rest, EndsLiteral rest → simpleLiteral? (t :: (ts ++ rest)) = some (f, rest)) :
    f.ReadAsPart := by
  intro depth rest hrest hdepth
  rw [htokens] at hdepth ⊢
  rw [List.length_cons] at hdepth
  obtain ⟨depth, rfl⟩ := Nat.exists_eq_add_of_le' (show 1 ≤ depth by omega)
  rw [List.cons_append, literal?_simple htilde hopening, h rest hrest]

theorem readAsPart_truth : (truth : Formula K).ReadAsPart :=
  readAsPart_of_simple rfl (by nofun) (by nofun)
    fun rest hrest => simpleLiteral?.eq_3 rest hrest.ne_opening hrest.ne_op

theorem readAsPart_falsity : (falsity : Formula K).ReadAsPart :=
  readAsPart_of_simple rfl (by nofun) (by nofun)
    fun rest hrest => simpleLiteral?.eq_4 rest hrest.ne_opening hrest.ne_op

theorem readAsPart_atom {a : Atom K} (h : (atom a).Grammatical) : (atom a).ReadAsPart := by
  obtain ⟨hrelation, -, hne, -⟩ := h
  refine readAsPart_of_simple rfl (by nofun) (by nofun) fun rest _ => ?_
  rw [List.cons_append, List.append_assoc, simpleLiteral?.eq_1, List.singleton_append,
    arguments?_tokens hne]
  exact congrArg (fun b => some (atom b, rest)) hrelation.symm

theorem readAsPart_compare (c : Comparison K) : (compare c).ReadAsPart := by
  refine readAsPart_of_simple rfl ?_ ?_ fun rest _ => ?_
  · cases c.left <;> nofun
  · cases c.left <;> nofun
  · rw [List.cons_append, List.singleton_append, simpleLiteral?.eq_2, term?_token, term?_token]

theorem ReadAsPart.neg (h : f.ReadAsPart) : (neg f).ReadAsPart := by
  intro depth rest hrest hdepth
  change 4 * ((Token.wrap f.isCompound f.tokens).length + 1) ≤ depth at hdepth
  obtain ⟨depth, rfl⟩ := Nat.exists_eq_add_of_le' (show 1 ≤ depth by omega)
  show literal? (depth + 1) (.tilde :: (Token.wrap f.isCompound f.tokens ++ rest)) = _
  rw [literal?.eq_2, h _ _ hrest (by omega)]
  rfl

/-! ### Connectives -/

/-- A list of two elements at least. -/
theorem exists_cons_cons_of_length {α : Type} {xs : List α} (h : 2 ≤ xs.length) :
    ∃ x y zs, xs = x :: y :: zs := by
  rcases xs with _ | ⟨x, _ | ⟨y, zs⟩⟩
  · cases h
  · cases Nat.le_of_succ_le_succ h
  · exact ⟨x, y, zs, rfl⟩

theorem readAsWhole_conj (hlen : 2 ≤ fs.length) (hfs : ∀ f ∈ fs, f.ReadAsPart) : (conj fs).ReadAsWhole := by
  obtain ⟨f, g, gs, rfl⟩ := exists_cons_cons_of_length hlen
  rw [List.forall_mem_cons] at hfs
  intro depth rest hrest hdepth
  rw [tokens, tokensList, Token.joinParts, List.length_append] at hdepth
  -- one call for the disjunction and one for the conjunction that is its only part
  obtain ⟨depth, rfl⟩ := Nat.exists_eq_add_of_le' (show 2 ≤ depth by omega)
  have hmore := moreConjuncts?_parts hfs.2 hrest.conjunction depth (by omega)
  have hends : EndsLiteral ((tokensList (g :: gs)).flatMap (Token.amp :: ·) ++ rest) := by
    rintro t ⟨⟩
    exact .inl rfl
  rw [tokens, tokensList, Token.joinParts, List.append_assoc, disjunction?.eq_2, conjunction?.eq_2,
    hfs.1 depth _ hends (by omega)]
  simp only [hmore]
  rw [Option.map_some]
  simp only [moreDisjuncts?_nil hrest (show 1 ≤ depth + 1 by omega)]
  rfl

theorem readAsWhole_disj (hlen : 2 ≤ fs.length) (hfs : ∀ f ∈ fs, f.ReadAsPart) : (disj fs).ReadAsWhole := by
  obtain ⟨f, g, gs, rfl⟩ := exists_cons_cons_of_length hlen
  rw [List.forall_mem_cons] at hfs
  intro depth rest hrest hdepth
  rw [tokens, tokensList, Token.joinParts, List.length_append] at hdepth
  obtain ⟨depth, rfl⟩ := Nat.exists_eq_add_of_le' (show 1 ≤ depth by omega)
  have hmore := moreDisjuncts?_parts hfs.2 hrest depth (by omega)
  have hends : EndsConjunction ((tokensList (g :: gs)).flatMap (Token.bar :: ·) ++ rest) := by
    rintro t ⟨⟩
    exact .inl rfl
  rw [tokens, tokensList, Token.joinParts, List.append_assoc, disjunction?.eq_2,
    hfs.1.conjunction? hends (by omega)]
  simp only [hmore]
  rfl

mutual

/-- **Parsing the tokens of a formula gives the formula**, as a part of a connective and as a whole. -/
theorem readAsPart_and_readAsWhole :
    ∀ f : Formula K, f.Grammatical → f.ReadAsPart ∧ f.ReadAsWhole
  | truth, _ => ⟨readAsPart_truth, readAsPart_truth.whole rfl⟩
  | falsity, _ => ⟨readAsPart_falsity, readAsPart_falsity.whole rfl⟩
  | atom _, h => ⟨readAsPart_atom h, (readAsPart_atom h).whole rfl⟩
  | compare c, _ => ⟨readAsPart_compare c, (readAsPart_compare c).whole rfl⟩
  | neg f, h =>
    -- a part gives the whole where no parentheses are needed, below a connective the whole gives the part
    have hneg := (readAsPart_and_readAsWhole f h).1.neg
    ⟨hneg, hneg.whole rfl⟩
  | conj fs, h =>
    have hconj := readAsWhole_conj h.1 (forall_readAsPart fs h.2)
    ⟨hconj.part rfl, hconj⟩
  | disj fs, h =>
    have hdisj := readAsWhole_disj h.1 (forall_readAsPart fs h.2)
    ⟨hdisj.part rfl, hdisj⟩

/-- The formulas of a list are parsed as parts. -/
theorem forall_readAsPart : ∀ fs : List (Formula K), GrammaticalList fs → ∀ f ∈ fs, f.ReadAsPart
  | [], _ => nofun
  | f :: fs, h => List.forall_mem_cons.mpr
      ⟨(readAsPart_and_readAsWhole f h.1).1, forall_readAsPart fs h.2⟩

end

/-- **The tokens of a formula are parsed as the formula.** -/
theorem ofTokens?_tokens (h : f.Grammatical) : ofTokens? f.tokens = some f := by
  have hwhole := (readAsPart_and_readAsWhole f h).2 (4 * f.tokens.length + 4) [] nofun (by omega)
  rw [List.append_nil] at hwhole
  rw [ofTokens?, hwhole]

/-! ### What is parsed

Every step of the parser leaves tokens of the text behind, so what holds of all tokens of a text holds of
those that the later steps read; the recursion is on the depth of calls. -/

/-- A term that is read from a token of some kind. -/
def ReadFrom (Q : Token K → Prop) (x : Term K) : Prop := ∃ t, Q t ∧ t.term? = some x

/-- **What the parser builds**: a property of formulas that every formula has which is read from tokens of
some kind, rule by rule. -/
structure Built (Q : Token K → Prop) (P : Formula K → Prop) : Prop where
  /-- The truth values have it. -/
  truth : P truth
  falsity : P falsity
  /-- Atoms of relations with arguments have it. -/
  atom : ∀ {name xs}, Q (.lower name) → xs ≠ [] → (∀ x ∈ xs, ReadFrom Q x) → P (.atom (relationAtom name xs))
  /-- Comparisons have it. -/
  compare : ∀ {x o y}, ReadFrom Q x → ReadFrom Q y → P (.compare ⟨x, o, y⟩)
  /-- Negations have it. -/
  neg : ∀ {f}, P f → P (.neg f)
  /-- Connectives with two parts at least have it. -/
  conj : ∀ {fs}, 2 ≤ fs.length → (∀ f ∈ fs, P f) → P (.conj fs)
  disj : ∀ {fs}, 2 ≤ fs.length → (∀ f ∈ fs, P f) → P (.disj fs)

variable {ts : List (Token K)} {t : Token K} {Q : Token K → Prop} {P : Formula K → Prop}

theorem readFrom_of_arguments? {xs : List (Term K)} (hts : ∀ t ∈ ts, Q t)
    (h : arguments? ts = some (xs, rest)) :
    xs ≠ [] ∧ (∀ x ∈ xs, ReadFrom Q x) ∧ ∀ t ∈ rest, Q t := by
  induction ts using arguments?.induct generalizing xs rest with
  | case1 t us x ys us' hys hx ih =>
    -- a term with a comma and further arguments behind it
    rw [List.forall_mem_cons, List.forall_mem_cons] at hts
    rw [arguments?.eq_1, hx, hys] at h
    cases h
    obtain ⟨-, hread, hrest⟩ := ih hts.2.2 hys
    exact ⟨List.cons_ne_nil x ys, List.forall_mem_cons.mpr ⟨⟨t, hts.1, hx⟩, hread⟩, hrest⟩
  | case2 t us hnone ih =>
    -- behind a comma there have to be further arguments
    rw [arguments?.eq_1] at h
    split at h
    · rename_i x ys us' hx hys
      exact absurd hys (hnone x ys us' hx)
    · cases h
  | case3 t us =>
    -- the last term, before the closing parenthesis
    rw [List.forall_mem_cons, List.forall_mem_cons] at hts
    rw [arguments?.eq_2] at h
    obtain ⟨x, hx, hxs⟩ := Option.map_eq_some_iff.mp h
    cases hxs
    exact ⟨List.cons_ne_nil x [], List.forall_mem_singleton.mpr ⟨t, hts.1, hx⟩, hts.2.2⟩
  | case4 us hcomma hclosing =>
    rw [arguments?.eq_3 us hcomma hclosing] at h
    cases h

theorem Built.of_simpleLiteral? (hP : Built Q P) (hts : ∀ t ∈ ts, Q t)
    (h : simpleLiteral? ts = some (f, rest)) : P f ∧ ∀ t ∈ rest, Q t := by
  unfold simpleLiteral? at h
  split at h
  · rename_i p us
    rw [List.forall_mem_cons, List.forall_mem_cons] at hts
    obtain ⟨⟨xs, us'⟩, hxs, hf⟩ := Option.map_eq_some_iff.mp h
    cases hf
    obtain ⟨hne, hread, hrest⟩ := readFrom_of_arguments? hts.2.2 hxs
    exact ⟨hP.atom hts.1 hne hread, hrest⟩
  · rename_i t o u us
    rw [List.forall_mem_cons, List.forall_mem_cons, List.forall_mem_cons] at hts
    split at h
    · rename_i x y hx hy
      cases h
      exact ⟨hP.compare ⟨t, hts.1, hx⟩ ⟨u, hts.2.2.1, hy⟩, hts.2.2.2⟩
    · cases h
  · cases h
    exact ⟨hP.truth, (List.forall_mem_cons.mp hts).2⟩
  · cases h
    exact ⟨hP.falsity, (List.forall_mem_cons.mp hts).2⟩
  · cases h

/-- A connective is built of two parts at least. -/
theorem of_gather {connective : List (Formula K) → Formula K}
    (hconnective : ∀ {gs}, 2 ≤ gs.length → (∀ g ∈ gs, P g) → P (connective gs))
    (hf : P f) (hfs : ∀ g ∈ fs, P g) : P (gather connective f fs) := by
  cases fs with
  | nil => exact hf
  | cons g gs => exact hconnective (Nat.le_add_left 2 gs.length) (List.forall_mem_cons.mpr ⟨hf, hfs⟩)

mutual

/-- **A parsed disjunction** has what the parser builds, and so on for what it is made of. -/
theorem Built.of_disjunction? (hP : Built Q P) : ∀ (depth : ℕ) (ts : List (Token K)) (f : Formula K)
    (rest : List (Token K)), (∀ t ∈ ts, Q t) → disjunction? depth ts = some (f, rest) →
      P f ∧ ∀ t ∈ rest, Q t
  | 0, _, _, _, _ => nofun
  | depth + 1, ts, f, rest, hts => fun h => by
    rw [disjunction?.eq_2] at h
    split at h
    · cases h
    · rename_i g us hg
      obtain ⟨⟨gs, us'⟩, hgs, hf⟩ := Option.map_eq_some_iff.mp h
      cases hf
      obtain ⟨hg, hus⟩ := hP.of_conjunction? depth _ _ _ hts hg
      obtain ⟨hgs, hrest⟩ := hP.of_moreDisjuncts? depth _ _ _ hus hgs
      exact ⟨of_gather hP.disj hg hgs, hrest⟩

theorem Built.of_moreDisjuncts? (hP : Built Q P) : ∀ (depth : ℕ) (ts : List (Token K))
    (fs : List (Formula K)) (rest : List (Token K)), (∀ t ∈ ts, Q t) →
      moreDisjuncts? depth ts = some (fs, rest) → (∀ f ∈ fs, P f) ∧ ∀ t ∈ rest, Q t
  | 0, _, _, _, _ => nofun
  | depth + 1, ts, fs, rest, hts => fun h => by
    by_cases hsign : ∃ us, ts = .bar :: us
    · obtain ⟨us, rfl⟩ := hsign
      rw [moreDisjuncts?.eq_2] at h
      split at h
      · cases h
      · rename_i g us' hg
        obtain ⟨⟨gs, rest'⟩, hgs, hf⟩ := Option.map_eq_some_iff.mp h
        cases hf
        obtain ⟨hg, hus⟩ := hP.of_conjunction? depth _ _ _ (List.forall_mem_cons.mp hts).2 hg
        obtain ⟨hgs, hrest⟩ := hP.of_moreDisjuncts? depth _ _ _ hus hgs
        exact ⟨List.forall_mem_cons.mpr ⟨hg, hgs⟩, hrest⟩
    · rw [moreDisjuncts?.eq_3 ts depth fun us hus => hsign ⟨us, hus⟩] at h
      cases h
      exact ⟨nofun, hts⟩

theorem Built.of_conjunction? (hP : Built Q P) : ∀ (depth : ℕ) (ts : List (Token K)) (f : Formula K)
    (rest : List (Token K)), (∀ t ∈ ts, Q t) → conjunction? depth ts = some (f, rest) →
      P f ∧ ∀ t ∈ rest, Q t
  | 0, _, _, _, _ => nofun
  | depth + 1, ts, f, rest, hts => fun h => by
    rw [conjunction?.eq_2] at h
    split at h
    · cases h
    · rename_i g us hg
      obtain ⟨⟨gs, us'⟩, hgs, hf⟩ := Option.map_eq_some_iff.mp h
      cases hf
      obtain ⟨hg, hus⟩ := hP.of_literal? depth _ _ _ hts hg
      obtain ⟨hgs, hrest⟩ := hP.of_moreConjuncts? depth _ _ _ hus hgs
      exact ⟨of_gather hP.conj hg hgs, hrest⟩

theorem Built.of_moreConjuncts? (hP : Built Q P) : ∀ (depth : ℕ) (ts : List (Token K))
    (fs : List (Formula K)) (rest : List (Token K)), (∀ t ∈ ts, Q t) →
      moreConjuncts? depth ts = some (fs, rest) → (∀ f ∈ fs, P f) ∧ ∀ t ∈ rest, Q t
  | 0, _, _, _, _ => nofun
  | depth + 1, ts, fs, rest, hts => fun h => by
    by_cases hsign : ∃ us, ts = .amp :: us
    · obtain ⟨us, rfl⟩ := hsign
      rw [moreConjuncts?.eq_2] at h
      split at h
      · cases h
      · rename_i g us' hg
        obtain ⟨⟨gs, rest'⟩, hgs, hf⟩ := Option.map_eq_some_iff.mp h
        cases hf
        obtain ⟨hg, hus⟩ := hP.of_literal? depth _ _ _ (List.forall_mem_cons.mp hts).2 hg
        obtain ⟨hgs, hrest⟩ := hP.of_moreConjuncts? depth _ _ _ hus hgs
        exact ⟨List.forall_mem_cons.mpr ⟨hg, hgs⟩, hrest⟩
    · rw [moreConjuncts?.eq_3 ts depth fun us hus => hsign ⟨us, hus⟩] at h
      cases h
      exact ⟨nofun, hts⟩

theorem Built.of_literal? (hP : Built Q P) : ∀ (depth : ℕ) (ts : List (Token K)) (f : Formula K)
    (rest : List (Token K)), (∀ t ∈ ts, Q t) → literal? depth ts = some (f, rest) →
      P f ∧ ∀ t ∈ rest, Q t
  | 0, _, _, _, _ => nofun
  | depth + 1, ts, f, rest, hts => fun h => by
    by_cases htilde : ∃ us, ts = .tilde :: us
    · obtain ⟨us, rfl⟩ := htilde
      obtain ⟨⟨g, us'⟩, hg, hf⟩ := Option.map_eq_some_iff.mp (literal?.eq_2 depth us ▸ h)
      cases hf
      obtain ⟨hg, hrest⟩ := hP.of_literal? depth us g _ (List.forall_mem_cons.mp hts).2 hg
      exact ⟨hP.neg hg, hrest⟩
    · by_cases hopening : ∃ us, ts = .opening :: us
      · obtain ⟨us, rfl⟩ := hopening
        rw [literal?.eq_3] at h
        split at h
        · rename_i g us' hg
          cases h
          obtain ⟨hf, hus⟩ := hP.of_disjunction? depth _ _ _ (List.forall_mem_cons.mp hts).2 hg
          exact ⟨hf, (List.forall_mem_cons.mp hus).2⟩
        · cases h
      · rw [literal?.eq_4 ts depth (fun us hus => htilde ⟨us, hus⟩) fun us hus => hopening ⟨us, hus⟩] at h
        exact hP.of_simpleLiteral? hts h

end

/-- **A parsed formula has what the parser builds.** -/
theorem Built.of_ofTokens? (hP : Built Q P) (hts : ∀ t ∈ ts, Q t) (h : ofTokens? ts = some f) : P f := by
  rw [ofTokens?] at h
  split at h
  · rename_i g hg
    cases h
    exact (hP.of_disjunction? _ _ _ _ hts hg).1
  · cases h

/-! ### The form of what is parsed -/

/-- A term that is read from a word is written as a word that a text can have. -/
theorem ReadFrom.scanned {x : Term K} (h : ReadFrom Token.Scanned x) : x.token.Scanned := by
  obtain ⟨t, ht, hx⟩ := h
  cases t with
  | upper name => cases hx; exact ht
  | lower name =>
    cases hx
    obtain ⟨c, cs, rfl, hc, hcs⟩ := ht
    show '\'' ∉ (String.ofList (c :: cs)).toList
    rw [String.toList_ofList]
    rintro (_ | ⟨_, hmem⟩)
    · cases hc
    · cases hcs _ hmem
  | constant c => cases hx; exact ht
  | _ => cases hx

theorem grammaticalList_of_forall : ∀ {fs : List (Formula K)}, (∀ f ∈ fs, f.Grammatical) → GrammaticalList fs
  | [], _ => trivial
  | _ :: _, h => ⟨(List.forall_mem_cons.mp h).1, grammaticalList_of_forall (List.forall_mem_cons.mp h).2⟩

/-- The parser builds formulas of the form that the grammar gives. -/
theorem built_grammatical : Built Token.Scanned (Grammatical (K := K)) where
  truth := trivial
  falsity := trivial
  atom := fun hname hne hxs => ⟨rfl, hname, hne, fun x hx => (hxs x hx).scanned⟩
  compare := fun hx hy => ⟨hx.scanned, hy.scanned⟩
  neg := id
  conj := fun hlength hfs => ⟨hlength, grammaticalList_of_forall hfs⟩
  disj := fun hlength hfs => ⟨hlength, grammaticalList_of_forall hfs⟩

/-- **A parsed formula is of the form that the grammar gives.** -/
theorem grammatical_of_ofTokens? (hts : ∀ t ∈ ts, t.Scanned) (h : ofTokens? ts = some f) :
    f.Grammatical := built_grammatical.of_ofTokens? hts h

/-! ### The terms of what is parsed -/

/-- The parser builds formulas whose terms are read from tokens. -/
theorem built_terms (Q : Token K → Prop) : Built Q fun f => ∀ x ∈ f.terms, ReadFrom Q x where
  truth := nofun
  falsity := nofun
  atom := fun _ _ hxs => hxs
  compare := fun hx hy => List.forall_mem_cons.mpr ⟨hx, List.forall_mem_singleton.mpr hy⟩
  neg := id
  conj := fun _ hfs x hx => by
    obtain ⟨f, hf, hx⟩ := mem_termsList.mp hx
    exact hfs f hf x hx
  disj := fun _ hfs x hx => by
    obtain ⟨f, hf, hx⟩ := mem_termsList.mp hx
    exact hfs f hf x hx

variable [Scalar K] {text : String}

/-- A parsed text has tokens, which are those of the formula. -/
theorem exists_tokens_of_parse (h : parse text = .ok f) :
    ∃ ts : List (Token K), Token.scan? text.toList = some ts ∧ ofTokens? ts = some f := by
  rw [parse] at h
  split at h
  · rename_i g hg
    cases h
    exact Option.bind_eq_some_iff.mp hg
  · cases h

/-- **The texts of a parsed formula** are lower-case words, or have no quotes and stand in quotes. -/
theorem text_of_parse (h : parse text = .ok f) {s : String} (hs : .const (.text s) ∈ f.terms) :
    Token.StartsWith Char.isLower s ∨ '\'' ∉ s.toList ∧ '\'' ∈ text.toList := by
  obtain ⟨ts, hts, hf⟩ := exists_tokens_of_parse h
  obtain ⟨t, ht, hterm⟩ := (built_terms (· ∈ ts)).of_ofTokens? (fun _ => id) hf _ hs
  have hscanned := Token.scanned_of_scan? hts t ht
  cases t with
  | lower name => cases hterm; exact .inl hscanned
  | constant c => cases hterm; exact .inr ⟨hscanned, Token.quote_mem_of_scan? hts ht⟩
  | _ => cases hterm

end Formula

end RelationalLP
